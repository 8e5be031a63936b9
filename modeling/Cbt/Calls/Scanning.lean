import Mathlib.Data.List.Induction
import Cbt.Codec.Decoding

/-! Look-ups in a cache that also holds deleted objects. Each look-up takes a share
of every deleted object it passes, as often as it passes it, although the cache
holds one share; the share that would be the last one unlinks the list node that
the loop stands on. -/

namespace Cbt

open Lib.Command (run_bind_iff run_pure_iff run_fault_iff)

variable {w w₁ w' : World} {k : Kind} {oid : Oid} {oids : List Oid} {l : List ℕ} {r : Option ℕ}

/-- The object exists and has the id. -/
def Lib.Conf.hits (w : World) (oid : Oid) (p : ℕ) : Bool := w.exists? p && w.idOf p = some oid

/-- The entries a look-up passes: those before the first that exists and has the id. -/
def Lib.Conf.passed (w : World) (k : Kind) (oid : Oid) : List ℕ := (w.cash k).takeWhile fun p => !w.hits oid p

/-! ### Shares taken -/

/-- A share was taken of every deleted object, as often as it is listed. -/
structure Lowered (w : World) (ps : List ℕ) (w' : World) : Prop where
  env : w'.env = w.env
  cash : w'.cash = w.cash
  other : ∀ p, (∀ b x, w.heap.get p = some ⟨some b, x⟩ → b.isExist = true) → w'.heap.get p = w.heap.get p
  dead : ∀ p b x, w.heap.get p = some ⟨some b, x⟩ → b.isExist = false →
    w'.heap.get p = some ⟨some (b.own (-(ps.count p : ℤ))), x⟩

namespace Lowered

theorem refl (w : World) : Lowered w [] w := by
  refine ⟨rfl, rfl, fun _ _ => rfl, fun p b x hp _ => ?_⟩
  rw [hp, List.count_nil, Nat.cast_zero, neg_zero, own_zero]

theorem trans {ps qs : List ℕ} (h : Lowered w ps w₁) (h' : Lowered w₁ qs w') : Lowered w (ps ++ qs) w' := by
  refine ⟨h'.env.trans h.env, h'.cash.trans h.cash, fun p hp => ?_, fun p b x hp hb => ?_⟩
  · have he := h.other p hp
    rw [h'.other p (by rwa [he]), he]
  · rw [h'.dead p _ x (h.dead p b x hp hb) hb, own_own, List.count_append]
    push_cast
    rw [neg_add]

/-- One share of one deleted object. -/
theorem one {p : ℕ} {b : IFromDB} {x : Fields} (hp : w.heap.get p = some ⟨some b, x⟩) (hb : b.isExist = false) :
    Lowered w [p] (w.put p ⟨some (b.own (-1)), x⟩) := by
  refine ⟨rfl, rfl, fun q hq => ?_, fun q c y hq hc => ?_⟩
  · have hne : q ≠ p := by
      rintro rfl
      rw [hq b x hp] at hb
      cases hb
    rw [Lib.Conf.get_put hp, if_neg hne]
  · rw [Lib.Conf.get_put hp]
    by_cases he : q = p
    · subst he
      cases hp.symm.trans hq
      simp
    · rw [if_neg he, hq, List.count_singleton, if_neg (by simpa using Ne.symm he), Nat.cast_zero, neg_zero, own_zero]

/-- An object that exists is not counted. -/
theorem cons_live {p : ℕ} {b : IFromDB} {x : Fields} {ps : List ℕ} (hp : w.heap.get p = some ⟨some b, x⟩)
    (hb : b.isExist = true) (h : Lowered w ps w') : Lowered w (p :: ps) w' := by
  refine ⟨h.env, h.cash, h.other, fun q c y hq hc => ?_⟩
  have hne : p ≠ q := by
    rintro rfl
    cases hp.symm.trans hq
    rw [hb] at hc
    cases hc
  rw [h.dead q c y hq hc, List.count_cons_of_ne hne]

/-- No flag and no id changes. -/
theorem hits {ps : List ℕ} (h : Lowered w ps w') : w'.hits = w.hits := by
  have hget : ∀ p, (w'.heap.get p = w.heap.get p) ∨ ∃ b x n, w.heap.get p = some ⟨some b, x⟩ ∧
      w'.heap.get p = some ⟨some (b.own n), x⟩ := by
    intro p
    by_cases hp : ∀ b x, w.heap.get p = some ⟨some b, x⟩ → b.isExist = true
    · exact .inl (h.other p hp)
    · push Not at hp
      obtain ⟨b, x, hg, hb⟩ := hp
      exact .inr ⟨b, x, _, hg, h.dead p b x hg (by simpa using hb)⟩
  funext i p
  rcases hget p with he | ⟨b, x, n, hg, hg'⟩
  · simp [Lib.Conf.hits, Lib.Conf.exists?, Lib.Conf.idOf, he]
  · simp [Lib.Conf.hits, Lib.Conf.exists?, Lib.Conf.idOf, hg, hg', IFromDB.own]

theorem passed {ps : List ℕ} (h : Lowered w ps w') : w'.passed = w.passed := by
  funext k oid
  rw [Lib.Conf.passed, Lib.Conf.passed, h.cash, h.hits]

theorem held {ps : List ℕ} (h : Lowered w ps w') (hl : w.Held l) : w'.Held l := by
  intro p hp
  obtain ⟨b, x, hg⟩ := hl p hp
  by_cases hb : b.isExist = true
  · refine ⟨b, x, ?_⟩
    rw [h.other p fun c y hc => ?_, hg]
    cases hg.symm.trans hc
    exact hb
  · exact ⟨_, _, h.dead p b x hg (by simpa using hb)⟩

end Lowered

/-! ### The loop -/

/-- One step of the loop: a deleted object gives a share, and must keep another one. -/
theorem run_scan_cons_iff {p : ℕ} {b : IFromDB} {x : Fields} (hp : w.heap.get p = some ⟨some b, x⟩) :
    run (Controller.scan k oid (p :: l)) w = .ok (r, w') ↔
      if b.isExist = false then
        b.ownedCount ≠ 1 ∧ run (Controller.scan k oid l) (w.put p ⟨some (b.own (-1)), x⟩) = .ok (r, w')
      else if b.id = oid then some p = r ∧ w = w'
      else run (Controller.scan k oid l) w = .ok (r, w') := by
  have hh : header w.heap p = .ok b := header_eq_ok.mpr ⟨x, hp⟩
  have hone : ∀ {w : World} {b : IFromDB} {P : IFromDB → World → Prop}, header w.heap p = .ok b →
      ((∃ c v, (header w.heap p = .ok c ∧ w = v) ∧ P c v) ↔ P b w) := by
    intro w b P hh
    constructor
    · rintro ⟨c, _, ⟨hc, rfl⟩, hP⟩
      obtain rfl := Except.ok.inj (hh.symm.trans hc)
      exact hP
    · exact fun hP => ⟨b, w, ⟨hh, rfl⟩, hP⟩
  simp only [Controller.scan, run_bind_iff, run_fromDB_iff]
  rw [hone hh]
  split_ifs with hb hid
  · simp only [run_bind_iff, run_own_iff, run_fromDB_iff]
    have hput : header (w.put p ⟨some (b.own (-1)), x⟩).heap p = .ok (b.own (-1)) :=
      header_eq_ok.mpr ⟨x, by rw [Lib.Conf.get_put hp, if_pos rfl]⟩
    have hown : ∀ {P : World → Prop}, (∃ (_ : Unit) (v : World), (∃ c y, w.heap.get p = some ⟨some c, y⟩ ∧
        w.put p ⟨some (c.own (-1)), y⟩ = v) ∧ P v) ↔ P (w.put p ⟨some (b.own (-1)), x⟩) := by
      intro P
      constructor
      · rintro ⟨-, _, ⟨c, y, hc, rfl⟩, hP⟩
        cases hp.symm.trans hc
        exact hP
      · exact fun hP => ⟨⟨⟩, _, ⟨b, x, hp, rfl⟩, hP⟩
    rw [hown, hone hput]
    split_ifs with hc
    · have h1 : b.ownedCount = 1 := by simp only [IFromDB.own] at hc; omega
      simp [h1, run_bind_iff, run_fault_iff]
    · have h1 : b.ownedCount ≠ 1 := fun h1 => hc (by simp [IFromDB.own, h1])
      simp [h1]
  · exact run_pure_iff _
  · exact Iff.rfl

/-- A loop that ends has taken a share of each deleted object it passed, none of which had a single one. -/
theorem run_scan (hl : w.Held l) (h : run (Controller.scan k oid l) w = .ok (r, w')) :
    r = l.find? (w.hits oid) ∧ Lowered w (l.takeWhile fun p => !w.hits oid p) w' ∧
      ∀ p ∈ l.takeWhile fun p => !w.hits oid p, ∀ b x, w.heap.get p = some ⟨some b, x⟩ → b.isExist = false →
        b.ownedCount ≠ 1 := by
  induction l generalizing w with
  | nil =>
    obtain ⟨rfl, rfl⟩ := (run_pure_iff _).mp h
    exact ⟨rfl, .refl w, by simp⟩
  | cons p l ih =>
    obtain ⟨b, x, hp⟩ := hl p (by simp)
    have hl' : w.Held l := fun q hq => hl q (by simp [hq])
    rw [run_scan_cons_iff hp] at h
    split_ifs at h with hb hid
    · obtain ⟨hone, h⟩ := h
      have h₁ := Lowered.one hp hb
      have hn : w.hits oid p = false := by simp [Lib.Conf.hits, exists?_of_get hp, hb]
      obtain ⟨rfl, hL, hc⟩ := ih (h₁.held hl') h
      rw [h₁.hits] at hL hc
      refine ⟨by rw [h₁.hits, List.find?_cons_of_neg (by simp [hn])], ?_, ?_⟩
      · rw [List.takeWhile_cons_of_pos (by simp [hn])]
        exact h₁.trans hL
      · rw [List.takeWhile_cons_of_pos (by simp [hn]), List.forall_mem_cons]
        refine ⟨fun c y hc _ => ?_, fun q hq c y hc' hd => ?_⟩
        · cases hp.symm.trans hc
          exact hone
        · by_cases he : q = p
          · subst he
            cases hp.symm.trans hc'
            exact hone
          · exact hc q hq c y (by rw [Lib.Conf.get_put hp, if_neg he, hc']) hd
    · obtain ⟨rfl, rfl⟩ := h
      have hy : w.hits oid p = true := by
        simp [Lib.Conf.hits, exists?_of_get hp, Bool.not_eq_false _ ▸ hb, Lib.Conf.idOf_of_get hp, hid]
      rw [List.find?_cons_of_pos hy, List.takeWhile_cons_of_neg (by simp [hy])]
      exact ⟨rfl, .refl w, by simp⟩
    · have hn : w.hits oid p = false := by simp [Lib.Conf.hits, Lib.Conf.idOf_of_get hp, hid]
      obtain ⟨rfl, hL, hc⟩ := ih hl' h
      rw [List.find?_cons_of_neg (by simp [hn]), List.takeWhile_cons_of_pos (by simp [hn]), List.forall_mem_cons]
      refine ⟨rfl, hL.cons_live hp (by simpa using hb), fun c y hc' hd => ?_, hc⟩
      cases hp.symm.trans hc'
      exact absurd hd hb

/-- A loop that passes each deleted object at most once, and none that has a single share, ends. -/
theorem exists_run_scan (hl : w.Held l) (hc : ∀ p ∈ l.takeWhile fun p => !w.hits oid p, ∀ b x,
      w.heap.get p = some ⟨some b, x⟩ → b.isExist = false →
        (l.takeWhile fun p => !w.hits oid p).count p ≤ 1 ∧ b.ownedCount ≠ 1) :
    ∃ r w', run (Controller.scan k oid l) w = .ok (r, w') := by
  induction l generalizing w with
  | nil => exact ⟨none, w, (run_pure_iff _).mpr ⟨rfl, rfl⟩⟩
  | cons p l ih =>
    obtain ⟨b, x, hp⟩ := hl p (by simp)
    have hl' : w.Held l := fun q hq => hl q (by simp [hq])
    simp only [run_scan_cons_iff hp]
    split_ifs with hb hid
    · have h₁ := Lowered.one hp hb
      have hn : w.hits oid p = false := by simp [Lib.Conf.hits, exists?_of_get hp, hb]
      rw [List.takeWhile_cons_of_pos (by simp [hn])] at hc
      obtain ⟨hcount, hone⟩ := hc p (by simp) b x hp hb
      obtain ⟨r, w', hrun⟩ := ih (w := w.put p ⟨some (b.own (-1)), x⟩) (h₁.held hl') (by
        rw [h₁.hits]
        intro q hq c y hq' hd
        have hne : q ≠ p := by
          rintro rfl
          rw [List.count_cons_self] at hcount
          have := List.count_pos_iff.mpr hq
          omega
        rw [Lib.Conf.get_put hp, if_neg hne] at hq'
        have := hc q (List.mem_cons_of_mem _ hq) c y hq' hd
        rwa [List.count_cons_of_ne (Ne.symm hne)] at this)
      exact ⟨r, w', hone, hrun⟩
    · exact ⟨_, _, rfl, rfl⟩
    · have hn : w.hits oid p = false := by simp [Lib.Conf.hits, Lib.Conf.idOf_of_get hp, hid]
      rw [List.takeWhile_cons_of_pos (by simp [hn])] at hc
      refine ih hl' fun q hq c y hq' hd => ?_
      obtain ⟨hcount, hone⟩ := hc q (List.mem_cons_of_mem _ hq) c y hq' hd
      exact ⟨(List.count_le_count_cons).trans hcount, hone⟩

/-! ### Sequences of look-ups -/

/-- At most one entry that exists has an id. -/
def Lib.Conf.OneLive (w : World) (k : Kind) : Prop :=
  ∀ i, ∀ p ∈ w.cash k, ∀ q ∈ w.cash k, w.hits i p = true → w.hits i q = true → p = q

/-- A deleted object without shares. -/
def Lib.Conf.Spent (w : World) (p : ℕ) : Prop :=
  ∃ b x, w.heap.get p = some ⟨some b, x⟩ ∧ b.isExist = false ∧ b.ownedCount = 0

/-- What a look-up should do: it finds the entry that exists and has the id, leaves what exists alone, and takes a share
of each deleted object it passes, which goes when that was the last one. -/
structure LookedUp (w : World) (k : Kind) (oid : Oid) (r : Option ℕ) (w' : World) : Prop where
  found : ∀ p, r = some p ↔ p ∈ w.cash k ∧ w.hits oid p = true
  live : ∀ p, w.Alive p → w'.heap.get p = w.heap.get p
  dead : ∀ p ∈ w.cash k, ∀ b x, w.heap.get p = some ⟨some b, x⟩ → b.isExist = false →
    w'.heap.get p = some ⟨some (b.own (-((w.passed k oid).count p : ℤ))), x⟩
  unlinked : ∀ p, p ∈ w'.cash k ↔ p ∈ w.cash k ∧ ¬ (p ∈ w.passed k oid ∧ w'.Spent p)

/-- A look-up that ends and does what it should. -/
def LookUp (k : Kind) (oid : Oid) (w w' : World) : Prop :=
  ∃ r, run (Controller.isAlredyInCash k oid) w = .ok (r, w') ∧ LookedUp w k oid r w'

/-- Look-ups one after the other all end and do what they should, and together take at most one share of a deleted
object. -/
def SoundLookUps (w : World) (k : Kind) (oids : List Oid) : Prop :=
  ∃ w', Lib.Run (LookUp k) Lib.Free w oids w' ∧ ∀ p ∈ w.cash k, ∀ b x, w.heap.get p = some ⟨some b, x⟩ →
    b.isExist = false → ∃ n : ℕ, n ≤ 1 ∧ w'.heap.get p = some ⟨some (b.own (-(n : ℤ))), x⟩

theorem run_isAlredyInCash {r : Option ℕ} :
    run (Controller.isAlredyInCash k oid) w = .ok (r, w') ↔ run (Controller.scan k oid (w.cash k)) w = .ok (r, w') := by
  simp only [Controller.isAlredyInCash, run_bind_iff, run_cash_iff]
  constructor
  · rintro ⟨_, _, ⟨rfl, rfl⟩, h⟩
    exact h
  · exact fun h => ⟨_, _, ⟨rfl, rfl⟩, h⟩

/-- The entries that look-ups pass, one after the other. -/
abbrev Lib.Conf.passes (w : World) (k : Kind) (oids : List Oid) : List ℕ := oids.flatMap (w.passed k)

theorem Lib.Conf.passes_concat (w : World) (k : Kind) (oids : List Oid) (oid : Oid) :
    w.passes k (oids ++ [oid]) = w.passes k oids ++ w.passed k oid := by simp [Lib.Conf.passes]

/-- Look-ups that all end have taken a share each time they passed a deleted object, none of which had a single one. -/
theorem run_lookUps (hl : w.Held (w.cash k)) (hr : Lib.Run (LookUp k) Lib.Free w oids w') :
    Lowered w (w.passes k oids) w' ∧ ∀ p ∈ w.passes k oids, ∀ b x, w.heap.get p = some ⟨some b, x⟩ →
      b.isExist = false → b.ownedCount ≠ 1 := by
  induction hr with
  | nil => exact ⟨.refl w, by simp [Lib.Conf.passes]⟩
  | @snoc as s s' oid _ _ hs ih =>
    obtain ⟨hL, hone⟩ := ih
    obtain ⟨r, hrun, -⟩ := hs
    have hl' : s.Held (s.cash k) := by
      rw [hL.cash]
      exact hL.held hl
    obtain ⟨-, hL', hone'⟩ := run_scan hl' (run_isAlredyInCash.mp hrun)
    change Lowered s (s.passed k oid) s' at hL'
    rw [hL.passed] at hL'
    rw [Lib.Conf.passes_concat]
    refine ⟨hL.trans hL', fun p hp b x hg hb => ?_⟩
    by_cases hin : p ∈ w.passes k as
    · exact hone p hin b x hg hb
    · have hp' : p ∈ s.passed k oid := by
        rw [hL.passed]
        exact (List.mem_append.mp hp).resolve_left hin
      have hs' := hL.dead p b x hg hb
      rw [List.count_eq_zero.mpr hin, Nat.cast_zero, neg_zero, own_zero] at hs'
      exact hone' p hp' b x hs' hb

/-- A look-up that passes each deleted object at most once does what it should. -/
theorem lookedUp_of_run (hl : w.Held (w.cash k)) (hu : w.OneLive k)
    (hc : ∀ p, ¬ w.Alive p → (w.passed k oid).count p ≤ 1)
    (h : run (Controller.isAlredyInCash k oid) w = .ok (r, w')) : LookedUp w k oid r w' := by
  obtain ⟨rfl, hL, hone⟩ := run_scan hl (run_isAlredyInCash.mp h)
  refine ⟨fun p => ⟨fun hf => ⟨List.mem_of_find?_eq_some hf, List.find?_some hf⟩, fun ⟨hp, hh⟩ => ?_⟩,
    fun p hp => ?_, fun p _ => hL.dead p, fun p => ?_⟩
  · obtain ⟨q, hq⟩ := Option.isSome_iff_exists.mp (List.find?_isSome.mpr ⟨p, hp, hh⟩)
    rw [hq, hu oid q (List.mem_of_find?_eq_some hq) p hp (List.find?_some hq) hh]
  · obtain ⟨b, x, hg, hb⟩ := hp
    refine hL.other p fun c y hc' => ?_
    cases hg.symm.trans hc'
    exact hb
  · rw [hL.cash]
    refine (and_iff_left ?_).symm
    rintro ⟨hp, c, y, hg', hd, h0⟩
    obtain ⟨b, x, hg⟩ := hl p (List.takeWhile_subset _ hp)
    by_cases hb : b.isExist = true
    · rw [hL.other p fun c y hc' => by cases hg.symm.trans hc'; exact hb, hg] at hg'
      cases hg'
      rw [hb] at hd
      cases hd
    · have hb : b.isExist = false := by simpa using hb
      have hcount := hc p fun ha => by rw [alive_iff hg, hb] at ha; cases ha
      have hpos := List.count_pos_iff.mpr hp
      have hne := hone p hp b x hg hb
      rw [hL.dead p b x hg hb] at hg'
      cases hg'
      have hcount' : ((w.cash k).takeWhile fun p => !w.hits oid p).count p = 1 := by
        change (w.passed k oid).count p = 1
        omega
      simp only [IFromDB.own, hcount'] at h0
      omega

/-- Look-ups are sound exactly when they pass each deleted entry at most once in all, and none whose only share is the
cache's. -/
theorem soundLookUps_iff (hl : w.Held (w.cash k)) (hu : w.OneLive k) :
    SoundLookUps w k oids ↔ ∀ p ∈ w.cash k, ∀ b x, w.heap.get p = some ⟨some b, x⟩ → b.isExist = false →
      (w.passes k oids).count p = 0 ∨ (w.passes k oids).count p = 1 ∧ b.ownedCount ≠ 1 := by
  constructor
  · rintro ⟨w', hr, honce⟩ p hp b x hg hb
    obtain ⟨hL, hone⟩ := run_lookUps hl hr
    obtain ⟨n, hn, hg'⟩ := honce p hp b x hg hb
    rw [hL.dead p b x hg hb] at hg'
    have hcount : (w.passes k oids).count p = n := by
      simp only [Option.some.injEq, Obj.mk.injEq, IFromDB.own, IFromDB.mk.injEq, and_true] at hg'
      omega
    rcases Nat.eq_zero_or_pos n with h0 | hpos
    · exact .inl (hcount.trans h0)
    · exact .inr ⟨by omega, hone p (List.count_pos_iff.mp (by omega)) b x hg hb⟩
  · intro hc
    have hrun : ∃ w', Lib.Run (LookUp k) Lib.Free w oids w' := by
      induction oids using List.reverseRecOn with
      | nil => exact ⟨w, .nil⟩
      | append_singleton oids oid ih =>
        simp only [Lib.Conf.passes_concat, List.count_append] at hc
        obtain ⟨s, hs⟩ := ih fun p hp b x hg hb => (hc p hp b x hg hb).elim (fun h => .inl (by omega))
          fun h => if h0 : (w.passes k oids).count p = 0 then .inl h0 else .inr ⟨by omega, h.2⟩
        obtain ⟨hL, -⟩ := run_lookUps hl hs
        -- what is passed next was not passed before, if it is deleted
        have hnext : ∀ p ∈ s.cash k, ∀ b x, s.heap.get p = some ⟨some b, x⟩ → b.isExist = false →
            p ∈ s.passed k oid → (s.passed k oid).count p ≤ 1 ∧ b.ownedCount ≠ 1 := by
          intro p hp b x hg hb hin
          rw [hL.cash] at hp
          rw [hL.passed] at hin ⊢
          obtain ⟨c, y, hg₀⟩ := hl p hp
          have hd : c.isExist = false := by
            by_contra hd
            rw [hL.other p fun c' y' hc' => by cases hg₀.symm.trans hc'; simpa using hd, hg₀] at hg
            cases hg
            exact hd hb
          have hpos := List.count_pos_iff.mpr hin
          obtain ⟨h1, hne⟩ := (hc p hp c y hg₀ hd).resolve_left (by omega)
          rw [hL.dead p c y hg₀ hd, show (w.passes k oids).count p = 0 by omega, Nat.cast_zero, neg_zero,
            own_zero] at hg
          cases hg
          exact ⟨by omega, hne⟩
        have hl' : s.Held (s.cash k) := by
          rw [hL.cash]
          exact hL.held hl
        have hu' : s.OneLive k := by
          intro i p hp q hq
          rw [hL.cash] at hp hq
          rw [hL.hits]
          exact hu i p hp q hq
        obtain ⟨r, w', hrun⟩ : ∃ r w', run (Controller.scan k oid (s.cash k)) s = .ok (r, w') :=
          exists_run_scan hl' fun p hp b x hg hb => hnext p (List.takeWhile_subset _ hp) b x hg hb hp
        refine ⟨w', hs.snoc trivial ⟨r, run_isAlredyInCash.mpr hrun, lookedUp_of_run hl' hu' (fun p hp => ?_)
          (run_isAlredyInCash.mpr hrun)⟩⟩
        by_cases hin : p ∈ s.passed k oid
        · obtain ⟨b, x, hg⟩ := hl' p (List.takeWhile_subset _ hin)
          rw [alive_iff hg, Bool.not_eq_true] at hp
          exact (hnext p (List.takeWhile_subset _ hin) b x hg hp hin).1
        · rw [List.count_eq_zero.mpr hin]
          exact Nat.zero_le 1
    obtain ⟨w', hr⟩ := hrun
    obtain ⟨hL, -⟩ := run_lookUps hl hr
    refine ⟨w', hr, fun p hp b x hg hb => ⟨_, ?_, hL.dead p b x hg hb⟩⟩
    rcases hc p hp b x hg hb with h | h
    · exact h.le.trans (Nat.zero_le 1)
    · exact h.1.le

/-! ### One deleted account -/

/-- A deleted account with some shares, as the only cached one. -/
def oneDeleted (n : ℤ) : World :=
  ⟨Database.empty, ⟨Lib.Heap.empty.push ⟨some { ownedCount := n, isExist := false, doc := [], id := 0 },
    .account { login := "login", password := "password", accountType := .admin }⟩, fun _ => { cash := [0] }⟩⟩

theorem held_oneDeleted (n : ℤ) : (oneDeleted n).Held ((oneDeleted n).cash .accounts) := by
  intro p hp
  obtain rfl : p = 0 := List.mem_singleton.mp hp
  exact ⟨_, _, rfl⟩

theorem oneLive_oneDeleted (n : ℤ) : (oneDeleted n).OneLive .accounts := by
  intro i p hp q hq _ _
  rw [List.mem_singleton.mp hp, List.mem_singleton.mp hq]

/-- With a second share somewhere, one look-up is sound. -/
theorem soundLookUps_of_shared : SoundLookUps (oneDeleted 2) .accounts [1] := by
  refine (soundLookUps_iff (held_oneDeleted 2) (oneLive_oneDeleted 2)).mpr fun p hp b x hg _ => .inr ⟨?_, ?_⟩
  · obtain rfl : p = 0 := List.mem_singleton.mp hp
    rfl
  · obtain rfl : p = 0 := List.mem_singleton.mp hp
    cases hg
    decide

/-- The last share unlinks the node under the iterator. -/
theorem not_soundLookUps_always : ¬ ∀ w k oids, w.Held (w.cash k) → w.OneLive k → SoundLookUps w k oids := by
  intro hall
  obtain ⟨w', hr, -⟩ := hall _ .accounts [1] (held_oneDeleted 1) (oneLive_oneDeleted 1)
  obtain ⟨-, hone⟩ := run_lookUps (held_oneDeleted 1) hr
  exact hone 0 (by decide) _ _ rfl rfl rfl

end Cbt
