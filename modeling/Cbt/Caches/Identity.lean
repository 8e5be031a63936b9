import Mathlib.Data.List.Find
import Cbt.Effects.Getters

/-! The identity map. While no second object for a cached id is made or written,
each cache holds one object for an id, and its document is the stored one. The
loads ask the cache first, and a new id is no cached one; only the log-in makes
an object without asking, and only a write through an object that is no longer
the cached one leaves the cached document behind. -/

namespace Cbt

open Lib.Command (run_bind_iff run_pure_iff run_fault_iff run_ofExcept_iff)

/-- The caches agree with the collections. -/
structure Coherent (w : World) : Prop extends Sound w where
  ids : ∀ k, ((w.cash k).map w.idOf).Nodup
  doc : ∀ k, ∀ p ∈ w.cash k, ∀ b x, w.heap.get p = some ⟨some b, x⟩ → w.stored k b.id = some b.doc

variable {w w' : World} {k : Kind}

/-- No other cached object has the id of this one. -/
def NoTwin (w : World) (k : Kind) (p : ℕ) : Prop := ∀ q ∈ w.cash k, w.idOf q = w.idOf p → q = p

namespace Coherent

theorem eq_of_idOf (hw : Coherent w) {p q : ℕ} (hp : p ∈ w.cash k) (hq : q ∈ w.cash k)
    (h : w.idOf q = w.idOf p) : q = p := List.inj_on_of_nodup_map (hw.ids k) hq hp h

theorem noTwin (hw : Coherent w) {p : ℕ} (hp : p ∈ w.cash k) : NoTwin w k p :=
  fun _ hq h => hw.eq_of_idOf hp hq h

theorem cached_eq (hw : Coherent w) {p : ℕ} {o : Oid} (hp : p ∈ w.cash k) (ho : w.idOf p = some o) :
    w.cached k o = some p := by
  cases hc : w.cached k o with
  | none => exact absurd ho (Lib.Conf.cached_eq_none.mp hc p hp)
  | some q =>
    rw [hw.eq_of_idOf hp (Lib.Conf.cached_mem hc) ((Lib.Conf.cached_idOf hc).trans ho.symm)]

/-- A cached object has a stored document, so its id is not the next one. -/
theorem idOf_ne_nextOid (hw : Coherent w) {p : ℕ} (hp : p ∈ w.cash k) : w.idOf p ≠ some w.env.nextOid := by
  obtain ⟨b, x, hg, -, -⟩ := hw.entry k p hp
  rw [Lib.Conf.idOf_of_get hg]
  intro h
  have hs := hw.doc k p hp b x hg
  rw [Option.some.inj h] at hs
  have hn : w.stored k w.env.nextOid = none := w.env.get?_nextOid k
  simp [hn] at hs

end Coherent

theorem idOf_of_is {p : ℕ} (h : ∀ o c, w.Is p o c → w'.Is p o c) (hp : w.Alive p) : w'.idOf p = w.idOf p := by
  obtain ⟨b, x, hg, hb⟩ := hp
  have hi : w.Is p b.id x.cls := ⟨b, x, hg, hb, rfl, rfl⟩
  rw [hi.idOf, (h _ _ hi).idOf]

/-- What keeps the cached objects and their ids keeps the ids of a cache distinct. -/
theorem map_idOf (hw : Sound w) (h : ∀ p o c, w.Is p o c → w'.Is p o c) (k : Kind) :
    (w.cash k).map w'.idOf = (w.cash k).map w.idOf :=
  List.map_congr_left fun p hp => idOf_of_is (h p) (hw.live k p hp)

/-! ### Quiet steps -/

/-- An object with its stored document may be cached when its id is not cached. -/
theorem Coherent.load (hw : Coherent w) {b : IFromDB} {x : Fields} (hc : w.cached k b.id = none)
    (hs : w.stored k b.id = some b.doc) (hb : b.isExist = true) (hk : x.kind = k) :
    Coherent (w.load k ⟨some b, x⟩) := by
  have his : ∀ p o c, w.Is p o c → (w.load k ⟨some b, x⟩).Is p o c := (steady_push w ⟨some b, x⟩).is
  have hnext : (w.load k ⟨some b, x⟩).idOf w.heap.next = some b.id := by simp [Lib.Conf.idOf]
  refine ⟨hw.toSound.load hb hk, fun k' => ?_, fun k' p hp b' x' hg => ?_⟩
  · rw [Lib.Conf.cash_load]
    split_ifs with he
    · subst he
      rw [List.map_append, map_idOf hw.toSound his, List.map_singleton, hnext, List.nodup_append]
      refine ⟨hw.ids k', by simp, ?_⟩
      rintro i hi j hj rfl
      obtain rfl := List.mem_singleton.mp hj
      obtain ⟨p, hp, hpi⟩ := List.mem_map.mp hi
      exact Lib.Conf.cached_eq_none.mp hc p hp hpi
    · rw [map_idOf hw.toSound his]
      exact hw.ids k'
  · rw [Lib.Conf.stored_load]
    have hold : ∀ k', p ∈ w.cash k' → w.stored k' b'.id = some b'.doc := by
      intro k' hp
      rw [Lib.Conf.heap_load, Lib.Heap.get_push, if_neg (hw.toSound.lt_next hp).ne] at hg
      exact hw.doc k' p hp b' x' hg
    rw [Lib.Conf.cash_load] at hp
    split_ifs at hp with he
    · subst he
      rcases List.mem_append.mp hp with hp | hp
      · exact hold _ hp
      · obtain rfl := List.mem_singleton.mp hp
        obtain ⟨rfl, rfl⟩ : b = b' ∧ x = x' := by simpa using hg
        exact hs
    · exact hold _ hp

/-- The caches and the collections stay, and every object keeps its document, its id and its existence. -/
theorem Coherent.keep (hw : Coherent w) (hcash : w'.cash = w.cash) (hstored : w'.stored = w.stored)
    (hsame : ∀ {p b x}, w.heap.get p = some ⟨some b, x⟩ → b.isExist = true →
      ∃ b' x', w'.heap.get p = some ⟨some b', x'⟩ ∧ b'.core = b.core ∧ x'.cls = x.cls) : Coherent w' := by
  have his : ∀ p o c, w.Is p o c → w'.Is p o c := by
    rintro p o c ⟨b, x, hg, hb, rfl, rfl⟩
    obtain ⟨b', x', hg', hc, hx⟩ := hsame hg hb
    simp only [IFromDB.core, Prod.mk.injEq] at hc
    exact ⟨b', x', hg', by rw [hc.2.2, hb], hc.1, hx⟩
  refine ⟨.of_is (fun k p hp => ?_) fun k => by rw [hcash]; exact hw.nodup k, fun k => ?_, fun k p hp b' x' hg => ?_⟩
  · obtain ⟨o, c, h, hk⟩ := hw.toSound.is (hcash ▸ hp)
    exact ⟨o, c, his p o c h, hk⟩
  · rw [hcash, map_idOf hw.toSound his]
    exact hw.ids k
  · rw [hcash] at hp
    obtain ⟨b, x, hg₀, hb, -⟩ := hw.entry k p hp
    obtain ⟨b₁, x₁, hg₁, hc, -⟩ := hsame hg₀ hb
    obtain ⟨rfl, rfl⟩ : b₁ = b' ∧ x₁ = x' := by simpa [hg₁] using hg
    simp only [IFromDB.core, Prod.mk.injEq] at hc
    rw [hstored, hc.1, hc.2.1]
    exact hw.doc k p hp b x hg₀

theorem Micro.coherent {L : Loads} (h : Micro L w w') (hw : Coherent w) : Coherent w' := by
  have hsame : ∀ {p b x}, w.heap.get p = some ⟨some b, x⟩ → b.isExist = true →
      ∃ b' x', w'.heap.get p = some ⟨some b', x'⟩ ∧ b'.core = b.core ∧ x'.cls = x.cls := h.same
  cases h with
  | load hm hc hs hb hk hx => exact hw.load hc hs hb hk
  | put => exact hw.keep rfl rfl hsame
  | push => exact hw.keep rfl rfl hsame
  | reap => exact hw.keep rfl rfl hsame

theorem Coherent.push (hw : Coherent w) (o : Obj) : Coherent (w.push o) :=
  hw.keep rfl rfl fun hg _ => ⟨_, _, Lib.Heap.get_push_of_some _ hg, rfl, rfl⟩

theorem Quiet.coherent {L : Loads} (h : Quiet L w w') (hw : Coherent w) : Coherent w' := by
  induction h with
  | refl => exact hw
  | tail _ h ih => exact h.coherent ih

theorem Coherent.setChanged (hw : Coherent w) (b : Bool) : Coherent (w.setChanged k b) :=
  ⟨hw.toSound.setChanged b, fun k' => by rw [Lib.Conf.cash_setChanged]; exact hw.ids k',
    fun k' p hp => hw.doc k' p (by simpa using hp)⟩

/-! ### Updates -/

theorem idOf_steady (hw : Sound w) (h : Steady w w') {p : ℕ} (hp : p ∈ w.cash k) : w'.idOf p = w.idOf p :=
  idOf_of_is (h.is p) (hw.live k p hp)

/-- The condition on an update depends on the cached ids only. -/
theorem Steady.noTwin (h : Steady w w') (hw : Sound w) {p : ℕ} (hp : w'.idOf p = w.idOf p) (hn : NoTwin w k p) :
    NoTwin w' k p := by
  intro q hq hqp
  rw [h.cash] at hq
  exact hn q hq (by rw [← idOf_steady hw h hq, hqp, hp])

/-- An update of the only cached object with its id. -/
theorem Coherent.refresh (hw : Coherent w) {el : ℕ} {r : Bool} (hn : NoTwin w k el)
    (h : run (Controller.update k el) w = .ok (r, w')) : Coherent w' := by
  have hst := steady_update h
  obtain ⟨b, x, d, hd, hel, hk, hs, -, rfl⟩ := run_update_iff.mp h
  refine ⟨hst.sound hw.toSound, fun k' => ?_, fun k' p hp b' x' hg => ?_⟩
  · rw [cash_refresh, map_idOf hw.toSound hst.is]; exact hw.ids k'
  · rw [cash_refresh] at hp
    rw [heap_refresh, Lib.Heap.get_set _ hel] at hg
    rw [stored_refresh hd hs]
    split_ifs at hg with hpel
    · subst hpel
      obtain ⟨rfl, rfl⟩ : b.withDoc d = b' ∧ x = x' := by simpa using hg
      obtain ⟨b₁, x₁, h₁, -, hk₁⟩ := hw.entry k' p hp
      obtain ⟨rfl, rfl⟩ : b = b₁ ∧ x = x₁ := by simpa [hel] using h₁
      rw [if_pos ⟨hk₁.symm.trans hk, rfl⟩]; rfl
    · have hne : ¬ (k' = k ∧ b'.id = b.id) := by
        rintro ⟨rfl, hid⟩
        refine hpel (hn p hp ?_)
        rw [Lib.Conf.idOf_of_get hg, Lib.Conf.idOf_of_get hel, hid]
      rw [if_neg hne]
      exact hw.doc k' p hp b' x' hg

theorem idOf_assignStudents {c : Option IFromDB} {g : Group} {this p : ℕ}
    (h : w.heap.get this = some ⟨c, .group g⟩) (l : List ℕ) :
    (w.put this ⟨c, .group { g with students := l }⟩).idOf p = w.idOf p := by
  by_cases hp : p = this
  · subst hp; simp [Lib.Conf.idOf, Lib.Heap.get_set _ h, h]
  · simp [Lib.Conf.idOf, Lib.Heap.get_set _ h, hp]

theorem idOf_update {el p : ℕ} {r : Bool} (h : run (Controller.update k el) w = .ok (r, w')) :
    w'.idOf p = w.idOf p := by
  obtain ⟨b, x, d, hd, hel, -, -, -, rfl⟩ := run_update_iff.mp h
  by_cases hp : p = el
  · subst hp; simp [Lib.Conf.idOf, Lib.Heap.get_set _ hel, hel, IFromDB.withDoc]
  · simp [Lib.Conf.idOf, Lib.Heap.get_set _ hel, hp]

theorem idOf_setRef {f : RefField} {this p : ℕ} {v : Option ℕ} {u : Unit}
    (h : run (setRef f this v) w = .ok (u, w')) : w'.idOf p = w.idOf p := by
  have hput : ∀ {o : Obj} {v : Pointer}, w.heap.get this = some o → (w.put this (o.setRef f v)).idOf p = w.idOf p := by
    intro o v ho
    by_cases hp : p = this
    · subst hp; simp [Lib.Conf.idOf, Lib.Heap.get_set _ ho, ho]
    · simp [Lib.Conf.idOf, Lib.Heap.get_set _ ho, hp]
  cases v with
  | none =>
    obtain ⟨o, v, ho, -, rfl⟩ := run_setRef_none_iff.mp h
    exact hput ho
  | some q =>
    obtain ⟨o, v, oq, b, x, ho, -, -, -, hb, rfl⟩ := run_setRef_some_iff.mp h
    rw [← hput (v := .to q) ho]
    by_cases hp : p = q
    · subst hp
      rw [Lib.Conf.idOf, Lib.Conf.heap_put _ p, Lib.Heap.get_set _ hb, if_pos rfl, Lib.Conf.idOf, hb]
      rfl
    · rw [Lib.Conf.idOf, Lib.Conf.heap_put _ q, Lib.Heap.get_set _ hb, if_neg hp, Lib.Conf.idOf]

/-- The two updates of `addStudent` and `deleteStudent`, with the assignments between them. -/
theorem Coherent.members (hw : Coherent w) {this stud : ℕ} {c : Option IFromDB} {g : Group} {l : List ℕ}
    {v : Option ℕ} {n : ℤ} {w₂ w₃ w₄ : World} (hg : w.heap.get this = some ⟨c, .group g⟩)
    (h₂ : run (Controller.update .groups this) (w.put this ⟨c, .group { g with students := l }⟩) = .ok (true, w₂))
    (h₃ : run (setRef .group stud v) w₂ = .ok ((), w₃))
    (h₄ : run (Controller.update .infos stud) w₃ = .ok (true, w₄)) (h₅ : run (own stud n) w₄ = .ok ((), w'))
    (hng : NoTwin w .groups this) (hns : NoTwin w .infos stud) : Coherent w' := by
  have s₁ : Steady w (w.put this ⟨c, .group { g with students := l }⟩) := steady_assignStudents hg l
  have c₁ : Coherent (w.put this ⟨c, .group { g with students := l }⟩) :=
    Quiet.coherent (L := never) (quiet_assignStudents hg l) hw
  have c₂ := c₁.refresh (s₁.noTwin hw.toSound (idOf_assignStudents hg l) hng) h₂
  have c₃ := (quiet_setRef c₂.toSound h₃).coherent c₂
  have s₃ := (s₁.trans (steady_update h₂)).trans (quiet_setRef c₂.toSound h₃).steady
  have hid : w₃.idOf stud = w.idOf stud := by
    rw [idOf_setRef h₃, idOf_update h₂, idOf_assignStudents hg]
  exact (quiet_own h₅).coherent (c₃.refresh (s₃.noTwin hw.toSound hid hns) h₄)

theorem Coherent.enrolled (hw : Coherent w) {this stud : ℕ} (h : Enrolled w this stud w')
    (hng : NoTwin w .groups this) (hns : NoTwin w .infos stud) : Coherent w' := by
  obtain ⟨bs, s, c, g, w₂, w₃, w₄, hs, hg, h₂, h₃, h₄, h₅⟩ := h.steps
  exact hw.members hg h₂ h₃ h₄ h₅ hng hns

theorem Coherent.expelled (hw : Coherent w) {this stud : ℕ} (h : Expelled w this stud w')
    (hng : NoTwin w .groups this) (hns : NoTwin w .infos stud) : Coherent w' := by
  obtain ⟨bs, s, c, g, l₁, p, l₂, w₂, w₃, w₄, hs, hg, hl, -, -, h₂, h₃, h₄, h₅⟩ := h.steps
  exact hw.members hg h₂ h₃ h₄ h₅ hng hns

/-! ### Deletions and additions -/

theorem Coherent.deleted (hw : Coherent w) {oid : Oid} (h : Deleted w k oid w') : Coherent w' := by
  have hs := h.sound hw.toSound
  obtain ⟨p, b, x, db, hv, hp, rfl, hdb⟩ := h.effect
  have hcash : ∀ k' q, q ∈ ((((w.setChanged k true).dismiss p b x).setCash k
      ((w.cash k).filter (· ≠ p))).setEnv db).cash k' → q ∈ w.cash k' ∧ q ≠ p := by
    intro k' q hq
    rw [Lib.Conf.cash_setEnv, Lib.Conf.cash_setCash] at hq
    split_ifs at hq with he
    · subst he; simpa using hq
    · have hq' : q ∈ w.cash k' := by simpa using hq
      refine ⟨hq', fun hqp => he ?_⟩
      obtain ⟨b₁, x₁, h₁, -, hk₁⟩ := hw.entry k p (victim_mem hv)
      obtain ⟨b₂, x₂, h₂, -, hk₂⟩ := hw.entry k' p (hqp ▸ hq')
      obtain ⟨rfl, rfl⟩ : b₁ = b₂ ∧ x₁ = x₂ := by simpa [h₁] using h₂
      exact hk₂.symm.trans hk₁
  have hget : ∀ q, q ≠ p → ((((w.setChanged k true).dismiss p b x).setCash k
      ((w.cash k).filter (· ≠ p))).setEnv db).heap.get q = w.heap.get q := by
    intro q hq
    rw [Lib.Conf.heap_setEnv, Lib.Conf.heap_setCash, get_dismiss_of_ne _ _ _ _ (by simpa using hp) hq]
    rfl
  refine ⟨hs, fun k' => ?_, fun k' q hq b' x' hg => ?_⟩
  · have hmap : ∀ l : List ℕ, (∀ q ∈ l, q ≠ p) →
        l.map ((((w.setChanged k true).dismiss p b x).setCash k ((w.cash k).filter (· ≠ p))).setEnv db).idOf =
          l.map w.idOf :=
      fun l hl => List.map_congr_left fun q hq => by simp only [Lib.Conf.idOf, hget q (hl q hq)]
    rw [hmap _ fun q hq => (hcash k' q hq).2]
    rw [Lib.Conf.cash_setEnv, Lib.Conf.cash_setCash]
    split_ifs
    · exact ((hw.ids k).sublist (List.filter_sublist.map _))
    · simpa using hw.ids k'
  · obtain ⟨hq', hqp⟩ := hcash k' q hq
    rw [hget q hqp] at hg
    rw [Lib.Conf.stored_setEnv, hdb, if_neg]
    · exact hw.doc k' q hq' b' x' hg
    · rintro ⟨rfl, hid⟩
      have hoid : w.idOf q = some oid := by rw [Lib.Conf.idOf_of_get hg, hid]
      rw [Lib.Conf.victim, hw.cached_eq hq' hoid] at hv
      exact hqp (by simpa using hv)

theorem Coherent.post (hw : Coherent w) {e : ℕ} {x : Fields} (he : w.heap.get e = some ⟨none, x⟩) (d : Doc) :
    Coherent (w.post k e d) := by
  have hfree : Coherent (w.free e) := hw.keep rfl rfl fun hg hb =>
    ⟨_, _, get_free_of_alive (not_alive_of_plain he) hg hb, rfl, rfl⟩
  have hc := hfree.setChanged (k := k) true
  refine ⟨hw.toSound.post he d, fun k' => ?_, fun k' p hp b' x' hg => ?_⟩
  · have hi := hc.ids k'
    rw [Lib.Conf.cash_setChanged] at hi
    rw [cash_post]
    exact hi
  · rw [cash_post] at hp
    have hs := hc.doc k' p (by simpa using hp) b' x' hg
    rw [stored_post, if_neg]
    · simpa using hs
    · rintro ⟨rfl, hid⟩
      have hn : w.stored k' w.env.nextOid = none := w.env.get?_nextOid k'
      rw [hid] at hs
      simp [hn] at hs

/-- A new id is no cached one. -/
theorem Coherent.idOf_post_ne (hw : Coherent w) {e p : ℕ} {x : Fields} (he : w.heap.get e = some ⟨none, x⟩) (d : Doc)
    {k' : Kind} (hp : p ∈ w.cash k') : (w.post k e d).idOf p ≠ some w.env.nextOid := by
  have hpe : p ≠ e := by
    rintro rfl
    obtain ⟨b, x', hg, -⟩ := hw.entry k' p hp
    simp [he] at hg
  have : (w.post k e d).idOf p = w.idOf p := by simp [Lib.Conf.idOf, Lib.Heap.get_free, hpe]
  rw [this]
  exact hw.idOf_ne_nextOid hp

/-- An object outside the cache that the cache could take. -/
structure Filed (w : World) (k : Kind) (p : ℕ) : Prop where
  obj : ∃ b x, w.heap.get p = some ⟨some b, x⟩ ∧ b.isExist = true ∧ x.kind = k ∧ w.stored k b.id = some b.doc
  id : ∀ q ∈ w.cash k, w.idOf q ≠ w.idOf p

theorem Filed.noTwin {p : ℕ} (h : Filed w k p) : NoTwin w k p := fun q hq he => absurd he (h.id q hq)

theorem Filed.quiet {L : Loads} {p : ℕ} (h : Filed w k p) (hw : Sound w) (hq : Quiet L w w')
    (hk : ∀ o, ¬ L k o) : Filed w' k p := by
  obtain ⟨b, x, hg, hb, rfl, hs⟩ := h.obj
  obtain ⟨b', x', hg', hc, hx⟩ := hq.same hg hb
  simp only [IFromDB.core, Prod.mk.injEq] at hc
  refine ⟨⟨b', x', hg', by rw [hc.2.2, hb], Fields.kind_of_cls hx, ?_⟩, fun q hq' => ?_⟩
  · rw [hq.stored, hc.1, hc.2.1, hs]
  · rw [hq.cash_eq hk] at hq'
    rw [idOf_of_is (fun o c => hq.is) (hw.live _ q hq'), idOf_of_is (fun o c => hq.is) ⟨b, x, hg, hb⟩]
    exact h.id q hq'

/-- An update of the object itself, or of an object of another controller. -/
theorem Filed.refresh {p el : ℕ} {k' : Kind} {r : Bool} (h : Filed w k p)
    (hu : run (Controller.update k' el) w = .ok (r, w')) (he : k' = k → el = p) : Filed w' k p := by
  obtain ⟨b, x, hg, hb, rfl, hs⟩ := h.obj
  have hid := fun q => idOf_update (p := q) hu
  have hcash := (steady_update hu).cash
  obtain ⟨b₁, x₁, d, hd, hel, hk, hs₁, -, rfl⟩ := run_update_iff.mp hu
  refine ⟨?_, fun q hq => ?_⟩
  · by_cases hp : p = el
    · subst hp
      obtain ⟨rfl, rfl⟩ : b = b₁ ∧ x = x₁ := by simpa [hg] using hel
      refine ⟨b.withDoc d, x, by simp [Lib.Heap.get_set _ hg], hb, rfl, ?_⟩
      rw [stored_refresh hd hs₁, if_pos ⟨hk, rfl⟩]; rfl
    · have hk' : ¬ (x.kind = k' ∧ b.id = b₁.id) := fun hc => hp (he hc.1.symm).symm
      refine ⟨b, x, by simp [Lib.Heap.get_set _ hel, hp, hg], hb, rfl, ?_⟩
      rw [stored_refresh hd hs₁, if_neg hk', hs]
  · rw [hcash] at hq
    rw [hid, hid]
    exact h.id q hq

/-- The last steps of `InfosController::Add`. -/
theorem Coherent.attached (hw : Coherent w) {acc res : ℕ} (h : Attached w acc res w') (hacc : acc ∈ w.cash .accounts)
    (hres : Filed w .infos res) : Coherent w' := by
  obtain ⟨w₁, w₂, h₁, h₂, h₃⟩ := h.steps
  have q₁ := quiet_setRef hw.toSound h₁
  have c₁ := q₁.coherent hw
  have c₂ := c₁.refresh (c₁.noTwin (q₁.mem_cash hacc)) h₂
  have f₂ := (hres.quiet hw.toSound q₁ fun _ => id).refresh h₂ (by simp)
  obtain ⟨b, x, hg, hb, hk, hs⟩ := f₂.obj
  refine (quiet_own h₃).coherent ⟨?_, fun k' => ?_, fun k' p hp b' x' hg' => ?_⟩
  · refine c₂.toSound.cache ⟨b, x, hg, hb, rfl, rfl⟩ (by simpa using hk) fun hin => ?_
    exact f₂.id res hin rfl
  · rw [Lib.Conf.cash_setCash]
    change ((if k' = .infos then w₂.cash .infos ++ [res] else w₂.cash k').map w₂.idOf).Nodup
    split_ifs with he
    · subst he
      rw [List.map_append, List.nodup_append]
      refine ⟨c₂.ids .infos, by simp, ?_⟩
      rintro i hi j hj rfl
      obtain ⟨q, hq, rfl⟩ := List.mem_map.mp hi
      exact f₂.id q hq (by simpa using hj)
    · exact c₂.ids k'
  · rw [Lib.Conf.cash_setCash] at hp
    change w₂.stored k' b'.id = some b'.doc
    split_ifs at hp with he
    · subst he
      rcases List.mem_append.mp hp with hp | hp
      · exact c₂.doc .infos p hp b' x' hg'
      · obtain rfl := List.mem_singleton.mp hp
        obtain ⟨rfl, rfl⟩ : b = b' ∧ x = x' := by
          have hg' : w₂.heap.get p = some ⟨some b', x'⟩ := hg'
          simpa [hg] using hg'
        exact hs
    · exact c₂.doc k' p hp b' x' hg'

/-- What a look-up yields is cached. -/
theorem Looked.mem {oid : Oid} {c? : Option DBClass} {p : ℕ} (h : Looked w k oid c? (some p) w') :
    p ∈ w'.cash k := by
  cases h with
  | hit hc => exact Lib.Conf.cached_mem hc
  | loaded => simp [Lib.Conf.cash_load]

/-- What a getter yields for a null pointer is cached. -/
theorem GotBy.mem_of_null {g : Getter} {this p : ℕ} (h : GotBy w g this (some p) w')
    (hn : w.refOf this g.field = some .null) : p ∈ w'.cash g.kind ∧ w'.refOf this g.field = some (.to p) := by
  cases h with
  | settled ho hv hs => simp [refOf_of_get ho, hv] at hn
  | loaded ho hn hv hl hp hc h₁ =>
    refine ⟨hl.mem, ?_⟩
    rename_i b x oid o₁ o₂ w₁
    have hx : o₁ = ⟨some b, x⟩ := Option.some.inj (h₁.symm.trans (hl.get ho))
    subst hx
    simp [Lib.Conf.refOf, Lib.Heap.get_set _ h₁, Fields.ref_setRef hn]

/-- The group that takes a new student is cached. -/
theorem Coherent.grouped (hw : Coherent w) {temp : ℕ} (h : Grouped w temp w')
    (hn : w.refOf temp .group = some .null) (ht : Filed w .infos temp) :
    Coherent w' ∧ Filed w' .infos temp ∧ ∀ p ∈ w.cash .accounts, p ∈ w'.cash .accounts := by
  cases h with
  | none h =>
    have q := quiet_getGroup hw.toSound h
    exact ⟨q.coherent hw, ht.quiet hw.toSound q (by simp), fun p hp => q.mem_cash hp⟩
  | some h h' he =>
    rename_i q g w₁ w₂
    have q₁ := quiet_getGroup hw.toSound h
    have c₁ := q₁.coherent hw
    obtain ⟨hmem, href⟩ := (run_getter (g := .getStudentGroup) hw.toSound h).mem_of_null hn
    obtain ⟨hgq, rfl⟩ := (run_getter (g := .getStudentGroup) c₁.toSound h').of_to href (c₁.live _ q hmem)
    obtain rfl := Option.some.inj hgq
    have f₁ := ht.quiet hw.toSound q₁ (by simp)
    have s := he.steady c₁.toSound
    have c₂ := c₁.enrolled he (c₁.noTwin hmem) f₁.noTwin
    refine ⟨c₂, ?_, fun p hp => by rw [s.cash]; exact q₁.mem_cash hp⟩
    obtain ⟨bs, st, c, gr, w₃, w₄, w₅, hs, hg, h₃, h₄, h₅, h₆⟩ := he.steps
    have qa : Quiet never w₂ _ := quiet_assignStudents hg (gr.students ++ [temp])
    have fa := f₁.quiet c₁.toSound qa fun _ => id
    have sa := (steady_assignStudents hg (gr.students ++ [temp])).sound c₁.toSound
    have f₃ := fa.refresh h₃ (by simp)
    have s₃ := (steady_update h₃).sound sa
    have f₄ := f₃.quiet s₃ (quiet_setRef s₃ h₄) fun _ => id
    have s₄ := (quiet_setRef s₃ h₄).sound s₃
    have f₅ := f₄.refresh h₅ fun _ => rfl
    exact f₅.quiet ((steady_update h₅).sound s₄) (quiet_own h₆) fun _ => id

/-- A new student has no group in memory. -/
theorem refOf_ofDoc {d : Doc} {o : Obj} {f : RefField} (ho : DBClass.studentInfoDB.ofDoc d = .ok o)
    (hf : f = .group ∨ f = .owner) : (w.push o).refOf w.heap.next f = some .null := by
  obtain ⟨x, i, hx, -, rfl⟩ := ofDoc_eq_ok.mp ho
  simp only [DBClass.fields, bind, Except.bind, pure, Except.pure] at hx
  repeat' split at hx
  all_goals cases hx
  rcases hf with rfl | rfl <;> simp [Lib.Conf.refOf, Fields.ref]

theorem refOf_ofDoc_teacher {d : Doc} {o : Obj} (ho : DBClass.teacherInfoDB.ofDoc d = .ok o) :
    (w.push o).refOf w.heap.next .owner = some .null := by
  obtain ⟨x, i, hx, -, rfl⟩ := ofDoc_eq_ok.mp ho
  simp only [DBClass.fields, bind, Except.bind, pure, Except.pure] at hx
  repeat' split at hx
  all_goals cases hx
  simp [Lib.Conf.refOf, Fields.ref]

theorem filed_push {c : DBClass} {d : Doc} {o : Obj} {id : Oid} (hw : Coherent w)
    (hs : w.stored k id = some d) (ho : c.ofDoc d = .ok o) (hk : c.kind = k) (hid : ∀ q ∈ w.cash k, w.idOf q ≠ some id) :
    Filed (w.push o) k w.heap.next := by
  obtain ⟨x, rfl, rfl⟩ := ofDoc_stored hs ho
  refine ⟨⟨{ doc := d, id := id }, x, by simp, rfl, by simpa using hk, hs⟩, fun q hq => ?_⟩
  have hq : q ∈ w.cash k := hq
  have h₁ : (w.push ⟨some { doc := d, id := id }, x⟩).idOf w.heap.next = some id := by simp [Lib.Conf.idOf]
  have h₂ : (w.push ⟨some { doc := d, id := id }, x⟩).idOf q = w.idOf q := by
    simp [Lib.Conf.idOf, Lib.Heap.get_push, (hw.toSound.lt_next hq).ne]
  rw [h₁, h₂]
  exact hid q hq

theorem Coherent.infoAdded (hw : Coherent w) {id : Oid} {t : AccountType} {r : Option ℕ}
    (h : InfoAdded w id t r w') (hid : ∀ q ∈ w.cash .infos, w.idOf q ≠ some id) : Coherent w' := by
  have hpush : ∀ o, Coherent (w.push o) := fun o => hw.push o
  cases h with
  | admin => exact hw
  | student hs ho hg he ha =>
    rename_i d o acc w₁ w₂
    have q₁ := quiet_getOwner (g := .getStudentOwner) rfl (hpush o).toSound hg
    have got := run_getter (g := .getStudentOwner) (hpush o).toSound hg
    obtain ⟨hacc, -⟩ := got.mem_of_null (refOf_ofDoc ho (.inr rfl))
    have f₁ := (filed_push hw hs ho rfl hid).quiet (hpush o).toSound q₁ (by simp)
    have hn : w₁.refOf w.heap.next .group = some .null := by
      rw [got.refOf (push_is hs ho).alive (.inr (by simp [Getter.field]))]
      exact refOf_ofDoc ho (.inl rfl)
    obtain ⟨c₂, f₂, hcash⟩ := (q₁.coherent (hpush o)).grouped he hn f₁
    exact c₂.attached ha (hcash acc hacc) f₂
  | teacher hs ho hg ha =>
    rename_i d o acc w₁
    have q₁ := quiet_getOwner (g := .getTeacherOwner) rfl (hpush o).toSound hg
    obtain ⟨hacc, -⟩ := (run_getter (g := .getTeacherOwner) (hpush o).toSound hg).mem_of_null (refOf_ofDoc_teacher ho)
    have f₁ := (filed_push hw hs ho rfl hid).quiet (hpush o).toSound q₁ (by simp)
    exact (q₁.coherent (hpush o)).attached ha hacc f₁

/-! ### Every run -/

/-- The students of the group object at an address. -/
def Lib.Conf.students (w : World) (p : ℕ) : List ℕ :=
  match w.heap.get p with
  | some ⟨_, .group g⟩ => g.students
  | _ => []

/-- The states in which an action makes and writes no second object: a log-in finds its account uncached, and what
is updated has no other cached object with its id. -/
def Action.single (a : Action) (w : World) : Prop :=
  match a with
  | .findFullAccount l => ∀ d o, w.account? l = some d → d.get? "_id" = some (.oid o) → w.cached .accounts o = none
  | .update k el => NoTwin w k el
  | .addStudent this stud => NoTwin w .groups this ∧ NoTwin w .infos stud
  | .deleteStudent this stud =>
    (∃ p ∈ w.students this, w.idOf p = w.idOf stud) → NoTwin w .groups this ∧ NoTwin w .infos stud
  | _ => True

theorem mem_docs_of_stored {o : Oid} {d : Doc} (h : w.stored k o = some d) : d ∈ (w.env.coll k).docs :=
  Collection.mem_docs.mpr ⟨o, h⟩

theorem account?_stored {l : LogPass} {d : Doc} {o : Oid} (h : w.account? l = some d)
    (ho : d.get? "_id" = some (.oid o)) : w.stored .accounts o = some d :=
  Collection.get?_of_mem (List.mem_of_find?_eq_some h) ho

theorem Coherent.added (hw : Coherent w) {e : ℕ} {x : Fields} {d : Doc} {o : Obj}
    (he : w.heap.get e = some ⟨none, x⟩) (ho : k.dbClass.ofDoc (Collection.withId w.env.nextOid d) = .ok o) :
    Coherent ((w.post k e d).load k (o.own 1)) := by
  obtain ⟨y, hy, rfl⟩ := ofDoc_stored (stored_post_new (w := w) (k := k) (e := e)) ho
  refine (hw.post he d).load ?_ stored_post_new rfl (Fields.kind_of_dbClass hy)
  rw [Lib.Conf.cached_eq_none, cash_post]
  exact fun p hp => hw.idOf_post_ne he d hp

theorem Expelled.found {this stud : ℕ} (h : Expelled w this stud w') :
    ∃ p ∈ w.students this, w.idOf p = w.idOf stud := by
  obtain ⟨bs, s, c, g, l₁, p, l₂, -, -, -, hs, hg, hl, -, hp, -⟩ := h.steps
  refine ⟨p, ?_, by rw [hp, Lib.Conf.idOf_of_get hs]⟩
  simp [Lib.Conf.students, hg, hl]

theorem Outcome.coherent {a : Action} (h : Outcome w a w') (hw : Coherent w) (hg : a.single w) : Coherent w' := by
  cases h with
  | quiet h => exact h.coherent hw
  | listed hc hl hq => exact (hq.coherent hw).setChanged false
  | loggedIn hd ho =>
    obtain ⟨x, i, hx, hi, rfl⟩ := ofDoc_eq_ok.mp ho
    exact hw.load (hg _ _ hd hi) (account?_stored hd hi) rfl
      (Fields.kind_of_dbClass (k := .accounts) (DBClass.cls_fields hx))
  | added hk he hx hd ho => exact hw.added he ho
  | infoAdded he hx hd h =>
    refine (hw.post he _).infoAdded h fun p hp => ?_
    rw [cash_post] at hp
    exact hw.idOf_post_ne he _ hp
  | deleted h => exact hw.deleted h
  | updated h => exact hw.refresh hg h
  | enrolled h => exact hw.enrolled h hg.1 hg.2
  | expelled h => exact hw.expelled h (hg h.found).1 (hg h.found).2

theorem coherent_start (db : Database) : Coherent (World.start db) :=
  ⟨sound_start db, by simp [World.start, Process.init, Lib.Conf.cash],
    by simp [World.start, Process.init, Lib.Conf.cash]⟩

/-- The caches agree with the collections after every run that makes and writes no second object. -/
theorem coherent_of_run {db : Database} {as : List Action} (hr : Lib.Run Action.Step Action.single (World.start db) as w) :
    Coherent w :=
  hr.invariant (coherent_start db) fun a _ _ hw hg hs => (outcome_of_step (a := a) hw.toSound hs).coherent hw hg

/-! ### Repeated look-ups -/

/-- Cached objects stay cached, with their ids. -/
def Grows (w w' : World) : Prop :=
  (∀ k, ∀ p ∈ w.cash k, p ∈ w'.cash k) ∧ ∀ p o c, w.Is p o c → w'.Is p o c

theorem Grows.trans {w₁ w₂ w₃ : World} (h : Grows w₁ w₂) (h' : Grows w₂ w₃) : Grows w₁ w₃ :=
  ⟨fun k p hp => h'.1 k p (h.1 k p hp), fun p o c hp => h'.2 p o c (h.2 p o c hp)⟩

theorem Quiet.grows {L : Loads} (h : Quiet L w w') : Grows w w' :=
  ⟨fun _ _ hp => h.mem_cash hp, fun _ _ _ hp => h.is hp⟩

theorem Steady.grows (h : Steady w w') : Grows w w' := ⟨fun _ _ hp => by rwa [h.cash], h.is⟩

theorem grows_post {e : ℕ} {x : Fields} (he : w.heap.get e = some ⟨none, x⟩) (d : Doc) : Grows w (w.post k e d) := by
  refine ⟨fun k' p hp => by simpa using hp, fun p o c hp => ?_⟩
  obtain ⟨b, x', hg, h⟩ := (steady_free (not_alive_of_plain he)).is p o c hp
  exact ⟨b, x', hg, h⟩

theorem grows_load (w : World) (k : Kind) (o : Obj) : Grows w (w.load k o) := by
  refine ⟨fun k' p hp => ?_, ?_⟩
  · rw [Lib.Conf.cash_load]
    split_ifs with he
    · subst he; exact List.mem_append_left _ hp
    · exact hp
  · rintro p i c ⟨b, x, hg, h⟩
    exact ⟨b, x, Lib.Heap.get_push_of_some _ hg, h⟩

theorem Attached.grows {acc res : ℕ} (h : Attached w acc res w') (hw : Sound w) : Grows w w' := by
  obtain ⟨w₁, w₂, h₁, h₂, h₃⟩ := h.steps
  have hc : Grows w₂ (w₂.setCash .infos (w₂.cash .infos ++ [res])) := by
    refine ⟨fun k' p hp => ?_, fun _ _ _ hp => hp⟩
    rw [Lib.Conf.cash_setCash]
    split_ifs with he
    · subst he; exact List.mem_append_left _ hp
    · exact hp
  exact ((quiet_setRef hw h₁).grows.trans (steady_update h₂).grows).trans (hc.trans (quiet_own h₃).grows)

theorem Grouped.grows {temp : ℕ} (h : Grouped w temp w') (hw : Sound w) : Grows w w' := by
  cases h with
  | none h => exact (quiet_getGroup hw h).grows
  | some h h' he =>
    have q₁ := quiet_getGroup hw h
    have q₂ := quiet_getGroup (q₁.sound hw) h'
    exact (q₁.grows.trans q₂.grows).trans (he.steady (q₂.sound (q₁.sound hw))).grows

theorem InfoAdded.grows {id : Oid} {t : AccountType} {r : Option ℕ} (h : InfoAdded w id t r w') (hw : Sound w) :
    Grows w w' := by
  have hpush : ∀ o, Grows w (w.push o) := fun o => (steady_push w o).grows
  cases h with
  | admin => exact Quiet.grows (L := never) .refl
  | student hs ho hg he ha =>
    rename_i d o acc w₁ w₂
    have q₁ := quiet_getOwner (g := .getStudentOwner) rfl (sound_push hw o) hg
    have s₁ := q₁.sound (sound_push hw o)
    have g₂ := (hpush o).trans (q₁.grows.trans (he.grows s₁))
    exact g₂.trans (ha.grows ((he.pending s₁).sound s₁))
  | teacher hs ho hg ha =>
    rename_i d o acc w₁
    have q₁ := quiet_getOwner (g := .getTeacherOwner) rfl (sound_push hw o) hg
    exact ((hpush o).trans q₁.grows).trans (ha.grows (q₁.sound (sound_push hw o)))

/-- A cache that is the same list finds the same objects. -/
theorem cached_congr (hw : Sound w) (h : Grows w w') (hc : w'.cash k = w.cash k) (o : Oid) :
    w'.cached k o = w.cached k o := by
  unfold Lib.Conf.cached
  rw [hc]
  exact List.find?_congr fun p hp => by rw [idOf_of_is (h.2 p) (hw.live k p hp)]

/-- Only `Delete` takes an object out of a cache. -/
theorem Outcome.grows {a : Action} (h : Outcome w a w') (hw : Sound w) (ha : ∀ k oid, a ≠ .delete k oid) :
    Grows w w' := by
  cases h with
  | quiet h => exact h.grows
  | listed hc hl hq => exact hq.grows.trans ⟨fun k p hp => by simpa using hp, fun _ _ _ hp => hp⟩
  | loggedIn hd ho => exact grows_load w _ _
  | added hk he hx hd ho => exact (grows_post he _).trans (grows_load _ _ _)
  | infoAdded he hx hd h => exact (grows_post he _).trans (h.grows (hw.post he _))
  | deleted h => exact absurd rfl (ha _ _)
  | updated h => exact (steady_update h).grows
  | enrolled h => exact (h.steady hw).grows
  | expelled h => exact (h.steady hw).grows

/-- A look-up that yields an object leaves it cached under its id. -/
theorem lookUp_cached {oid : Oid} {t : AccountType} {p : ℕ} (hw : Sound w)
    (h : run (getFromDB k oid t) w = .ok (some p, w')) : p ∈ w'.cash k ∧ w'.Alive p ∧ w'.idOf p = some oid := by
  have main : ∀ {c?}, Looked w k oid c? (some p) w' → p ∈ w'.cash k ∧ w'.Alive p ∧ w'.idOf p = some oid := by
    intro c? hl
    refine ⟨hl.mem, hl.alive hw rfl, ?_⟩
    cases hl with
    | hit hc => exact Lib.Conf.cached_idOf hc
    | loaded hn hs hc ho =>
      obtain ⟨x, -, rfl⟩ := ofDoc_stored hs ho
      simp [Lib.Conf.idOf, Obj.own, IFromDB.own]
  unfold getFromDB at h
  split_ifs at h with hk
  · subst hk; exact main ((run_infosGetFromDB_iff (hw.live .infos)).mp h)
  · exact main ((run_getFromDB_iff (hw.live k)).mp h)

/-- A look-up of a cached id yields the cached object. -/
theorem lookUp_of_cached {oid : Oid} {p : ℕ} (hw : Sound w) (hc : w.cached k oid = some p) (t : AccountType) :
    run (getFromDB k oid t) w = .ok (some p, w) := by
  unfold getFromDB
  split_ifs with hk
  · subst hk; exact (run_infosGetFromDB_iff (hw.live .infos)).mpr (.hit hc)
  · exact (run_getFromDB_iff (hw.live k)).mpr (.hit hc)

/-! ### The identity map -/

/-- Each cache holds at most one object for an id; each exists, with the stored document. -/
def IdentityMap (w : World) : Prop :=
  ∀ k, ((w.cash k).map w.idOf).Nodup ∧ ∀ p ∈ w.cash k, ∃ b x, w.heap.get p = some ⟨some b, x⟩ ∧
    b.isExist = true ∧ w.stored k b.id = some b.doc

theorem Coherent.identityMap (hw : Coherent w) : IdentityMap w := by
  refine fun k => ⟨hw.ids k, fun p hp => ?_⟩
  obtain ⟨b, x, hg, hb, -⟩ := hw.entry k p hp
  exact ⟨b, x, hg, hb, hw.doc k p hp b x hg⟩

/-- After every run that makes and writes no second object the caches are an identity map, and two look-ups of an
id with no `Delete` between them yield one object. -/
theorem identityMap_of_run {db : Database} {as : List Action} {w : World}
    (hr : Lib.Run Action.Step Action.single (World.start db) as w) :
    IdentityMap w ∧ ∀ k oid t p w₁, run (getFromDB k oid t) w = .ok (some p, w₁) →
      ∀ bs w₂, Lib.Run Action.Step (fun a w => a.single w ∧ ∀ k oid, a ≠ .delete k oid) w₁ bs w₂ →
        ∀ t', run (getFromDB k oid t') w₂ = .ok (some p, w₂) := by
  have hw := coherent_of_run hr
  refine ⟨hw.identityMap, fun k oid t p w₁ h₁ bs w₂ hr₂ t' => ?_⟩
  obtain ⟨hp, ha, hid⟩ := lookUp_cached hw.toSound h₁
  have hw₁ : Coherent w₁ :=
    Quiet.coherent (reads_lookUpOf (L := fun _ _ => True) trivial _ _ _ h₁ hw.toSound) hw
  have hinv : Coherent w₂ ∧ Grows w₁ w₂ := by
    refine hr₂.invariant (I := fun w => Coherent w ∧ Grows w₁ w) ⟨hw₁, Quiet.grows (L := never) .refl⟩ ?_
    rintro a s s' ⟨hs, hg⟩ ⟨hsingle, hdel⟩ hstep
    have ho := outcome_of_step hs.toSound hstep
    exact ⟨ho.coherent hs hsingle, hg.trans (ho.grows hs.toSound hdel)⟩
  obtain ⟨hw₂, hg⟩ := hinv
  refine lookUp_of_cached hw₂.toSound (hw₂.cached_eq (hg.1 k p hp) ?_) t'
  rw [idOf_of_is (hg.2 p) ha, hid]

/-- A database with one account. -/
def oneAccount : Database :=
  Database.empty.insert .accounts [("Login", .string "login"), ("Password", .string "password"),
    ("AccountType", .int32 0), ("AdditionalInfo", nullValue)]

/-- A group without students, and a student without a group. -/
def groupAndStudent : Database :=
  (Database.empty.insert .groups [("Name", .string "group"), ("Curator", nullValue), ("Members", nullValue)]).insert
    .infos [("FirstName", .string "first"), ("SecondName", .string "second"), ("Owner", nullValue), ("Curs", .int32 1),
      ("Group", nullValue)]

/-- One log-in is a run that makes no second object. -/
theorem identityMap_of_log_in : ∃ w, (w.cash .accounts).map w.idOf = [some 0] ∧ IdentityMap w := by
  have hplay : ((Action.findFullAccount ⟨"login", "password"⟩).next? (World.start oneAccount)).any
      (fun w => (w.cash .accounts).map w.idOf = [some 0]) = true := by decide
  obtain ⟨w, hw, hids⟩ := Option.any_eq_true .. |>.mp hplay
  refine ⟨w, of_decide_eq_true hids, (identityMap_of_run (.snoc .nil ?_ (Action.step_of_next? hw))).1⟩
  exact fun _ _ _ _ => rfl

/-- An account that logs in twice is cached twice. -/
theorem not_identityMap_of_every_run :
    ¬ ∀ db as w, Lib.Run Action.Step Lib.Free (World.start db) as w → IdentityMap w := by
  intro h
  have hplay : (play [.findFullAccount ⟨"login", "password"⟩, .findFullAccount ⟨"login", "password"⟩]
      (World.start oneAccount)).any (fun w => (w.cash .accounts).map w.idOf = [some 0, some 0]) = true := by decide
  obtain ⟨w, hw, hids⟩ := Option.any_eq_true .. |>.mp hplay
  have hn := (h _ _ w (run_of_play hw) .accounts).1
  rw [of_decide_eq_true hids] at hn
  simp at hn

end Cbt
