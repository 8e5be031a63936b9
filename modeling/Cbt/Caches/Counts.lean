import Cbt.Effects.Extension
import Cbt.Caches.Identity

/-! Reference counts. A world owes each object the difference between its count
and its owners: the cache that holds it and the members that point to it. Every
small step changes what is owed by a known amount, an action adds the amounts of
its steps, and the actions that leave nothing owed are those that overwrite no
pointer, fill no pointer without counting and destroy no object that still
points to another one. -/

namespace Cbt

open Lib.Command (run_bind_iff run_pure_iff run_fault_iff run_ofExcept_iff)

/-- How many members of live objects point to an address. -/
def Lib.Conf.refs (w : World) (p : ℕ) : ℤ := w.heap.sum fun o => (o.fields.refs.count p : ℤ)

/-- One for the cache of a controller that holds the address. -/
def Lib.Conf.share (w : World) (k : Kind) (p : ℕ) : ℤ := if p ∈ w.cash k then 1 else 0

/-- Each count is the number of owners and what is owed, and members point to objects that are there. -/
structure Owes (w : World) (δ : ℕ → ℤ) : Prop where
  count : ∀ p b x, w.heap.get p = some ⟨some b, x⟩ → b.ownedCount = w.share x.kind p + w.refs p + δ p
  closed : ∀ q o, w.heap.get q = some o → ∀ p ∈ o.fields.refs, ∃ b x, w.heap.get p = some ⟨some b, x⟩

variable {w w' : World} {k : Kind} {δ δ' : ℕ → ℤ}

theorem refs_nonneg (w : World) (p : ℕ) : 0 ≤ w.refs p := Lib.Heap.sum_nonneg _ fun _ => Int.natCast_nonneg _

/-- An object that points to an address is counted there. -/
theorem refs_pos {p q : ℕ} {o : Obj} (hq : w.heap.get q = some o) (hp : p ∈ o.fields.refs) : 0 < w.refs p := by
  have hle := Lib.Heap.le_sum w.heap (f := fun o => (o.fields.refs.count p : ℤ)) (fun _ => Int.natCast_nonneg _) hq
  have hc : 0 < o.fields.refs.count p := List.count_pos_iff.mpr hp
  unfold Lib.Conf.refs
  omega

namespace Owes

/-- Only what is owed to live objects matters. -/
theorem congr (h : Owes w δ) (he : ∀ q b x, w.heap.get q = some ⟨some b, x⟩ → δ q = δ' q) : Owes w δ' :=
  ⟨fun p b x hp => by rw [h.count p b x hp, he p b x hp], h.closed⟩

/-- Nothing points to an address where there is no object. -/
theorem refs_eq_zero (h : Owes w δ) {p : ℕ} (hp : ∀ b x, w.heap.get p ≠ some ⟨some b, x⟩) : w.refs p = 0 := by
  refine Lib.Heap.sum_eq_zero _ fun q o hq => ?_
  have hn : p ∉ o.fields.refs := fun hin => by
    obtain ⟨b, x, hb⟩ := h.closed q o hq p hin
    exact hp b x hb
  simpa using List.count_eq_zero.mpr hn

/-- Only the caches changed. -/
theorem of_heap (h : Owes w δ) (hh : w'.heap = w.heap)
    (hs : ∀ q b x, w.heap.get q = some ⟨some b, x⟩ → w.share x.kind q + δ q = w'.share x.kind q + δ' q) :
    Owes w' δ' := by
  refine ⟨fun p b x hp => ?_, fun q o hq => ?_⟩
  · rw [hh] at hp
    have h₁ := h.count p b x hp
    have h₂ := hs p b x hp
    have h₃ : w'.refs p = w.refs p := by unfold Lib.Conf.refs; rw [hh]
    omega
  · rw [hh] at hq ⊢
    exact h.closed q o hq

/-- Neither the heap nor the caches changed. -/
theorem of_mem (h : Owes w δ) (hh : w'.heap = w.heap) (hc : w'.cash = w.cash) : Owes w' δ :=
  h.of_heap hh fun q b x _ => by simp [Lib.Conf.share, hc]

theorem refs_put {p : ℕ} {o o' : Obj} (hp : w.heap.get p = some o) (q : ℕ) :
    (w.put p o').refs q = w.refs q - o.fields.refs.count q + o'.fields.refs.count q :=
  Lib.Heap.sum_set w.heap _ hp

/-- An object takes another count. -/
theorem recount (h : Owes w δ) {p : ℕ} {b : IFromDB} {x : Fields} (hp : w.heap.get p = some ⟨some b, x⟩) (b' : IFromDB) :
    Owes (w.put p ⟨some b', x⟩) fun q => δ q + if q = p then b'.ownedCount - b.ownedCount else 0 := by
  refine ⟨fun q b₁ x₁ hq => ?_, fun q o hq r hr => ?_⟩
  · have hr : (w.put p ⟨some b', x⟩).refs q = w.refs q := by rw [refs_put hp]; ring
    have hs : ∀ k, (w.put p ⟨some b', x⟩).share k q = w.share k q := fun _ => rfl
    rw [hr, hs]
    rw [Lib.Conf.get_put hp] at hq
    split_ifs at hq with he
    · subst he
      obtain ⟨rfl, rfl⟩ : b' = b₁ ∧ x = x₁ := by simpa using hq
      have := h.count q b x hp
      simp only [if_true]
      omega
    · have := h.count q b₁ x₁ hq
      simp only [if_neg he]
      omega
  · have hdb : ∀ r, (∃ b x, w.heap.get r = some ⟨some b, x⟩) →
        ∃ b₁ x₁, (w.put p ⟨some b', x⟩).heap.get r = some ⟨some b₁, x₁⟩ := by
      rintro r ⟨b₂, x₂, h₂⟩
      rw [Lib.Conf.get_put hp]
      split_ifs
      · exact ⟨_, _, rfl⟩
      · exact ⟨b₂, x₂, h₂⟩
    rw [Lib.Conf.get_put hp] at hq
    split_ifs at hq with he
    · obtain rfl := Option.some.inj hq
      exact hdb r (h.closed p _ hp r hr)
    · exact hdb r (h.closed q o hq r hr)

/-- An object takes other pointers. -/
theorem point (h : Owes w δ) {p : ℕ} {c : Option IFromDB} {x : Fields} (hp : w.heap.get p = some ⟨c, x⟩)
    (x' : Fields) (hk : x'.kind = x.kind) (hx : ∀ r ∈ x'.refs, ∃ b x, w.heap.get r = some ⟨some b, x⟩) :
    Owes (w.put p ⟨c, x'⟩) fun q => δ q + x.refs.count q - x'.refs.count q := by
  refine ⟨fun q b₁ x₁ hq => ?_, fun q o hq r hr => ?_⟩
  · have hr : (w.put p ⟨c, x'⟩).refs q = w.refs q - x.refs.count q + x'.refs.count q := refs_put hp q
    have hs : ∀ k, (w.put p ⟨c, x'⟩).share k q = w.share k q := fun _ => rfl
    rw [hr, hs]
    rw [Lib.Conf.get_put hp] at hq
    split_ifs at hq with he
    · subst he
      obtain ⟨rfl, rfl⟩ : c = some b₁ ∧ x' = x₁ := by simpa using hq
      have := h.count q b₁ x hp
      rw [hk]
      omega
    · have := h.count q b₁ x₁ hq
      omega
  · have hdb : ∀ r, (∃ b x, w.heap.get r = some ⟨some b, x⟩) →
        ∃ b x, (w.put p ⟨c, x'⟩).heap.get r = some ⟨some b, x⟩ := by
      rintro r ⟨b₂, x₂, h₂⟩
      rw [Lib.Conf.get_put hp]
      split_ifs with he
      · subst he
        rw [hp, Option.some.injEq, Obj.mk.injEq] at h₂
        exact ⟨b₂, x', by rw [h₂.1]⟩
      · exact ⟨b₂, x₂, h₂⟩
    rw [Lib.Conf.get_put hp] at hq
    split_ifs at hq with he
    · obtain rfl := Option.some.inj hq
      exact hdb r (hx r hr)
    · exact hdb r (h.closed q o hq r hr)

/-- A pointer member takes another value. -/
theorem setRef (h : Owes w δ) {p : ℕ} {o : Obj} {f : RefField} {v u : Pointer} (hp : w.heap.get p = some o)
    (hv : o.fields.ref f = some v) (hx : ∀ r ∈ u.targets, ∃ b x, w.heap.get r = some ⟨some b, x⟩) :
    Owes (w.put p (o.setRef f u)) fun q => δ q + v.targets.count q - u.targets.count q := by
  obtain ⟨c, x⟩ := o
  change x.ref f = some v at hv
  refine (h.point hp (x.setRef f u) (Fields.kind_of_cls (Fields.cls_setRef _ _ _)) ?_).congr fun q _ _ _ => ?_
  · intro r hr
    by_cases hin : r ∈ x.refs
    · exact h.closed p _ hp r hin
    · refine hx r ?_
      have hc := Fields.refs_setRef hv u r
      rw [List.count_eq_zero.mpr hin] at hc
      have hpos : 0 < (x.setRef f u).refs.count r := List.count_pos_iff.mpr hr
      refine List.count_pos_iff.mp ?_
      omega
  · have hc := Fields.refs_setRef hv u q
    omega

/-- A new object that points to nothing. -/
theorem push (h : Owes w δ) (hw : Sound w) {o : Obj} (hr : o.fields.refs = [])
    (hc : ∀ b, o.fromDB = some b → b.ownedCount = δ w.heap.next) : Owes (w.push o) δ := by
  have hrefs : ∀ q, (w.push o).refs q = w.refs q := fun q => by
    simp [Lib.Conf.refs, Lib.Heap.sum_push, hr]
  have hshare : ∀ k q, (w.push o).share k q = w.share k q := fun _ _ => rfl
  refine ⟨fun p b x hp => ?_, fun q o₁ hq p hp => ?_⟩
  · rw [hrefs, hshare]
    rw [Lib.Conf.heap_push, Lib.Heap.get_push] at hp
    split_ifs at hp with he
    · subst he
      obtain rfl := Option.some.inj hp
      have h₀ : w.share x.kind w.heap.next = 0 := if_neg fun hin => (hw.lt_next hin).ne rfl
      rw [h.refs_eq_zero (by simp), h₀, hc b rfl]
      ring
    · exact h.count p b x hp
  · rw [Lib.Conf.heap_push, Lib.Heap.get_push] at hq
    split_ifs at hq with he
    · obtain rfl := Option.some.inj hq
      simp [hr] at hp
    · obtain ⟨b, x, hb⟩ := h.closed q o₁ hq p hp
      exact ⟨b, x, Lib.Heap.get_push_of_some _ hb⟩

/-- An object that nothing points to is destroyed. -/
theorem free (h : Owes w δ) {p : ℕ} {o : Obj} (hp : w.heap.get p = some o) (h0 : w.refs p = 0) :
    Owes (w.free p) fun q => δ q + o.fields.refs.count q := by
  have hg : ∀ q, (w.free p).heap.get q = if q = p then none else w.heap.get q := fun q => Lib.Heap.get_free _ _ _
  refine ⟨fun q b x hq => ?_, fun q o₁ hq r hr => ?_⟩
  · have hr : (w.free p).refs q = w.refs q - o.fields.refs.count q := Lib.Heap.sum_free w.heap _ hp
    have hs : ∀ k, (w.free p).share k q = w.share k q := fun _ => rfl
    rw [hr, hs]
    rw [hg] at hq
    split_ifs at hq with he
    have := h.count q b x hq
    omega
  · rw [hg] at hq
    split_ifs at hq with he
    obtain ⟨b, x, hb⟩ := h.closed q o₁ hq r hr
    refine ⟨b, x, ?_⟩
    rw [hg, if_neg, hb]
    rintro rfl
    have := refs_pos hq hr
    omega

end Owes

/-- Every count is exact. -/
abbrev Balanced (w : World) : Prop := Owes w fun _ => 0

/-- A constructor makes an object that points to nothing. -/
theorem DBClass.refs_fields {c : DBClass} {d : Doc} {x : Fields} (h : c.fields d = .ok x) : x.refs = [] := by
  cases c <;> simp only [DBClass.fields, bind, Except.bind, pure, Except.pure] at h <;> (repeat' split at h) <;>
    cases h <;> rfl

theorem refs_ofDoc {c : DBClass} {d : Doc} {b : IFromDB} {x : Fields} (h : c.ofDoc d = .ok ⟨some b, x⟩) : x.refs = [] := by
  obtain ⟨y, i, hy, -, he⟩ := ofDoc_eq_ok.mp h
  rw [show x = y from congrArg Obj.fields he]
  exact DBClass.refs_fields hy

/-- An object that is counted once and cached. -/
theorem balanced_load (h : Balanced w) (hw : Sound w) {b : IFromDB} {x : Fields} (hr : x.refs = [])
    (hb : b.ownedCount = 1) (hk : x.kind = k) : Balanced (w.load k ⟨some b, x⟩) := by
  have h₁ : Owes w fun q => if q = w.heap.next then 1 else 0 := by
    refine h.congr fun q b x hq => ?_
    rw [if_neg (Lib.Heap.lt_next hq).ne]
  have h₂ : Owes (w.push ⟨some b, x⟩) fun q => if q = w.heap.next then 1 else 0 := by
    refine h₁.push hw hr fun b' hb' => ?_
    obtain rfl := Option.some.inj hb'
    simpa using hb
  refine h₂.of_heap rfl fun q b' x' hq => ?_
  have hq' : (w.push ⟨some b, x⟩).share x'.kind q = w.share x'.kind q := rfl
  rw [hq']
  simp only [Lib.Conf.share, Lib.Conf.cash_load]
  by_cases hqn : q = w.heap.next
  · subst hqn
    have hx : x' = x := by
      have := (Lib.Heap.get_push_next w.heap (⟨some b, x⟩ : Obj)).symm.trans hq
      simpa using (congrArg (fun o : Option Obj => o.map (·.fields)) this).symm
    have hn : w.heap.next ∉ w.cash k := fun hin => (hw.lt_next hin).ne rfl
    simp [hx, hk, hn]
  · simp only [hqn, if_false]
    split_ifs with he hm hm' <;> simp_all

theorem Obj.own_one {c : DBClass} {d : Doc} {o : Obj} (ho : c.ofDoc d = .ok o) : ∃ b x, o.own 1 = ⟨some b, x⟩ ∧ b.ownedCount = 1 ∧ x.refs = [] ∧ x.cls = c := by
  obtain ⟨x, i, hx, -, rfl⟩ := ofDoc_eq_ok.mp ho
  exact ⟨_, x, rfl, by simp [IFromDB.own], DBClass.refs_fields hx, DBClass.cls_fields hx⟩

/-- A look-up counts what it loads. -/
theorem balanced_looked {oid : Oid} {c? : Option DBClass} {r : Option ℕ} (h : Balanced w) (hw : Sound w)
    (hl : Looked w k oid c? r w') (hk : ∀ x : Fields, c? = some x.cls → x.kind = k) : Balanced w' := by
  cases hl with
  | hit => exact h
  | absent => exact h
  | loaded hn hs hc ho =>
    obtain ⟨b, x, he, hb, hr, rfl⟩ := Obj.own_one ho
    rw [he]
    exact balanced_load h hw hr hb (hk x hc)

theorem balanced_getFromDB {oid : Oid} {t : AccountType} {r : Option ℕ} (h : Balanced w) (hw : Sound w)
    (hr : run (getFromDB k oid t) w = .ok (r, w')) : Balanced w' := by
  unfold getFromDB at hr
  split_ifs at hr with hk
  · subst hk
    exact balanced_looked h hw ((run_infosGetFromDB_iff (hw.live _)).mp hr) fun x hx => Fields.kind_of_classOf hx
  · exact balanced_looked h hw ((run_getFromDB_iff (hw.live _)).mp hr) fun x hx =>
      Fields.kind_of_dbClass (Option.some.inj hx).symm

/-- A listing that counts what it loads. -/
theorem balanced_collect {keep : Doc → Except Fault Bool} {docs : List Doc} {r : List ℕ} (h : Balanced w)
    (hw : Sound w) (hd : Listed w k docs) (hr : run (Controller.collect k keep true docs) w = .ok (r, w')) :
    Balanced w' := by
  induction docs generalizing w r with
  | nil =>
    obtain ⟨-, rfl⟩ := (run_pure_iff _).mp hr
    exact h
  | cons d docs ih =>
    rcases (run_collect_cons_iff (hw.live k)).mp hr with
      ⟨-, hr⟩ | ⟨oid, r', -, hi, ⟨p, -, -, hr⟩ | ⟨o, hn, ho, -, hr⟩⟩
    · exact ih h hw hd.tail hr
    · exact ih h hw hd.tail hr
    · have hs := hd d (by simp) oid hi
      have hq : Quiet (fun _ _ => True) w (w.load k (o.listed true)) := quiet_listed (by simp) hs hn ho
      obtain ⟨b, x, he, hb, hr', hx⟩ := Obj.own_one ho
      refine ih ?_ (hq.sound hw) (hd.tail.of_stored hq.stored) hr
      change Balanced (w.load k (o.own 1))
      rw [he]
      exact balanced_load h hw hr' hb (Fields.kind_of_dbClass hx)

/-- A listing that loads nothing changes nothing. -/
theorem collect_of_cached {keep : Doc → Except Fault Bool} {counted : Bool} {docs : List Doc} {r : List ℕ}
    (hl : w.Live k) (hc : ∀ d ∈ docs, ∀ o, keep d = .ok true → d.get? "_id" = some (.oid o) → w.cached k o ≠ none)
    (hr : run (Controller.collect k keep counted docs) w = .ok (r, w')) : w' = w := by
  induction docs generalizing r with
  | nil => exact ((run_pure_iff _).mp hr).2.symm
  | cons d docs ih =>
    have ih := fun {r} => @ih r fun d' hd' => hc d' (List.mem_cons_of_mem _ hd')
    rcases (run_collect_cons_iff hl).mp hr with ⟨-, hr⟩ | ⟨oid, r', ha, hi, ⟨p, -, -, hr⟩ | ⟨o, hn, -⟩⟩
    · exact ih hr
    · exact ih hr
    · exact absurd hn (hc d (by simp) oid ha hi)

/-! ### Getters and setters -/

theorem put_free_comm {p q : ℕ} (h : q ≠ p) (o : Obj) : (w.free p).put q o = (w.put q o).free p := by
  simp only [Lib.Conf.put, Lib.Conf.free, Lib.Conf.setHeap, Lib.Conf.heap, Lib.Heap.set, Lib.Heap.free]
  rw [List.set_comm _ _ (Ne.symm h)]

/-- The pointers of the object at an address. -/
def Lib.Conf.pointees (w : World) (p : ℕ) : List ℕ := ((w.heap.get p).map (·.fields.refs)).getD []

theorem pointees_of_get {p : ℕ} {o : Obj} (h : w.heap.get p = some o) : w.pointees p = o.fields.refs := by
  simp [Lib.Conf.pointees, h]

/-- The count of the object at an address. -/
def Lib.Conf.countOf (w : World) (p : ℕ) : Option ℤ := ((w.heap.get p).bind (·.fromDB)).map (·.ownedCount)

theorem countOf_of_get {p : ℕ} {b : IFromDB} {x : Fields} (h : w.heap.get p = some ⟨some b, x⟩) :
    w.countOf p = some b.ownedCount := by simp [Lib.Conf.countOf, h]

theorem Owes.ne_of_dead (hw : Sound w) {p : ℕ} (hp : ¬ w.Alive p) (k : Kind) : w.share k p = 0 :=
  if_neg fun hin => hp (hw.live k p hin)

/-- Letting go of an object takes back its count; a destroyed object has to point to nothing. -/
theorem balanced_settled {f : RefField} {this p : ℕ} {r : Option ℕ} {o : Obj} (h : Balanced w) (hw : Sound w)
    (ho : w.heap.get this = some o) (hv : o.fields.ref f = some (.to p)) (hs : Settled w f this p r w')
    (hg : ¬ w.Alive p → w.countOf p = some 1 → w.pointees p = []) : Balanced w' := by
  have hdead : ∀ {b x}, w.heap.get p = some ⟨some b, x⟩ → b.isExist = false → ¬ w.Alive p := by
    rintro b x hp hb ⟨b', x', hp', hb'⟩
    obtain ⟨rfl, rfl⟩ : b = b' ∧ x = x' := by simpa [hp] using hp'
    rw [hb] at hb'
    cases hb'
  cases hs with
  | held => exact h
  | letGo hp hb hn ho' =>
    rename_i b x o'
    have hv' : o'.fields.ref f = some (.to p) := by
      rw [← refOf_of_get ho', refOf_own hp, refOf_of_get ho, hv]
    refine ((h.recount hp (b.own (-1))).setRef ho' hv' (by simp)).congr fun q _ _ _ => ?_
    by_cases hq : q = p
    · subst hq; simp [IFromDB.own]
    · simp [hq, Ne.symm hq]
  | freed hp hb hn ht ho' =>
    rename_i b x o'
    obtain rfl := Option.some.inj (ho.symm.trans ho')
    have hr : x.refs = [] := by
      rw [← hg (hdead hp hb) (by rw [countOf_of_get hp, hn]), pointees_of_get hp]
    rw [put_free_comm ht]
    have h₁ := h.setRef ho hv (u := .null) (by simp)
    have hp₁ : (w.put this (o.setRef f .null)).heap.get p = some ⟨some b, x⟩ := by
      rw [Lib.Conf.get_put ho, if_neg ht.symm, hp]
    have h₀ : (w.put this (o.setRef f .null)).refs p = 0 := by
      have hc := h₁.count p b x hp₁
      have hs : (w.put this (o.setRef f .null)).share x.kind p = 0 := Owes.ne_of_dead hw (hdead hp hb) _
      rw [hs, hn] at hc
      simp at hc
      omega
    refine (h₁.free hp₁ h₀).congr fun q b' x' hq => ?_
    have hqp : q ≠ p := by
      rintro rfl
      simp [Lib.Heap.get_free] at hq
    simp [hr, Ne.symm hqp]

/-- What a getter with a null pointer finds. -/
def Getter.finds (g : Getter) (w : World) (this : ℕ) : Prop :=
  w.refOf this g.field = some .null ∧ ∃ oid, w.docRef this g.key = some oid ∧
    ((∃ p o, w.cached g.kind oid = some p ∧ w.heap.get p = some o ∧ g.wants o.fields = true) ∨
      w.cached g.kind oid = none ∧ w.stored g.kind oid ≠ none ∧ g.classOf w this ≠ none)

theorem Getter.kind_of_classOf {g : Getter} {this : ℕ} {x : Fields} (h : g.classOf w this = some x.cls) :
    x.kind = g.kind := by
  cases g with
  | getAdditionalInfo =>
    simp only [Getter.classOf] at h
    split at h
    · exact Fields.kind_of_classOf h
    · cases h
  | _ => cases x <;> first | rfl | cases h

theorem balanced_getter {g : Getter} {this : ℕ} {r : Option ℕ} (h : Balanced w) (hw : Sound w)
    (hg : GotBy w g this r w')
    (hd : ∀ p, w.refOf this g.field = some (.to p) → ¬ w.Alive p → w.countOf p = some 1 → w.pointees p = [])
    (hf : ¬ g.finds w this) : Balanced w' := by
  cases hg with
  | settled ho hv hs => exact balanced_settled h hw ho hv hs (hd _ (by rw [refOf_of_get ho, hv]))
  | absent => exact h
  | missed ho hn hv hl hr => exact balanced_looked h hw hl fun x hx => Getter.kind_of_classOf hx
  | loaded ho hn hv hl hp hc h₁ =>
    refine (hf ⟨by rw [refOf_of_get ho, hn], _, by simp [docRef_of_get ho, hv, Bson.oid?]; rfl, ?_⟩).elim
    cases hl with
    | hit hc' => exact .inl ⟨_, _, hc', hp, hc⟩
    | loaded hn' hs hc' ho' => exact .inr ⟨hn', by simp [hs], by simp [hc']⟩

/-- A setter counts the object it is given; the pointer it overwrites must be null. -/
theorem balanced_setRef {f : RefField} {this : ℕ} {v : Option ℕ} {u : Unit} (h : Owes w δ)
    (hr : run (setRef f this v) w = .ok (u, w')) (hg : ∀ p, w.refOf this f ≠ some (.to p)) : Owes w' δ := by
  have htargets : ∀ {o : Obj} {v : Pointer}, w.heap.get this = some o → o.fields.ref f = some v → v.targets = [] := by
    intro o v ho hv
    cases v with
    | «to» p => exact absurd (by rw [refOf_of_get ho, hv]) (hg p)
    | null => rfl
    | uninit => rfl
  cases v with
  | none =>
    obtain ⟨o, v, ho, hv, rfl⟩ := run_setRef_none_iff.mp hr
    exact (h.setRef ho hv (u := .null) (by simp)).congr fun q _ _ _ => by simp [htargets ho hv]
  | some q =>
    obtain ⟨o, v, oq, b, x, ho, hv, hq, -, hb, rfl⟩ := run_setRef_some_iff.mp hr
    have hdb : ∃ b x, w.heap.get q = some ⟨some b, x⟩ := by
      rw [Lib.Conf.get_put ho] at hb
      split_ifs at hb with he
      · subst he
        have hc : o.fromDB = some b := by simpa using congrArg (fun o : Option Obj => o.bind (·.fromDB)) hb
        exact ⟨b, o.fields, by rw [ho, ← hc]⟩
      · exact ⟨b, x, hb⟩
    have h₁ := h.setRef ho hv (u := .to q) (by simpa using hdb)
    refine (h₁.recount hb (b.own 1)).congr fun r _ _ _ => ?_
    by_cases hr : r = q
    · subst hr; simp [htargets ho hv, IFromDB.own]
    · simp [htargets ho hv, hr, Ne.symm hr]

/-! ### Updates and members -/

theorem Owes.of_update (h : Owes w δ) {el : ℕ} {r : Bool} (hr : run (Controller.update k el) w = .ok (r, w')) :
    Owes w' δ := by
  obtain ⟨b, x, d, hd, hel, -, -, -, rfl⟩ := run_update_iff.mp hr
  have h₁ : Owes (w.setEnv (w.env.replace k b.id d (toDoc_id hd))) δ := h.of_mem rfl rfl
  refine (h₁.recount (x := x) hel (b.withDoc d)).congr fun q _ _ _ => ?_
  simp [IFromDB.withDoc]

theorem Owes.of_own (h : Owes w δ) {p : ℕ} {n : ℤ} {u : Unit} (hr : run (own p n) w = .ok (u, w')) :
    Owes w' fun q => δ q + if q = p then n else 0 := by
  obtain ⟨b, x, hp, rfl⟩ := run_own_iff.mp hr
  refine (h.recount hp (b.own n)).congr fun q _ _ _ => ?_
  split_ifs <;> simp [IFromDB.own]

/-- A group takes other students. -/
theorem Owes.students (h : Owes w δ) {this : ℕ} {c : Option IFromDB} {g : Group}
    (hg : w.heap.get this = some ⟨c, .group g⟩) {l : List ℕ}
    (hl : ∀ p ∈ l, ∃ b x, w.heap.get p = some ⟨some b, x⟩) :
    Owes (w.put this ⟨c, .group { g with students := l }⟩) fun q => δ q + g.students.count q - l.count q := by
  refine (h.point hg (.group { g with students := l }) rfl fun p hp => ?_).congr fun q _ _ _ => ?_
  · rcases List.mem_append.mp hp with hp | hp
    · exact h.closed this _ hg p (List.mem_append_left _ hp)
    · exact hl p hp
  · simp only [Fields.refs, List.count_append]
    push_cast
    ring

theorem Owes.of_ownAll (h : Owes w δ) {l : List ℕ} {u : Unit} (hr : run (ownAll l) w = .ok (u, w')) :
    Owes w' fun q => δ q + l.count q := by
  induction l generalizing w δ with
  | nil =>
    obtain ⟨-, rfl⟩ := (run_pure_iff _).mp hr
    exact h.congr fun q _ _ _ => by simp
  | cons p l ih =>
    obtain ⟨_, w₁, h₁, h₂⟩ := (run_bind_iff _).mp hr
    refine (ih (h.of_own h₁) h₂).congr fun q _ _ _ => ?_
    by_cases hq : q = p
    · subst hq; simp; ring
    · simp [hq, Ne.symm hq]

theorem students_of_get {this : ℕ} {c : Option IFromDB} {g : Group} (h : w.heap.get this = some ⟨c, .group g⟩) :
    w.students this = g.students := by simp [Lib.Conf.students, h]

theorem balanced_setStudents {this : ℕ} {l : List ℕ} {u : Unit} (h : Balanced w)
    (hr : run (Group.setStudents this l) w = .ok (u, w')) (hg : w.students this = []) : Balanced w' := by
  simp only [Group.setStudents, run_bind_iff] at hr
  obtain ⟨_, _, h₁, _, w₂, h₂, h₃⟩ := hr
  obtain ⟨rfl, hl⟩ := run_checkStudents_iff.mp h₁
  obtain ⟨c, g, hgr, rfl⟩ := run_assignStudents_iff.mp h₂
  rw [students_of_get hgr] at hg
  have hhead : ∀ p ∈ l, ∃ b x, w.heap.get p = some ⟨some b, x⟩ := by
    intro p hp
    obtain ⟨b, s, hs⟩ := hl p hp
    exact ⟨b, _, hs⟩
  refine ((h.students hgr hhead).of_ownAll h₃).congr fun q _ _ _ => ?_
  simp [hg]

theorem put_self {p : ℕ} {o : Obj} (hp : w.heap.get p = some o) : w.put p o = w := by
  change w.setHeap (w.heap.set p o) = w
  rw [Lib.Heap.set_self hp]
  rfl

theorem cached_assignStudents {c : Option IFromDB} {g : Group} {this : ℕ} (h : w.heap.get this = some ⟨c, .group g⟩)
    (l : List ℕ) : (w.put this ⟨c, .group { g with students := l }⟩).cached = w.cached := by
  funext k o
  simp only [Lib.Conf.cached, Lib.Conf.cash_put, idOf_assignStudents h]

theorem cachedStudents_assignStudents {c : Option IFromDB} {g : Group} {this : ℕ}
    (h : w.heap.get this = some ⟨c, .group g⟩) (l : List ℕ) (ids : List Oid) :
    (w.put this ⟨c, .group { g with students := l }⟩).cachedStudents ids = w.cachedStudents ids := by
  have hp : ∀ p, (((w.put this ⟨c, .group { g with students := l }⟩).heap.get p).map (·.fields.isStudent)) =
      (w.heap.get p).map (·.fields.isStudent) := by
    intro p
    rw [Lib.Conf.get_put h]
    split_ifs with he
    · subst he; simp [h, Fields.isStudent]
    · rfl
  simp only [Lib.Conf.cachedStudents, cached_assignStudents h, hp]

/-- When nothing is loaded, the members of a group are its cached ones. -/
theorem loadStudents_of_cached {this : ℕ} {c : Option IFromDB} {g : Group} {vs : List Element} {u : Unit}
    (hw : Sound w) (hg : w.heap.get this = some ⟨c, .group g⟩)
    (hc : ∀ o ∈ vs.filterMap Element.oid?, w.cached .infos o = none → w.stored .infos o = none)
    (h : run (GroupDB.loadStudents this vs) w = .ok (u, w')) :
    w' = w.put this ⟨c, .group { g with students := g.students ++ w.cachedStudents (vs.filterMap Element.oid?) }⟩ := by
  induction vs generalizing w g with
  | nil =>
    obtain ⟨-, rfl⟩ := (run_pure_iff _).mp h
    simp only [List.filterMap_nil, Lib.Conf.cachedStudents, List.append_nil]
    exact (put_self hg).symm
  | cons v vs ih =>
    obtain ⟨oid, r, w₁, rfl, h₁, h⟩ := run_loadStudents_cons_iff.mp h
    simp only [List.filterMap_cons, Element.oid?, List.mem_cons, forall_eq_or_imp] at hc
    obtain ⟨hco, hc⟩ := hc
    have hl := (run_infosGetFromDB_iff (hw.live .infos)).mp h₁
    have hskip : ∀ p?, w.cached .infos oid = p? →
        (p?.filter fun p => ((w.heap.get p).map (·.fields.isStudent)).getD false) = none →
        w.cachedStudents (oid :: vs.filterMap Element.oid?) = w.cachedStudents (vs.filterMap Element.oid?) := by
      intro p? hp hf
      simp only [Lib.Conf.cachedStudents, List.filterMap_cons, hp, hf]
    cases hl with
    | absent hn hs =>
      rcases h with ⟨-, h⟩ | ⟨p, b, x, hr, -⟩
      · rw [List.filterMap_cons, Element.oid?, hskip none hn rfl]
        exact ih hw hg hc h
      · cases hr
    | loaded hn hs => simp [hco hn] at hs
    | hit hp =>
      rename_i p
      obtain ⟨b, x, hpg, hb⟩ := hw.live .infos p (Lib.Conf.cached_mem hp)
      rcases h with ⟨hr, h⟩ | ⟨p', b', x', hr, hp', hst, h⟩
      · rcases hr with hr | ⟨p', o, hr, hp', hst⟩
        · cases hr
        · obtain rfl := Option.some.inj hr
          rw [List.filterMap_cons, Element.oid?, hskip (some p) hp (by simp [hp', hst])]
          exact ih hw hg hc h
      · obtain rfl := Option.some.inj hr
        obtain ⟨rfl, rfl⟩ : b = b' ∧ x = x' := by simpa [hpg] using hp'
        rcases h with ⟨hb', -⟩ | ⟨-, c', g', hg', h⟩
        · simp [hb] at hb'
        · obtain ⟨rfl, rfl⟩ : c = c' ∧ g = g' := by simpa [hg] using hg'
          have hq := steady_assignStudents hg (g.students ++ [p])
          have hg₁ : (w.put this ⟨c, .group { g with students := g.students ++ [p] }⟩).heap.get this =
              some ⟨c, .group { g with students := g.students ++ [p] }⟩ := by rw [Lib.Conf.get_put hg, if_pos rfl]
          rw [ih (hq.sound hw) hg₁ (by rw [cached_assignStudents hg]; exact hc) h, put_put,
            cachedStudents_assignStudents hg]
          have hkeep : w.cachedStudents (oid :: vs.filterMap Element.oid?) =
              p :: w.cachedStudents (vs.filterMap Element.oid?) := by
            have hf : (w.cached .infos oid).filter
                (fun p => ((w.heap.get p).map (·.fields.isStudent)).getD false) = some p := by
              rw [hp, Option.filter_some_pos]
              simp [hpg, hst]
            simp only [Lib.Conf.cachedStudents, List.filterMap_cons, hf]
          rw [List.filterMap_cons, Element.oid?, hkeep, List.append_assoc]
          rfl

/-- `getStudents` makes the same counted list again. -/
theorem balanced_getStudents {this : ℕ} {r : List ℕ} (h : Balanced w) (hw : Sound w)
    (hr : run (GroupDB.getStudents this) w = .ok (r, w'))
    (hc : ∀ o ∈ w.docMembers this, w.cached .infos o = none → w.stored .infos o = none)
    (hp : (w.students this).Perm (w.cachedStudents (w.docMembers this))) : Balanced w' := by
  obtain ⟨b, g, v, hg, hv, hr, -⟩ := run_getStudents_iff.mp hr
  have hres : w' = w.put this ⟨some b, .group { g with students := w.cachedStudents (w.docMembers this) }⟩ := by
    rcases hr with ⟨vs, rfl, hr⟩ | ⟨hn, rfl⟩
    · have hm : w.docMembers this = vs.filterMap Element.oid? := by simp [Lib.Conf.docMembers, hg, Doc.members, hv]
      have hg₁ : (w.put this ⟨some b, .group { g with students := [] }⟩).heap.get this =
          some ⟨some b, .group { g with students := [] }⟩ := by rw [Lib.Conf.get_put hg, if_pos rfl]
      have hl := loadStudents_of_cached ((steady_assignStudents hg []).sound hw) hg₁
        (by rw [cached_assignStudents hg, ← hm]; exact hc) hr
      rw [hl, put_put, cachedStudents_assignStudents hg, hm]
      rfl
    · have hm : w.docMembers this = [] := by
        simp only [Lib.Conf.docMembers, hg, Option.bind_some, Option.map_some, Option.getD_some, Doc.members, hv]
        split
        · rename_i vs he
          exact absurd (Option.some.inj he) (hn vs)
        · rfl
      rw [hm]
      rfl
  rw [students_of_get hg] at hp
  rw [hres]
  refine (h.students hg fun p hp' => ?_).congr fun q _ _ _ => ?_
  · obtain ⟨o, -, ho⟩ := List.mem_filterMap.mp hp'
    obtain ⟨hc', -⟩ := Option.filter_eq_some_iff.mp ho
    obtain ⟨b', x, hg', -⟩ := hw.live .infos p (Lib.Conf.cached_mem hc')
    exact ⟨b', x, hg'⟩
  · rw [hp.count_eq]
    ring

theorem refOf_update {el : ℕ} {r : Bool} (h : run (Controller.update k el) w = .ok (r, w')) (p : ℕ) (f : RefField) :
    w'.refOf p f = w.refOf p f := by
  obtain ⟨b, x, d, hd, hel, -, -, -, rfl⟩ := run_update_iff.mp h
  exact refOf_own (w := w.setEnv (w.env.replace k b.id d (toDoc_id hd))) hel f

theorem refOf_assignStudents {c : Option IFromDB} {g : Group} {this : ℕ} (h : w.heap.get this = some ⟨c, .group g⟩)
    (l : List ℕ) (p : ℕ) (f : RefField) :
    (w.put this ⟨c, .group { g with students := l }⟩).refOf p f = w.refOf p f := by
  simp only [Lib.Conf.refOf, Lib.Conf.get_put h]
  split_ifs with he
  · subst he
    cases f <;> simp [h, Fields.ref]
  · rfl

/-- Enrolling counts the student and the group, when the student had no group in memory. -/
theorem balanced_enrolled {this stud : ℕ} (h : Balanced w) (he : Enrolled w this stud w')
    (hg : ∀ p, w.refOf stud .group ≠ some (.to p)) : Balanced w' := by
  obtain ⟨bs, s, c, g, w₂, w₃, w₄, hs, hgr, h₂, h₃, h₄, h₅⟩ := he.steps
  have o₁ := h.students hgr (l := g.students ++ [stud]) fun p hp => by
    rcases List.mem_append.mp hp with hp | hp
    · exact h.closed this _ hgr p (List.mem_append_right _ hp)
    · obtain rfl := List.mem_singleton.mp hp
      exact ⟨bs, _, hs⟩
  have hg₂ : ∀ p, w₂.refOf stud .group ≠ some (.to p) := by
    intro p
    rw [refOf_update h₂, refOf_assignStudents hgr]
    exact hg p
  refine (((balanced_setRef (o₁.of_update h₂) h₃ hg₂).of_update h₄).of_own h₅).congr fun q _ _ _ => ?_
  by_cases hq : q = stud
  · subst hq; simp
  · simp [hq, Ne.symm hq]

/-- Expelling takes the count of the student back, when the entry is the student's own. -/
theorem balanced_expelled {this stud : ℕ} (h : Balanced w) (he : Expelled w this stud w')
    (hg : ∀ p, w.refOf stud .group ≠ some (.to p))
    (hf : (w.students this).find? (fun p => w.idOf p = w.idOf stud) = some stud) : Balanced w' := by
  obtain ⟨bs, s, c, g, l₁, p, l₂, w₂, w₃, w₄, hs, hgr, hl, hn, hp, h₂, h₃, h₄, h₅⟩ := he.steps
  obtain rfl : p = stud := by
    rw [students_of_get hgr, hl, Lib.Conf.idOf_of_get hs, List.find?_append, List.find?_eq_none.mpr (by simpa using hn),
      Option.none_or, List.find?_cons_of_pos (by simp [hp])] at hf
    exact Option.some.inj hf
  have o₁ := h.students hgr (l := l₁ ++ l₂) fun q hq => by
    refine h.closed this _ hgr q (List.mem_append_right _ ?_)
    rw [hl]
    rcases List.mem_append.mp hq with hq | hq <;> simp [hq]
  have hg₂ : ∀ q, w₂.refOf p .group ≠ some (.to q) := by
    intro q
    rw [refOf_update h₂, refOf_assignStudents hgr]
    exact hg q
  refine (((balanced_setRef (o₁.of_update h₂) h₃ hg₂).of_update h₄).of_own h₅).congr fun q _ _ _ => ?_
  rw [hl]
  by_cases hq : q = p
  · subst hq; simp
  · simp [hq, Ne.symm hq]

/-! ### Deletions and additions -/

/-- `Delete` takes back the count of the cache; a destroyed object has to point to nothing. -/
theorem balanced_deleted {oid : Oid} (h : Balanced w) (hw : Sound w) (hd : Deleted w k oid w')
    (hg : ∀ p, w.victim k oid = some p → w.countOf p = some 1 → w.pointees p = []) : Balanced w' := by
  obtain ⟨p, b, x, db, hv, hp, rfl, -⟩ := hd.effect
  have hin := victim_mem hv
  have hk : x.kind = k := by
    obtain ⟨b₁, x₁, h₁, -, hk₁⟩ := hw.entry k p hin
    obtain ⟨rfl, rfl⟩ : b = b₁ ∧ x = x₁ := by simpa [hp] using h₁
    exact hk₁
  have hout : ∀ {v : World}, v.cash = w.cash → ∀ k' q, q ≠ p →
      (v.setCash k ((w.cash k).filter (· ≠ p))).share k' q = w.share k' q := by
    intro w₁ hc k' q hq
    simp only [Lib.Conf.share, Lib.Conf.cash_setCash, hc]
    by_cases he : k' = k
    · subst he; simp [hq]
    · simp [he]
  suffices hmem : Balanced (((w.setChanged k true).dismiss p b x).setCash k ((w.cash k).filter (· ≠ p))) from
    hmem.of_mem rfl rfl
  have hp₁ : (w.setChanged k true).heap.get p = some ⟨some b, x⟩ := hp
  have h₁ : Balanced (w.setChanged k true) := h.of_mem rfl (by simp)
  have hc₁ : (w.setChanged k true).cash = w.cash := by simp
  unfold Lib.Conf.dismiss
  split_ifs with hn
  · have hr : x.refs = [] := by
      have := hg p hv (by rw [countOf_of_get hp, hn])
      rwa [pointees_of_get hp] at this
    have h₀ : (w.setChanged k true).refs p = 0 := by
      have hc := h₁.count p b x hp₁
      have hs : (w.setChanged k true).share x.kind p = 1 := by
        simp only [Lib.Conf.share, hc₁, hk]
        rw [if_pos hin]
      rw [hs, hn] at hc
      omega
    refine (h₁.free hp₁ h₀).of_heap rfl fun q b' x' hq => ?_
    have hqp : q ≠ p := by
      rintro rfl
      simp [Lib.Heap.get_free] at hq
    rw [hout (v := (w.setChanged k true).free p) hc₁ _ q hqp]
    have hs : ((w.setChanged k true).free p).share x'.kind q = w.share x'.kind q := by
      simp only [Lib.Conf.share, Lib.Conf.cash_free, hc₁]
    rw [hs]
    simp [hr]
  · refine (h₁.recount hp₁ b.flagged).of_heap rfl fun q b' x' hq => ?_
    have hs : ((w.setChanged k true).put p ⟨some b.flagged, x⟩).share x'.kind q =
        w.share x'.kind q := by simp only [Lib.Conf.share, Lib.Conf.cash_put, hc₁]
    rw [hs]
    by_cases hqp : q = p
    · subst hqp
      rw [Lib.Conf.get_put hp₁, if_pos rfl, Option.some.injEq, Obj.mk.injEq] at hq
      rw [← hq.2]
      simp [Lib.Conf.share, hk, hin, IFromDB.flagged, IFromDB.own]
    · rw [hout (v := (w.setChanged k true).put p _) hc₁ _ q hqp]
      simp [hqp]

/-- Storing a plain object destroys it; what it points to stays counted. -/
theorem owes_post {e : ℕ} {x : Fields} (h : Balanced w) (he : w.heap.get e = some ⟨none, x⟩) (d : Doc) :
    Owes (w.post k e d) fun q => x.refs.count q := by
  have h₁ : Balanced (w.setChanged k true) := h.of_mem rfl (by simp)
  have he₁ : (w.setChanged k true).heap.get e = some ⟨none, x⟩ := he
  have h₀ : (w.setChanged k true).refs e = 0 := h₁.refs_eq_zero fun b x' hb => by
    rw [he₁] at hb
    cases hb
  exact ((h₁.free he₁ h₀).congr fun q _ _ _ => by simp).of_mem rfl rfl

theorem balanced_added {e : ℕ} {x : Fields} {d : Doc} {o : Obj} (h : Balanced w) (hw : Sound w)
    (he : w.heap.get e = some ⟨none, x⟩) (ho : k.dbClass.ofDoc (Collection.withId w.env.nextOid d) = .ok o)
    (hr : x.refs = []) : Balanced ((w.post k e d).load k (o.own 1)) := by
  obtain ⟨b, y, hb, hc, hy, hcls⟩ := Obj.own_one ho
  rw [hb]
  refine balanced_load ((owes_post h he d).congr fun q _ _ _ => by simp [hr]) (hw.post he d) hy hc
    (Fields.kind_of_dbClass hcls)

/-- The members of an info the add writes. -/
theorem toDoc_info {x : Fields} {d : Doc} (hd : x.toDoc w.heap = .ok d) {p : ℕ} {b : IFromDB} {y : Fields}
    (ho : x.ref .owner = some (.to p)) (hp : w.heap.get p = some ⟨some b, y⟩) (hb : b.isExist = true) :
    d.get? "Owner" = some (.oid b.id) := by
  have main : ∀ {i : AdditionalInfo} {rest di : Doc}, i.owner = .to p → i.build w.heap = .ok di → d = di ++ rest →
      d.get? "Owner" = some (.oid b.id) := by
    intro i rest di ho hi hd
    simp only [AdditionalInfo.build, bind, Except.bind, pure, Except.pure, ho, buildRef,
      header_eq_ok.mpr ⟨y, hp⟩, hb, if_true, Except.ok.injEq] at hi
    subst hi
    simp [hd]
  cases x with
  | student s =>
    simp only [Fields.toDoc, bind, Except.bind, pure, Except.pure] at hd
    split at hd
    · cases hd
    rename_i di hi
    split at hd
    · cases hd
    cases hd
    exact main (Option.some.inj ho) hi rfl
  | teacher t =>
    simp only [Fields.toDoc, bind, Except.bind, pure, Except.pure] at hd
    split at hd
    · cases hd
    rename_i di hi
    cases hd
    exact main (Option.some.inj ho) hi rfl
  | _ => simp [Fields.ref] at ho

theorem toDoc_noGroup {x : Fields} {d : Doc} {p : ℕ} (hd : x.toDoc w.heap = .ok d)
    (ho : x.ref .owner = some (.to p)) (hr : x.refs = [p]) (o : Oid) : d.get? "Group" ≠ some (.oid o) := by
  have hinfo : ∀ {i : AdditionalInfo} {di : Doc}, i.build w.heap = .ok di → di.get? "Group" = none := by
    intro i di hi
    simp only [AdditionalInfo.build, bind, Except.bind, pure, Except.pure] at hi
    split at hi
    · cases hi
    rename_i dr hr
    cases hi
    rcases buildRef_eq_ok hr with ⟨rfl, -⟩ | ⟨q, b, -, -, -, rfl⟩ <;> simp
  cases x with
  | student s =>
    have hs : s.owner = .to p := Option.some.inj ho
    simp only [Fields.toDoc, StudentInfo.build, bind, Except.bind, pure, Except.pure] at hd
    split at hd
    · cases hd
    rename_i di hi
    split at hd
    · cases hd
    rename_i ds hs'
    cases hd
    split at hs'
    · cases hs'
    rename_i dg hg
    cases hs'
    rw [Doc.get?_append, hinfo hi]
    rcases buildRef_eq_ok hg with ⟨rfl, -⟩ | ⟨q, b, hq, -⟩
    · simp [nullValue]
    · simp [Fields.refs, hs, hq] at hr
  | teacher t =>
    simp only [Fields.toDoc, bind, Except.bind, pure, Except.pure] at hd
    split at hd
    · cases hd
    rename_i di hi
    cases hd
    rw [Doc.get?_append, hinfo hi]
    simp [TeacherInfo.build]
  | _ => simp [Fields.ref] at ho

/-- The new info is counted by the cache and by its owner. -/
theorem balanced_attached {acc res : ℕ} (h : Balanced w) (hw : Sound w) (ha : Attached w acc res w')
    (hg : ∀ p, w.refOf acc .additionalInfo ≠ some (.to p)) {o : Oid} {c : DBClass} (hr : w.Is res o c)
    (hk : c.kind = .infos) (hn : res ∉ w.cash .infos) : Balanced w' := by
  obtain ⟨w₁, w₂, h₁, h₂, h₃⟩ := ha.steps
  have s₂ := (quiet_setRef hw h₁).steady.trans (steady_update h₂)
  have o₂ := (balanced_setRef h h₁ hg).of_update h₂
  have o₃ : Owes (w₂.setCash .infos (w₂.cash .infos ++ [res])) fun q => if q = res then -1 else 0 := by
    refine o₂.of_heap rfl fun q b x hq => ?_
    simp only [Lib.Conf.share, Lib.Conf.cash_setCash]
    by_cases hqr : q = res
    · subst hqr
      obtain ⟨b', x', hg', -, -, rfl⟩ := s₂.is q o c hr
      obtain ⟨rfl, rfl⟩ : b = b' ∧ x = x' := by simpa [hq] using hg'
      rw [Fields.kind_cls] at hk
      simp [hk, s₂.cash, hn]
    · by_cases he : x.kind = .infos
      · simp [he, hqr]
      · simp [he, hqr]
  refine (o₃.of_own h₃).congr fun q _ _ _ => ?_
  split_ifs <;> simp

/-- A new info whose only pointer is its owner: the cached object of its account, which has no info in memory. -/
def GivesOwner (w : World) (e : ℕ) : Prop :=
  ∃ acc o, w.pointees e = [acc] ∧ w.refOf e .owner = some (.to acc) ∧ w.idOf acc = some o ∧
    w.cached .accounts o = some acc ∧ ∀ p, w.refOf acc .additionalInfo ≠ some (.to p)

/-- The owner that is owed the pointer of a destroyed element gets it back as the owner of the new object. -/
theorem balanced_owner {b : IFromDB} {y : Fields} {g : Getter} {acc acc' : ℕ} {oid : Oid} {w₁ : World}
    (hw : Sound w) (h : Owes w fun q => [acc].count q) (hacc : w.cached .accounts oid = some acc)
    (hb : b.ownedCount = 0) (hy : y.refs = []) (hn : y.ref .owner = some .null)
    (hdoc : b.doc.get? "Owner" = some (.oid oid)) (hgk : g.key = "Owner" ∧ g.field = .owner ∧ g.kind = .accounts)
    (hg : GotBy (w.push ⟨some b, y⟩) g w.heap.next (some acc') w₁) : acc' = acc ∧ Balanced w₁ := by
  obtain ⟨hkey, hfield, hkind⟩ := hgk
  obtain ⟨ba, xa, hga, -⟩ := hw.live .accounts acc (Lib.Conf.cached_mem hacc)
  have hpush : (w.push ⟨some b, y⟩).heap.get w.heap.next = some ⟨some b, y⟩ := by simp
  have o₀ : Owes (w.push ⟨some b, y⟩) fun q => [acc].count q := by
    refine h.push hw hy fun b' hb' => ?_
    obtain rfl := Option.some.inj hb'
    simp [hb, (Lib.Heap.lt_next hga).ne]
  cases hg with
  | settled ho hv =>
    obtain rfl := Option.some.inj (hpush.symm.trans ho)
    rw [hfield] at hv
    exact absurd (hn.symm.trans hv) (by simp)
  | loaded ho hn' hv hl hp hc h₁ =>
    obtain ⟨rfl, rfl⟩ : b = _ ∧ y = _ := by simpa using hpush.symm.trans ho
    rw [hkey, hdoc] at hv
    obtain rfl : oid = _ := by simpa using hv
    have hacc₁ : (w.push ⟨some b, y⟩).cached .accounts oid = some acc := by
      rw [cached_congr hw (steady_push w _).grows rfl, hacc]
    rw [hkind] at hl
    cases hl with
    | loaded hnone => simp [hacc₁] at hnone
    | hit hc =>
      obtain rfl : acc = acc' := Option.some.inj (hacc₁.symm.trans hc)
      obtain rfl := Option.some.inj (hpush.symm.trans h₁)
      rw [hfield] at hn' ⊢
      have hdb : ∃ b' x', (w.push ⟨some b, y⟩).heap.get acc = some ⟨some b', x'⟩ :=
        ⟨ba, xa, Lib.Heap.get_push_of_some _ hga⟩
      exact ⟨rfl, (o₀.setRef h₁ hn' (by simpa using hdb)).congr fun q _ _ _ => by simp⟩

/-- A new student without a group stays without one. -/
theorem grouped_of_noGroup {temp : ℕ} {b : IFromDB} {x : Fields} (hw : Sound w) (h : Grouped w temp w')
    (ht : w.heap.get temp = some ⟨some b, x⟩) (hn : x.ref .group = some .null)
    (hd : ∀ o, b.doc.get? "Group" ≠ some (.oid o)) : w' = w := by
  have main : ∀ {r w₁}, GotBy w .getStudentGroup temp r w₁ → r = none ∧ w₁ = w := by
    intro r w₁ hg
    cases hg with
    | settled ho hv =>
      obtain rfl := Option.some.inj (ht.symm.trans ho)
      exact absurd (hn.symm.trans hv) (by simp)
    | absent => exact ⟨rfl, rfl⟩
    | missed ho hn' hv =>
      obtain ⟨rfl, rfl⟩ : b = _ ∧ x = _ := by simpa using ht.symm.trans ho
      exact absurd hv (hd _)
    | loaded ho hn' hv =>
      obtain ⟨rfl, rfl⟩ : b = _ ∧ x = _ := by simpa using ht.symm.trans ho
      exact absurd hv (hd _)
  cases h with
  | none h => exact (main (run_getter (g := .getStudentGroup) hw h)).2
  | some h => exact absurd (main (run_getter (g := .getStudentGroup) hw h)).1 (by simp)

theorem balanced_infoAdded {e : ℕ} {x : Fields} {d : Doc} {t : AccountType} {r : Option ℕ} (h : Balanced w) (hw : Sound w)
    (he : w.heap.get e = some ⟨none, x⟩) (hd : x.toDoc w.heap = .ok d)
    (ha : InfoAdded (w.post .infos e d) w.env.nextOid t r w')
    (hg : if t = .admin then w.pointees e = [] else GivesOwner w e) : Balanced w' := by
  by_cases ht : t = .admin
  · subst ht
    cases ha
    rw [if_pos rfl, pointees_of_get he] at hg
    exact (owes_post h he d).congr fun q _ _ _ => by simp [show x.refs = [] from hg]
  rw [if_neg ht] at hg
  obtain ⟨acc, oid, hp, hro, hid, hcached, hinfo⟩ := hg
  have hw₀ := hw.post (k := .infos) he d
  have hs₀ := stored_post_new (w := w) (k := .infos) (e := e) (d := d)
  have hxr : x.refs = [acc] := by rwa [pointees_of_get he] at hp
  have hxo : x.ref .owner = some (.to acc) := by rwa [refOf_of_get he] at hro
  obtain ⟨ba, xa, hga, hba⟩ := hw.live .accounts acc (Lib.Conf.cached_mem hcached)
  have hdoc : (Collection.withId w.env.nextOid d).get? "Owner" = some (.oid oid) := by
    rw [← Option.some.inj ((Lib.Conf.idOf_of_get hga).symm.trans hid)]
    simpa [Collection.withId] using toDoc_info hd hxo hga hba
  have o₀ : Owes (w.post .infos e d) fun q => [acc].count q := (owes_post h he d).congr fun q _ _ _ => by rw [hxr]
  have hcached₀ : (w.post .infos e d).cached .accounts oid = some acc := by
    rw [cached_congr hw (grows_post he d) (by simp), hcached]
  have hfinish : ∀ {o : Obj} {g : Getter} {acc' : ℕ} {w₁ : World}, Balanced w₁ →
      Quiet (fun k _ => k = .accounts) ((w.post .infos e d).push o) w₁ →
      GotBy ((w.post .infos e d).push o) g (w.post .infos e d).heap.next (some acc') w₁ → acc' = acc →
      (∃ c : DBClass, c.ofDoc (Collection.withId w.env.nextOid d) = .ok o ∧ c.kind = .infos) →
      Attached w₁ acc' (w.post .infos e d).heap.next w' → Balanced w' := by
    rintro o g acc' w₁ hb₁ q₁ got rfl ⟨c, ho, hc⟩ ha
    have hpend := q₁.pending (by simp)
    have halive : ((w.post .infos e d).push o).Alive acc' := by
      obtain ⟨b, y, hb, hbe⟩ := hw₀.live .accounts acc' (Lib.Conf.cached_mem hcached₀)
      exact ⟨b, y, Lib.Heap.get_push_of_some _ hb, hbe⟩
    have hne : acc' ≠ (w.post .infos e d).heap.next := (hw₀.lt_next (Lib.Conf.cached_mem hcached₀)).ne
    refine balanced_attached hb₁ (q₁.sound (sound_push hw₀ o)) ha (fun p => ?_) (hpend.is _ _ _ (push_is hs₀ ho)) hc ?_
    · have hgap : ((w.post .infos e d).push o).heap.get acc' = some ⟨some ba, xa⟩ := by
        refine Lib.Heap.get_push_of_some _ ?_
        rw [heap_post, Lib.Heap.get_free, if_neg, hga]
        rintro rfl
        simp [hga] at he
      rw [got.refOf halive (.inl hne), refOf_of_get hgap, ← refOf_of_get hga]
      exact hinfo p
    · rw [hpend.cash]
      exact fun hin => (hw₀.lt_next hin).ne rfl
  cases ha with
  | admin => exact absurd rfl ht
  | teacher hs ho hgo ha =>
    rename_i d' o acc' w₁
    obtain rfl := Option.some.inj (hs₀.symm.trans hs)
    have got := run_getter (g := .getTeacherOwner) (sound_push hw₀ o) hgo
    have hq := quiet_getOwner (g := .getTeacherOwner) rfl (sound_push hw₀ o) hgo
    obtain ⟨y, hy, hyo⟩ := ofDoc_stored hs₀ ho
    subst hyo
    obtain ⟨hacc, hb₁⟩ := balanced_owner hw₀ o₀ hcached₀ rfl (refs_ofDoc ho)
      ((refOf_push (w.post .infos e d) _ _).symm.trans (refOf_ofDoc_teacher (w := w.post .infos e d) ho)) hdoc ⟨rfl, rfl, rfl⟩ got
    exact hfinish hb₁ hq got hacc ⟨_, ho, rfl⟩ ha
  | student hs ho hgo hgr ha =>
    rename_i d' o acc' w₁ w₂
    obtain rfl := Option.some.inj (hs₀.symm.trans hs)
    have got := run_getter (g := .getStudentOwner) (sound_push hw₀ o) hgo
    have hq := quiet_getOwner (g := .getStudentOwner) rfl (sound_push hw₀ o) hgo
    obtain ⟨y, hy, hyo⟩ := ofDoc_stored hs₀ ho
    subst hyo
    obtain ⟨hacc, hb₁⟩ := balanced_owner hw₀ o₀ hcached₀ rfl (refs_ofDoc ho)
      ((refOf_push (w.post .infos e d) _ _).symm.trans (refOf_ofDoc (w := w.post .infos e d) ho (.inr rfl))) hdoc ⟨rfl, rfl, rfl⟩ got
    obtain ⟨b', x', hg', hcore, -⟩ := hq.same (Lib.Heap.get_push_next _ _) rfl
    simp only [IFromDB.core, Prod.mk.injEq] at hcore
    obtain rfl : w₂ = w₁ := by
      refine grouped_of_noGroup (hq.sound (sound_push hw₀ _)) hgr hg' ?_ fun i => ?_
      · rw [← refOf_of_get hg', got.refOf (push_is hs₀ ho).alive (.inr (by simp [Getter.field]))]
        exact refOf_ofDoc ho (.inl rfl)
      · rw [hcore.2.1]
        simpa [Collection.withId] using toDoc_noGroup hd hxo hxr i
    exact hfinish hb₁ hq got hacc ⟨_, ho, rfl⟩ ha

/-! ### Every run -/

/-- The states in which an action keeps the counts: a listing with a query loads nothing, a setter and `addStudent`
overwrite a null pointer, a getter fills none, `getStudents` makes the same list again, `deleteStudent` erases the
student's own entry, and what is stored or destroyed points to nothing, an info with its owner apart. -/
def Action.counts (a : Action) (w : World) : Prop :=
  match a with
  | .getAll k => w.isChanged k = true → ∀ o d, w.stored k o = some d → Controller.admits k d = .ok true →
      w.cached k o ≠ none
  | .findFullAccount _ => False
  | .add k e t => if k = .infos ∧ t ≠ .admin then GivesOwner w e else w.pointees e = []
  | .delete k oid => ∀ p, w.victim k oid = some p → w.countOf p = some 1 → w.pointees p = []
  | .setRef f this _ => ∀ p, w.refOf this f ≠ some (.to p)
  | .setStudents this _ => w.students this = []
  | .get g this => ¬ g.finds w this ∧
      ∀ p, w.refOf this g.field = some (.to p) → ¬ w.Alive p → w.countOf p = some 1 → w.pointees p = []
  | .getStudents this => (w.students this).Perm (w.cachedStudents (w.docMembers this)) ∧
      ∀ o ∈ w.docMembers this, w.cached .infos o = none → w.stored .infos o = none
  | .addStudent _ stud => ∀ p, w.refOf stud .group ≠ some (.to p)
  | .deleteStudent this stud => (∃ p ∈ w.students this, w.idOf p = w.idOf stud) →
      (∀ p, w.refOf stud .group ≠ some (.to p)) ∧
        (w.students this).find? (fun p => w.idOf p = w.idOf stud) = some stud
  | _ => True

theorem balanced_step {a : Action} (h : Balanced w) (hw : Sound w) (hs : a.Step w w') (hg : a.counts w) :
    Balanced w' := by
  unfold Action.Step at hs
  cases a <;> simp only [Action.cmd, run_bind_iff, run_pure_iff] at hs
  case getFromDB => obtain ⟨_, _, hs, -, rfl⟩ := hs; exact balanced_getFromDB h hw hs
  case getAll k =>
    obtain ⟨_, _, hs, -, rfl⟩ := hs
    rcases run_getAll_iff.mp hs with ⟨-, -, rfl⟩ | ⟨hc, w₁, h₁, rfl⟩
    · exact h
    · have hdocs : ∀ d ∈ (w.env.coll k).docs, ∀ o, Controller.admits k d = .ok true →
          d.get? "_id" = some (.oid o) → w.cached k o ≠ none :=
        fun d hd o ha hi => hg hc o d (Collection.get?_of_mem hd hi) ha
      obtain rfl := collect_of_cached (hw.live k) hdocs h₁
      exact h.of_mem rfl (by simp)
  case getAllTeachers =>
    obtain ⟨_, _, hs, -, rfl⟩ := hs
    simp only [AccountsController.getAllTeachers, run_bind_iff, run_find_iff] at hs
    obtain ⟨_, _, ⟨rfl, rfl⟩, hs⟩ := hs
    exact balanced_collect h hw (listed_filter w _ _) hs
  case getAllSchedulesinDate =>
    obtain ⟨_, _, hs, -, rfl⟩ := hs
    simp only [ScheduleController.getAllSchedulesinDate, run_bind_iff, run_deref_iff, run_fromDB_iff,
      run_find_iff] at hs
    obtain ⟨_, _, ⟨-, rfl⟩, _, _, ⟨-, rfl⟩, _, _, ⟨rfl, rfl⟩, hs⟩ := hs
    exact balanced_collect h hw (listed_filter w _ _) hs
  case findFullAccount => exact hg.elim
  case new x =>
    obtain ⟨_, _, hs, -, rfl⟩ := hs
    obtain ⟨-, rfl⟩ := run_newObj_iff.mp hs
    exact h.push hw (by cases x <;> rfl) (by simp)
  case add k e t =>
    obtain ⟨_, _, hs, -, rfl⟩ := hs
    unfold add at hs
    split_ifs at hs with hk
    · subst hk
      obtain ⟨x, d, he, -, hd, -, ha⟩ := run_infosAdd hs
      refine balanced_infoAdded h hw he hd ha ?_
      by_cases ht : t = .admin
      · rw [if_pos ht]; simpa [Action.counts, ht] using hg
      · rw [if_neg ht]; simpa [Action.counts, ht] using hg
    · obtain ⟨x, d, o, he, -, -, -, ho, -, rfl⟩ := run_add_iff.mp hs
      refine balanced_added h hw he ho ?_
      rw [← pointees_of_get he]
      simpa [Action.counts, hk] using hg
  case delete => obtain ⟨_, _, hs, -, rfl⟩ := hs; exact balanced_deleted h hw (run_delete hw hs) hg
  case update => obtain ⟨_, _, hs, -, rfl⟩ := hs; exact h.of_update hs
  case setRef => exact balanced_setRef h hs hg
  case setStudents => exact balanced_setStudents h hs hg
  case get => obtain ⟨_, _, hs, -, rfl⟩ := hs; exact balanced_getter h hw (run_getter hw hs) hg.2 hg.1
  case getStudents => obtain ⟨_, _, hs, -, rfl⟩ := hs; exact balanced_getStudents h hw hs hg.2 hg.1
  case addStudent => obtain ⟨_, _, hs, -, rfl⟩ := hs; exact balanced_enrolled h (run_addStudent_iff.mp hs).2 hg
  case deleteStudent =>
    obtain ⟨_, _, hs, -, rfl⟩ := hs
    rcases run_deleteStudent hs with ⟨-, he⟩ | ⟨-, rfl⟩
    · exact balanced_expelled h he (hg he.found).1 (hg he.found).2
    · exact h

theorem balanced_start (db : Database) : Balanced (World.start db) := by
  constructor
  · intro p b x hp
    simp [World.start, Process.init, Lib.Conf.heap] at hp
  · intro q o hq
    simp [World.start, Process.init, Lib.Conf.heap] at hq

/-- Each count is the number of owners; what is cached and what a member points to has not been destroyed. -/
def CountsExact (w : World) : Prop :=
  (∀ p b x, w.heap.get p = some ⟨some b, x⟩ → b.ownedCount = w.share x.kind p + w.refs p) ∧
    (∀ k, ∀ p ∈ w.cash k, ∃ b x, w.heap.get p = some ⟨some b, x⟩) ∧
    ∀ q o, w.heap.get q = some o → ∀ p ∈ o.fields.refs, ∃ b x, w.heap.get p = some ⟨some b, x⟩

/-- The counts are exact after every run whose actions keep them. -/
theorem countsExact_of_run {db : Database} {as : List Action} {w : World}
    (hr : Lib.Run Action.Step Action.counts (World.start db) as w) : CountsExact w := by
  have hinv : Balanced w ∧ Sound w := by
    refine hr.invariant (I := fun w => Balanced w ∧ Sound w) ⟨balanced_start db, sound_start db⟩ ?_
    rintro a s s' ⟨hb, hs⟩ hg hstep
    exact ⟨balanced_step hb hs hstep hg, (outcome_of_step hs hstep).sound hs⟩
  obtain ⟨hb, hs⟩ := hinv
  refine ⟨fun p b x hp => by rw [hb.count p b x hp]; ring, fun k p hp => ?_, hb.closed⟩
  obtain ⟨b, x, hg, -⟩ := hs.entry k p hp
  exact ⟨b, x, hg⟩

/-- A check of the condition, for look-ups, setters and `addStudent`. -/
def Action.counts? (a : Action) (w : World) : Bool :=
  match a with
  | .getFromDB _ _ _ => true
  | .setRef f this _ => w.refOf this f = some .null
  | .addStudent _ stud => w.refOf stud .group = some .null
  | _ => false

theorem Action.counts_of_counts? {a : Action} (h : a.counts? w = true) : a.counts w := by
  cases a with
  | getFromDB => trivial
  | setRef f this v =>
    intro p hp
    simp [Action.counts?, hp] at h
  | addStudent this stud =>
    intro p hp
    simp [Action.counts?, hp] at h
  | _ => simp [Action.counts?] at h

/-- A student is added to a group: each of the two is held by a cache and by the other. -/
theorem countsExact_of_addStudent : ∃ w, w.countOf 0 = some 2 ∧ w.countOf 1 = some 2 ∧ CountsExact w := by
  have hplay : (Lib.playChecked Action.next? Action.counts? [.getFromDB .groups 0 .admin, .getFromDB .infos 1 .student,
      .addStudent 0 1] (World.start groupAndStudent)).any (fun w =>
        w.countOf 0 = some 2 ∧ w.countOf 1 = some 2) = true := by decide
  obtain ⟨w, hw, hc⟩ := Option.any_eq_true .. |>.mp hplay
  obtain ⟨hgroup, hstud⟩ := of_decide_eq_true hc
  exact ⟨w, hgroup, hstud, countsExact_of_run (.of_playChecked Action.step_of_next? Action.counts_of_counts? hw)⟩

/-- A log-in caches an object that is not counted. -/
theorem not_countsExact_of_every_run :
    ¬ ∀ db as w, Lib.Run Action.Step Lib.Free (World.start db) as w → CountsExact w := by
  intro h
  have hplay : ((Action.findFullAccount ⟨"login", "password"⟩).next? (World.start oneAccount)).any
      (fun w => w.countOf 0 = some 0 ∧ (w.heap.get 0).map (·.fields.kind) = some .accounts ∧ 0 ∈ w.cash .accounts) =
      true := by decide
  obtain ⟨w, hw, hc⟩ := Option.any_eq_true .. |>.mp hplay
  obtain ⟨hc, hk, hin⟩ := of_decide_eq_true hc
  have hexact := h _ _ w (.snoc .nil trivial (Action.step_of_next? hw))
  obtain ⟨b, x, hg⟩ := hexact.2.1 .accounts 0 hin
  rw [countOf_of_get hg, Option.some.injEq] at hc
  have hcount := hexact.1 0 b x hg
  have hnonneg := refs_nonneg w 0
  have hkind : x.kind = .accounts := by simpa [hg] using hk
  rw [hc, hkind, Lib.Conf.share, if_pos hin] at hcount
  omega

end Cbt
