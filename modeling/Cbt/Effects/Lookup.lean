import Cbt.Model.References

/-! What look-ups and listings do. While no cached object is marked as deleted, a
look-up leaves the world as it is and finds the first cached object with the id,
and a load appends one object built from the stored document. -/

namespace Cbt

open Lib.Command (run_bind_iff run_pure_iff run_fault_iff run_ofExcept_iff)

/-- `OwnedCount` changed by a number. -/
def Obj.own (n : ℤ) (o : Obj) : Obj := { o with fromDB := o.fromDB.map (IFromDB.own n) }

@[simp] theorem Obj.own_fields (n : ℤ) (o : Obj) : (o.own n).fields = o.fields := rfl

namespace Lib.Conf

/-- The `_id` of the object at an address. -/
def idOf (w : Conf Database Process) (p : ℕ) : Option Oid := ((w.heap.get p).bind (·.fromDB)).map (·.id)

/-- The object at an address is there and `isExist`. -/
def Alive (w : Conf Database Process) (p : ℕ) : Prop :=
  ∃ b x, w.heap.get p = some ⟨some b, x⟩ ∧ b.isExist = true

/-- The first cached object with an id. -/
def cached (w : Conf Database Process) (k : Kind) (oid : Oid) : Option ℕ :=
  (w.cash k).find? fun p => w.idOf p = some oid

/-- Allocate an object and cache it. -/
def load (w : Conf Database Process) (k : Kind) (o : Obj) : Conf Database Process :=
  (w.push o).setCash k (w.cash k ++ [w.heap.next])

/-- No cached object is marked as deleted. -/
def Live (w : Conf Database Process) (k : Kind) : Prop := ∀ p ∈ w.cash k, w.Alive p

section
variable {w : Conf Database Process}

theorem idOf_of_get {p : ℕ} {b : IFromDB} {x : Fields} (h : w.heap.get p = some ⟨some b, x⟩) :
    w.idOf p = some b.id := by simp [idOf, h]

theorem cached_mem {k : Kind} {oid : Oid} {p : ℕ} (h : w.cached k oid = some p) : p ∈ w.cash k :=
  List.mem_of_find?_eq_some h

theorem cached_idOf {k : Kind} {oid : Oid} {p : ℕ} (h : w.cached k oid = some p) : w.idOf p = some oid := by
  simpa using List.find?_some h

theorem cached_eq_none {k : Kind} {oid : Oid} :
    w.cached k oid = none ↔ ∀ p ∈ w.cash k, w.idOf p ≠ some oid := by
  simp [cached, List.find?_eq_none]

@[simp] theorem env_load (k : Kind) (o : Obj) : (w.load k o).env = w.env := rfl
@[simp] theorem heap_load (k : Kind) (o : Obj) : (w.load k o).heap = w.heap.push o := rfl
@[simp] theorem stored_load (k : Kind) (o : Obj) : (w.load k o).stored = w.stored := rfl
@[simp] theorem isChanged_load (k : Kind) (o : Obj) : (w.load k o).isChanged = w.isChanged := by simp [load]

theorem cash_load (k : Kind) (o : Obj) (k' : Kind) :
    (w.load k o).cash k' = if k' = k then w.cash k ++ [w.heap.next] else w.cash k' := by
  simp [load, cash_setCash]

end

end Lib.Conf

variable {w w' : World} {k : Kind}

/-- The object a constructor makes keeps the document and its `_id` and is not counted yet. -/
theorem ofDoc_eq_ok {c : DBClass} {d : Doc} {o : Obj} :
    c.ofDoc d = .ok o ↔ ∃ x i, c.fields d = .ok x ∧ d.get? "_id" = some (.oid i) ∧
      o = ⟨some { doc := d, id := i }, x⟩ := by
  unfold DBClass.ofDoc IFromDB.ofDoc
  constructor
  · intro h
    cases hx : c.fields d with
    | error e => simp [hx, bind, Except.bind] at h
    | ok x =>
      cases hi : d.getOid "_id" with
      | error e => simp [hx, hi, bind, Except.bind] at h
      | ok i =>
        simp only [hx, hi, bind, Except.bind, pure, Except.pure, Except.ok.injEq] at h
        exact ⟨x, i, rfl, Doc.getOid_eq_ok.mp hi, h.symm⟩
  · rintro ⟨x, i, hx, hi, rfl⟩
    simp [hx, Doc.getOid_eq_ok.mpr hi, bind, Except.bind, pure, Except.pure]

/-- A step of the loop over an object that exists. -/
theorem run_scan_iff (oid : Oid) {l : List ℕ} (hl : ∀ p ∈ l, w.Alive p) {r : Option ℕ} :
    run (Controller.scan k oid l) w = .ok (r, w') ↔ l.find? (fun p => w.idOf p = some oid) = r ∧ w = w' := by
  induction l with
  | nil => simp [Controller.scan]
  | cons p l ih =>
    obtain ⟨b, x, hp, hb⟩ := hl p (by simp)
    have ih := ih fun q hq => hl q (by simp [hq])
    have hid : w.idOf p = some b.id := Lib.Conf.idOf_of_get hp
    simp only [Controller.scan, run_bind_iff, run_fromDB_iff]
    constructor
    · rintro ⟨b', _, ⟨hb', rfl⟩, h⟩
      obtain ⟨x', hx'⟩ := header_eq_ok.mp hb'
      rw [hp] at hx'
      simp only [Option.some.injEq, Obj.mk.injEq] at hx'
      obtain ⟨rfl, rfl⟩ := hx'
      rw [if_neg (by simp [hb])] at h
      by_cases he : b.id = oid
      · rw [if_pos he] at h
        obtain ⟨rfl, rfl⟩ := (run_pure_iff _).mp h
        simp [hid, he]
      · rw [if_neg he] at h
        rw [List.find?_cons_of_neg (by simp [hid, he])]
        exact ih.mp h
    · intro h
      refine ⟨b, w, ⟨header_eq_ok.mpr ⟨x, hp⟩, rfl⟩, ?_⟩
      rw [if_neg (by simp [hb])]
      by_cases he : b.id = oid
      · rw [if_pos he]
        rw [List.find?_cons_of_pos (by simp [hid, he])] at h
        exact (run_pure_iff _).mpr h
      · rw [if_neg he]
        rw [List.find?_cons_of_neg (by simp [hid, he])] at h
        exact ih.mpr h

/-- Without deleted objects in the cache, a look-up changes nothing. -/
theorem run_isAlredyInCash_iff (hl : w.Live k) {oid : Oid} {r : Option ℕ} :
    run (Controller.isAlredyInCash k oid) w = .ok (r, w') ↔ w.cached k oid = r ∧ w = w' := by
  simp only [Controller.isAlredyInCash, run_bind_iff, run_cash_iff]
  constructor
  · rintro ⟨_, _, ⟨rfl, rfl⟩, h⟩; exact (run_scan_iff oid hl).mp h
  · intro h; exact ⟨_, _, ⟨rfl, rfl⟩, (run_scan_iff oid hl).mpr h⟩

@[simp] theorem run_pushBack_iff {p : ℕ} {u : Unit} :
    run (Controller.pushBack k p) w = .ok (u, w') ↔ w.setCash k (w.cash k ++ [p]) = w' := by
  simp only [Controller.pushBack, run_bind_iff, run_cash_iff, run_setCash_iff]
  constructor
  · rintro ⟨_, _, ⟨rfl, rfl⟩, rfl⟩; rfl
  · rintro rfl; exact ⟨_, _, ⟨rfl, rfl⟩, rfl⟩

@[simp] theorem run_remove_iff {p : ℕ} {u : Unit} :
    run (Controller.remove k p) w = .ok (u, w') ↔ w.setCash k ((w.cash k).filter (· ≠ p)) = w' := by
  simp only [Controller.remove, run_bind_iff, run_cash_iff, run_setCash_iff]
  constructor
  · rintro ⟨_, _, ⟨rfl, rfl⟩, rfl⟩; rfl
  · rintro rfl; exact ⟨_, _, ⟨rfl, rfl⟩, rfl⟩

/-- A look-up in the cache, then in the collection: the object is cached, there is none, or it is built by the
class and cached. -/
inductive Looked (w : World) (k : Kind) (oid : Oid) (c? : Option DBClass) : Option ℕ → World → Prop
  | hit {p : ℕ} (h : w.cached k oid = some p) : Looked w k oid c? (some p) w
  | absent (h : w.cached k oid = none) (hs : w.stored k oid = none ∨ c? = none) : Looked w k oid c? none w
  | loaded {c : DBClass} {d : Doc} {o : Obj} (h : w.cached k oid = none) (hs : w.stored k oid = some d)
      (hc : c? = some c) (ho : c.ofDoc d = .ok o) :
      Looked w k oid c? (some w.heap.next) (w.load k (o.own 1))

/-- What is stored under an id can be loaded as an object of a class, unless its object is cached. -/
def Lib.Conf.Loadable (w : World) (k : Kind) (c? : Option DBClass) (oid : Oid) : Prop :=
  w.cached k oid = none → ∀ d, w.stored k oid = some d → ∀ c, c? = some c → ∃ o, c.ofDoc d = .ok o

theorem exists_looked_iff {k : Kind} {oid : Oid} {c? : Option DBClass} :
    (∃ r w', Looked w k oid c? r w') ↔ w.Loadable k c? oid := by
  constructor
  · rintro ⟨r, w', h⟩ hn d hd c rfl
    cases h with
    | hit hc => simp [hn] at hc
    | absent _ hs => simp [hd] at hs
    | loaded _ hs hcl ho =>
      obtain rfl := Option.some.inj hcl
      obtain rfl := Option.some.inj (hd.symm.trans hs)
      exact ⟨_, ho⟩
  · intro h
    cases hc : w.cached k oid with
    | some p => exact ⟨_, _, .hit hc⟩
    | none =>
      cases hs : w.stored k oid with
      | none => exact ⟨_, _, .absent hc (.inl hs)⟩
      | some d =>
        cases hcl : c? with
        | none => exact ⟨_, _, .absent hc (.inr rfl)⟩
        | some c =>
          obtain ⟨o, ho⟩ := h hc d hs c hcl
          exact ⟨_, _, .loaded hc hs rfl ho⟩

/-- Counting an object that was just allocated. -/
theorem own_push {o : Obj} (ho : o.fromDB.isSome) (n : ℤ) {u : Unit} {w₁ : World}
    (h : w₁.heap = w.heap.push o) :
    run (own w.heap.next n) w₁ = .ok (u, w') ↔ w₁.setHeap (w.heap.push (o.own n)) = w' := by
  obtain ⟨_ | b, x⟩ := o
  · simp at ho
  · rw [run_own_iff, h, Lib.Heap.get_push_next]
    constructor
    · rintro ⟨b', x', he, rfl⟩
      simp only [Option.some.injEq, Obj.mk.injEq] at he
      obtain ⟨rfl, rfl⟩ := he
      simp [Lib.Conf.put, h, Obj.own]
    · rintro rfl; exact ⟨b, x, rfl, by simp [Lib.Conf.put, h, Obj.own]⟩

theorem ofDoc_isSome {c : DBClass} {d : Doc} {o : Obj} (h : c.ofDoc d = .ok o) : o.fromDB.isSome := by
  obtain ⟨x, i, -, -, rfl⟩ := ofDoc_eq_ok.mp h
  rfl

theorem run_lookUp_iff (hl : w.Live k) {oid : Oid} {build : Doc → Cmd (Option ℕ)} {r : Option ℕ} :
    run (Controller.lookUp k oid build) w = .ok (r, w') ↔
      (∃ p, w.cached k oid = some p ∧ some p = r ∧ w = w') ∨
      (w.cached k oid = none ∧ w.stored k oid = none ∧ none = r ∧ w = w') ∨
      ∃ d, w.cached k oid = none ∧ w.stored k oid = some d ∧ run (build d) w = .ok (r, w') := by
  simp only [Controller.lookUp, run_bind_iff, run_isAlredyInCash_iff hl]
  constructor
  · rintro ⟨_, _, ⟨rfl, rfl⟩, h⟩
    cases hc : w.cached k oid with
    | some p => exact .inl ⟨p, rfl, by simpa [hc] using h⟩
    | none =>
      simp only [hc, run_bind_iff, run_findOne_byId_iff] at h
      obtain ⟨_, _, ⟨rfl, rfl⟩, h⟩ := h
      cases hs : w.stored k oid with
      | none => exact .inr (.inl ⟨rfl, rfl, by simpa [hs] using h⟩)
      | some d => exact .inr (.inr ⟨d, rfl, rfl, by simpa [hs] using h⟩)
  · rintro (⟨p, hc, hr, rfl⟩ | ⟨hc, hs, hr, rfl⟩ | ⟨d, hc, hs, h⟩) <;> refine ⟨_, _, ⟨rfl, rfl⟩, ?_⟩
    · simpa [hc] using hr
    · simp only [hc, run_bind_iff, run_findOne_byId_iff]
      exact ⟨_, _, ⟨rfl, rfl⟩, by simpa [hs] using hr⟩
    · simp only [hc, run_bind_iff, run_findOne_byId_iff]
      exact ⟨_, _, ⟨rfl, rfl⟩, by simpa [hs] using h⟩

/-- `GetFromDB` of the template. -/
theorem run_getFromDB_iff (hl : w.Live k) {oid : Oid} {r : Option ℕ} :
    run (Controller.getFromDB k oid) w = .ok (r, w') ↔ Looked w k oid (some k.dbClass) r w' := by
  simp only [Controller.getFromDB, run_lookUp_iff hl, run_bind_iff, run_construct_iff, run_pushBack_iff,
    run_pure_iff]
  constructor
  · rintro (⟨p, hc, rfl, rfl⟩ | ⟨hc, hs, rfl, rfl⟩ | ⟨d, hc, hs, _, _, ⟨o, ho, rfl, rfl⟩, _, _, rfl, _, _, h, rfl, rfl⟩)
    · exact .hit hc
    · exact .absent hc (.inl hs)
    · rw [own_push (ofDoc_isSome ho) 1 (by simp)] at h
      subst h
      exact .loaded hc hs rfl ho
  · rintro (hc | ⟨hc, hs⟩ | ⟨hc, hs, hcl, ho⟩)
    · exact .inl ⟨_, hc, rfl, rfl⟩
    · exact .inr (.inl ⟨hc, by simpa using hs, rfl, rfl⟩)
    · obtain rfl := Option.some.inj hcl
      exact .inr (.inr ⟨_, hc, hs, _, _, ⟨_, ho, rfl, rfl⟩, ⟨⟩, _, rfl, ⟨⟩, _,
        (own_push (ofDoc_isSome ho) 1 (by simp)).mpr rfl, rfl, rfl⟩)

/-- `GetFromDB` of the infos, which builds the class of the account type. -/
theorem run_infosGetFromDB_iff (hl : w.Live .infos) {oid : Oid} {t : AccountType} {r : Option ℕ} :
    run (InfosController.getFromDB oid t) w = .ok (r, w') ↔
      Looked w .infos oid (InfosController.classOf t) r w' := by
  simp only [InfosController.getFromDB, run_lookUp_iff hl]
  cases ht : InfosController.classOf t with
  | none =>
    simp only [run_pure_iff]
    constructor
    · rintro (⟨p, hc, rfl, rfl⟩ | ⟨hc, hs, rfl, rfl⟩ | ⟨d, hc, hs, rfl, rfl⟩)
      · exact .hit hc
      · exact .absent hc (.inl hs)
      · exact .absent hc (.inr rfl)
    · rintro (hc | ⟨hc, hs⟩ | ⟨hc, hs, hcl, ho⟩)
      · exact .inl ⟨_, hc, rfl, rfl⟩
      · cases hs' : w.stored .infos oid with
        | none => exact .inr (.inl ⟨hc, rfl, rfl, rfl⟩)
        | some d => exact .inr (.inr ⟨d, hc, rfl, rfl, rfl⟩)
      · cases hcl
  | some c =>
    simp only [run_bind_iff, run_construct_iff, run_pushBack_iff, run_pure_iff]
    constructor
    · rintro (⟨p, hc, rfl, rfl⟩ | ⟨hc, hs, rfl, rfl⟩ | ⟨d, hc, hs, _, _, ⟨o, ho, rfl, rfl⟩, _, _, h, _, _, rfl, rfl, rfl⟩)
      · exact .hit hc
      · exact .absent hc (.inl hs)
      · rw [own_push (ofDoc_isSome ho) 1 (by simp)] at h
        subst h
        exact .loaded hc hs rfl ho
    · rintro (hc | ⟨hc, hs⟩ | ⟨hc, hs, hcl, ho⟩)
      · exact .inl ⟨_, hc, rfl, rfl⟩
      · exact .inr (.inl ⟨hc, by simpa using hs, rfl, rfl⟩)
      · obtain rfl := Option.some.inj hcl
        exact .inr (.inr ⟨_, hc, hs, _, _, ⟨_, ho, rfl, rfl⟩, ⟨⟩, _,
          (own_push (ofDoc_isSome ho) 1 (by simp)).mpr rfl, ⟨⟩, _, rfl, rfl, rfl⟩)

end Cbt
