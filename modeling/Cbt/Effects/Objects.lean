import Cbt.Effects.Lookup
import Cbt.Model.References

/-! What the setters and the getters do to memory, one equivalence or one list of
outcomes for each. A getter holds on to an object that exists, lets go of one
that does not, destroying it with its last owner, and fills a null pointer with
what its look-up yields. -/

namespace Cbt

open Lib.Command (run_bind_iff run_pure_iff run_fault_iff run_ofExcept_iff)

/-- An object with another pointer member. -/
def Obj.setRef (o : Obj) (f : RefField) (v : Pointer) : Obj := { o with fields := o.fields.setRef f v }

@[simp] theorem Obj.setRef_fromDB (o : Obj) (f : RefField) (v : Pointer) : (o.setRef f v).fromDB = o.fromDB := rfl
@[simp] theorem Obj.setRef_fields (o : Obj) (f : RefField) (v : Pointer) :
    (o.setRef f v).fields = o.fields.setRef f v := rfl

variable {w w' : World}

@[simp] theorem run_assign_iff {f : RefField} {this : ℕ} {v : Pointer} {u : Unit} :
    run (assign f this v) w = .ok (u, w') ↔ ∃ o, w.heap.get this = some o ∧ w.put this (o.setRef f v) = w' := by
  simp only [assign, run_bind_iff, run_obj_iff, run_setObj_iff]
  constructor
  · rintro ⟨o, _, ⟨ho, rfl⟩, rfl⟩; exact ⟨o, ho, rfl⟩
  · rintro ⟨o, ho, rfl⟩; exact ⟨o, w, ⟨ho, rfl⟩, rfl⟩

@[simp] theorem run_groupOf_iff {p : ℕ} {g : Group} :
    run (groupOf p) w = .ok (g, w') ↔ (∃ c, w.heap.get p = some ⟨c, .group g⟩) ∧ w = w' := by
  simp only [groupOf, run_bind_iff, run_obj_iff]
  constructor
  · rintro ⟨⟨c, x⟩, _, ⟨ho, rfl⟩, h⟩
    cases x <;> simp at h
    obtain ⟨rfl, rfl⟩ := h
    exact ⟨⟨c, ho⟩, rfl⟩
  · rintro ⟨⟨c, ho⟩, rfl⟩
    exact ⟨_, w, ⟨ho, rfl⟩, by simp⟩

@[simp] theorem run_accountType_iff {p : ℕ} {t : AccountType} :
    run (accountType p) w = .ok (t, w') ↔
      (∃ c a, w.heap.get p = some ⟨c, .account a⟩ ∧ a.accountType = t) ∧ w = w' := by
  simp only [accountType, run_bind_iff, run_obj_iff]
  constructor
  · rintro ⟨⟨c, x⟩, _, ⟨ho, rfl⟩, h⟩
    cases x <;> simp at h
    exact ⟨⟨c, _, ho, h.1⟩, h.2⟩
  · rintro ⟨⟨c, a, ho, rfl⟩, rfl⟩
    exact ⟨_, w, ⟨ho, rfl⟩, by simp⟩

@[simp] theorem run_checkStudent_iff {p : ℕ} {u : Unit} :
    run (checkStudent p) w = .ok (u, w') ↔ (∃ b s, w.heap.get p = some ⟨some b, .student s⟩) ∧ w = w' := by
  simp only [checkStudent, run_bind_iff, run_obj_iff]
  constructor
  · rintro ⟨⟨c, x⟩, _, ⟨ho, rfl⟩, h⟩
    cases x <;> cases c <;> simp [Fields.isStudent] at h
    exact ⟨⟨_, _, ho⟩, h⟩
  · rintro ⟨⟨b, s, ho⟩, rfl⟩
    exact ⟨_, w, ⟨ho, rfl⟩, by simp [Fields.isStudent]⟩

theorem run_checkStudents_iff {l : List ℕ} {u : Unit} :
    run (l.forM checkStudent) w = .ok (u, w') ↔ w = w' ∧ ∀ p ∈ l, ∃ b s, w.heap.get p = some ⟨some b, .student s⟩ := by
  induction l with
  | nil =>
    change run (pure ()) w = .ok (u, w') ↔ _
    rw [run_pure_iff]
    simp
  | cons p l ih =>
    change run (checkStudent p >>= fun _ => l.forM checkStudent) w = .ok (u, w') ↔ _
    rw [run_bind_iff]
    simp only [run_checkStudent_iff, List.forall_mem_cons]
    constructor
    · rintro ⟨_, _, ⟨hp, rfl⟩, h⟩
      obtain ⟨rfl, hl⟩ := ih.mp h
      exact ⟨rfl, hp, hl⟩
    · rintro ⟨rfl, hp, hl⟩
      exact ⟨⟨⟩, w, ⟨hp, rfl⟩, ih.mpr ⟨rfl, hl⟩⟩

@[simp] theorem run_assignStudents_iff {this : ℕ} {l : List ℕ} {u : Unit} :
    run (assignStudents this l) w = .ok (u, w') ↔
      ∃ c g, w.heap.get this = some ⟨c, .group g⟩ ∧ w.put this ⟨c, .group { g with students := l }⟩ = w' := by
  simp only [assignStudents, run_bind_iff, run_obj_iff, run_groupOf_iff, run_setObj_iff]
  constructor
  · rintro ⟨o, _, ⟨ho, rfl⟩, g, _, ⟨⟨c, hg⟩, rfl⟩, rfl⟩
    obtain rfl := Option.some.inj (ho.symm.trans hg)
    exact ⟨c, g, hg, rfl⟩
  · rintro ⟨c, g, hg, rfl⟩
    exact ⟨_, w, ⟨hg, rfl⟩, g, w, ⟨⟨c, hg⟩, rfl⟩, rfl⟩

/-- `dynamic_cast` yields the object when it is of the class. -/
theorem run_cast_iff {isClass : Fields → Bool} {r r' : Option ℕ} :
    run (cast isClass r) w = .ok (r', w') ↔
      w = w' ∧ (r = none ∧ r' = none ∨
        ∃ p o, r = some p ∧ w.heap.get p = some o ∧ r' = if isClass o.fields then some p else none) := by
  cases r with
  | none =>
    rw [cast, run_pure_iff]
    constructor
    · rintro ⟨rfl, rfl⟩; exact ⟨rfl, .inl ⟨rfl, rfl⟩⟩
    · rintro ⟨rfl, ⟨-, rfl⟩ | ⟨p, o, hp, -⟩⟩
      · exact ⟨rfl, rfl⟩
      · cases hp
  | some p =>
    simp only [cast, run_bind_iff, run_obj_iff, run_pure_iff]
    constructor
    · rintro ⟨o, _, ⟨ho, rfl⟩, hr, rfl⟩; exact ⟨rfl, .inr ⟨p, o, rfl, ho, hr.symm⟩⟩
    · rintro ⟨rfl, ⟨h, -⟩ | ⟨q, o, hq, ho, rfl⟩⟩
      · cases h
      · obtain rfl := Option.some.inj hq
        exact ⟨o, w, ⟨ho, rfl⟩, rfl, rfl⟩

/-! ### Setters -/

/-- A setter that takes a null pointer. -/
theorem run_setRef_none_iff {f : RefField} {this : ℕ} {u : Unit} :
    run (setRef f this none) w = .ok (u, w') ↔
      ∃ o v, w.heap.get this = some o ∧ o.fields.ref f = some v ∧ w.put this (o.setRef f .null) = w' := by
  simp only [setRef, run_bind_iff, run_obj_iff]
  constructor
  · rintro ⟨o, _, ⟨ho, rfl⟩, h⟩
    cases hv : o.fields.ref f with
    | none => simp [hv, run_bind_iff] at h
    | some v =>
      simp only [hv, Option.isNone_some, Bool.false_eq_true, if_false, run_assign_iff] at h
      obtain ⟨o', ho', rfl⟩ := h
      obtain rfl := Option.some.inj (ho.symm.trans ho')
      exact ⟨o, v, ho, hv, rfl⟩
  · rintro ⟨o, v, ho, hv, rfl⟩
    exact ⟨o, w, ⟨ho, rfl⟩, by simpa [hv] using ⟨o, ho, rfl⟩⟩

/-- A setter that takes an object: the member takes the pointer and the object is counted. -/
theorem run_setRef_some_iff {f : RefField} {this q : ℕ} {u : Unit} :
    run (setRef f this (some q)) w = .ok (u, w') ↔
    ∃ o v oq b x, w.heap.get this = some o ∧ o.fields.ref f = some v ∧ w.heap.get q = some oq ∧
      f.admits oq.fields = true ∧ (w.put this (o.setRef f (.to q))).heap.get q = some ⟨some b, x⟩ ∧
      (w.put this (o.setRef f (.to q))).put q ⟨some (b.own 1), x⟩ = w' := by
  simp only [setRef, run_bind_iff, run_obj_iff]
  constructor
  · rintro ⟨o, _, ⟨ho, rfl⟩, h⟩
    cases hv : o.fields.ref f with
    | none => simp [hv, run_bind_iff] at h
    | some v =>
      simp only [hv, Option.isNone_some, Bool.false_eq_true, if_false, run_bind_iff, run_obj_iff] at h
      obtain ⟨oq, _, ⟨hq, rfl⟩, h⟩ := h
      cases ha : f.admits oq.fields with
      | false => simp [ha, run_bind_iff] at h
      | true =>
        simp only [ha, Bool.true_eq_false, if_false, run_bind_iff, run_assign_iff, run_own_iff] at h
        obtain ⟨_, _, ⟨o', ho', rfl⟩, b, x, hb, rfl⟩ := h
        obtain rfl := Option.some.inj (ho.symm.trans ho')
        exact ⟨o, v, oq, b, x, ho, hv, hq, ha, hb, rfl⟩
  · rintro ⟨o, v, oq, b, x, ho, hv, hq, ha, hb, rfl⟩
    refine ⟨o, w, ⟨ho, rfl⟩, ?_⟩
    simp only [hv, Option.isNone_some, Bool.false_eq_true, if_false, run_bind_iff, run_obj_iff]
    refine ⟨oq, w, ⟨hq, rfl⟩, ?_⟩
    simp only [ha, Bool.true_eq_false, if_false, run_bind_iff, run_assign_iff, run_own_iff]
    exact ⟨⟨⟩, _, ⟨o, ho, rfl⟩, b, x, hb, rfl⟩

/-! ### Getters -/

/-- The end of a getter: it holds on to the object, or lets go of it, or destroys it as well. -/
inductive Settled (w : World) (f : RefField) (this p : ℕ) : Option ℕ → World → Prop
  | held {b : IFromDB} {x : Fields} (hp : w.heap.get p = some ⟨some b, x⟩) (hb : b.isExist = true) :
      Settled w f this p (some p) w
  | letGo {b : IFromDB} {x : Fields} {o : Obj} (hp : w.heap.get p = some ⟨some b, x⟩) (hb : b.isExist = false)
      (hn : b.ownedCount ≠ 1) (ho : (w.put p ⟨some (b.own (-1)), x⟩).heap.get this = some o) :
      Settled w f this p none ((w.put p ⟨some (b.own (-1)), x⟩).put this (o.setRef f .null))
  | freed {b : IFromDB} {x : Fields} {o : Obj} (hp : w.heap.get p = some ⟨some b, x⟩) (hb : b.isExist = false)
      (hn : b.ownedCount = 1) (ht : this ≠ p) (ho : w.heap.get this = some o) :
      Settled w f this p none ((w.free p).put this (o.setRef f .null))

theorem free_put (p : ℕ) (o : Obj) : (w.put p o).free p = w.free p := by
  simp [Lib.Conf.put, Lib.Conf.free, Lib.Conf.setHeap, Lib.Heap.set, Lib.Heap.free, Lib.Conf.heap]

theorem run_settle {f : RefField} {this p : ℕ} {r : Option ℕ} (h : run (settle f this p) w = .ok (r, w')) :
    Settled w f this p r w' := by
  simp only [settle, run_bind_iff, run_fromDB_iff] at h
  obtain ⟨b, _, ⟨hb, rfl⟩, h⟩ := h
  obtain ⟨x, hp⟩ := header_eq_ok.mp hb
  cases he : b.isExist with
  | true =>
    simp only [he, if_true, run_pure_iff] at h
    obtain ⟨rfl, rfl⟩ := h
    exact .held hp he
  | false =>
    simp only [he, Bool.false_eq_true, if_false, run_bind_iff, run_own_iff, run_fromDB_iff] at h
    obtain ⟨_, _, ⟨b', x', hp', rfl⟩, b₁, _, ⟨hb₁, rfl⟩, h⟩ := h
    obtain ⟨rfl, rfl⟩ : b' = b ∧ x' = x := by simpa [hp] using hp'.symm
    obtain rfl : b'.own (-1) = b₁ := by
      obtain ⟨x₁, hx₁⟩ := header_eq_ok.mp hb₁
      simp only [Lib.Conf.heap_put, Lib.Heap.get_set _ hp, if_true, Option.some.injEq, Obj.mk.injEq] at hx₁
      exact hx₁.1
    by_cases hn : (b'.own (-1)).ownedCount = 0
    · simp only [hn, if_true, run_bind_iff, run_destroy_iff, run_assign_iff, run_pure_iff] at h
      obtain ⟨_, _, ⟨-, rfl⟩, _, _, ⟨o, ho, rfl⟩, rfl, rfl⟩ := h
      rw [free_put] at ho ⊢
      have ht : this ≠ p := by
        rintro rfl
        simp [Lib.Heap.get_free] at ho
      rw [Lib.Conf.heap_free, Lib.Heap.get_free, if_neg ht] at ho
      exact .freed hp he (by simp [IFromDB.own] at hn; omega) ht ho
    · simp only [hn, if_false, run_bind_iff, run_assign_iff, run_pure_iff] at h
      obtain ⟨_, _, ⟨o, ho, rfl⟩, rfl, rfl⟩ := h
      exact .letGo hp he (by simp [IFromDB.own] at hn; omega) ho

/-- A getter: the pointer is settled, or it is null and stays null for want of an id or of an object, or
it takes the object that is loaded. -/
inductive Got (w : World) (f : RefField) (key : String) (load : Oid → Cmd (Option ℕ)) (this : ℕ) :
    Option ℕ → World → Prop
  | settled {o : Obj} {p : ℕ} {r : Option ℕ} {w' : World} (ho : w.heap.get this = some o)
      (hv : o.fields.ref f = some (.to p)) (hs : Settled w f this p r w') : Got w f key load this r w'
  | absent {b : IFromDB} {x : Fields} {v : Bson} (ho : w.heap.get this = some ⟨some b, x⟩)
      (hn : x.ref f = some .null) (hv : b.doc.get? key = some v) (hi : v.oid? = none) :
      Got w f key load this none w
  | missed {b : IFromDB} {x : Fields} {oid : Oid} {w' : World} (ho : w.heap.get this = some ⟨some b, x⟩)
      (hn : x.ref f = some .null) (hv : b.doc.get? key = some (.oid oid))
      (hl : run (load oid) w = .ok (none, w')) : Got w f key load this none w'
  | loaded {b : IFromDB} {x : Fields} {oid : Oid} {p : ℕ} {o₁ : Obj} {r : Option ℕ} {w₁ w' : World}
      (ho : w.heap.get this = some ⟨some b, x⟩)
      (hn : x.ref f = some .null) (hv : b.doc.get? key = some (.oid oid))
      (hl : run (load oid) w = .ok (some p, w₁)) (h₁ : w₁.heap.get this = some o₁)
      (hs : Settled (w₁.put this (o₁.setRef f (.to p))) f this p r w') : Got w f key load this r w'

theorem run_getRef {f : RefField} {key : String} {load : Oid → Cmd (Option ℕ)} {this : ℕ} {r : Option ℕ}
    (h : run (getRef f key load this) w = .ok (r, w')) : Got w f key load this r w' := by
  simp only [getRef, run_bind_iff, run_obj_iff] at h
  obtain ⟨o, _, ⟨ho, rfl⟩, h⟩ := h
  cases hr : o.fields.ref f with
  | none => simp [hr] at h
  | some v =>
    cases v with
    | uninit => simp [hr] at h
    | «to» p => exact .settled ho hr (run_settle (by simpa [hr] using h))
    | null =>
      simp only [hr, run_bind_iff, run_fromDB_iff, run_ofExcept_iff, Doc.elem_eq_ok] at h
      obtain ⟨b, _, ⟨hb, rfl⟩, v, _, ⟨hv, rfl⟩, h⟩ := h
      obtain ⟨x, hx⟩ := header_eq_ok.mp hb
      obtain rfl := Option.some.inj (ho.symm.trans hx)
      cases hoid : v.oid? with
      | none =>
        simp only [hoid, run_pure_iff] at h
        obtain ⟨rfl, rfl⟩ := h
        exact .absent hx hr hv hoid
      | some oid =>
        obtain rfl := Bson.oid?_eq_some.mp hoid
        simp only [hoid, run_bind_iff] at h
        obtain ⟨q, w₁, h₁, h₂⟩ := h
        cases q with
        | none =>
          simp only [run_pure_iff] at h₂
          obtain ⟨rfl, rfl⟩ := h₂
          exact .missed hx hr hv h₁
        | some p =>
          simp only [run_bind_iff, run_assign_iff] at h₂
          obtain ⟨_, _, ⟨o₁, ho₁, rfl⟩, h₂⟩ := h₂
          exact .loaded hx hr hv h₁ ho₁ (run_settle h₂)

/-- Settling an object that exists changes nothing. -/
theorem Settled.of_alive {f : RefField} {this p : ℕ} {r : Option ℕ} (h : Settled w f this p r w')
    (hp : w.Alive p) : r = some p ∧ w' = w := by
  obtain ⟨b, x, hg, hb⟩ := hp
  cases h with
  | held => exact ⟨rfl, rfl⟩
  | letGo hp' hb' =>
    obtain ⟨rfl, rfl⟩ : _ = b ∧ _ = x := by simpa [hg] using hp'.symm
    simp [hb] at hb'
  | freed hp' hb' =>
    obtain ⟨rfl, rfl⟩ : _ = b ∧ _ = x := by simpa [hg] using hp'.symm
    simp [hb] at hb'

/-! ### Members of a group -/

/-- One member of a group: it is looked up, and becomes a student of the group when it is one. -/
theorem run_loadStudents_cons_iff {this : ℕ} {v : Element} {vs : List Element} {u : Unit} :
    run (GroupDB.loadStudents this (v :: vs)) w = .ok (u, w') ↔
    ∃ oid r w₁, v = .oid oid ∧ run (InfosController.getFromDB oid .student) w = .ok (r, w₁) ∧
      ((r = none ∨ ∃ p o, r = some p ∧ w₁.heap.get p = some o ∧ o.fields.isStudent = false) ∧
          run (GroupDB.loadStudents this vs) w₁ = .ok (u, w') ∨
        ∃ p b x, r = some p ∧ w₁.heap.get p = some ⟨some b, x⟩ ∧ x.isStudent = true ∧
          (b.isExist = false ∧ run (GroupDB.loadStudents this vs) w₁ = .ok (u, w') ∨
            b.isExist = true ∧ ∃ c g, w₁.heap.get this = some ⟨c, .group g⟩ ∧
              run (GroupDB.loadStudents this vs)
                (w₁.put this ⟨c, .group { g with students := g.students ++ [p] }⟩) = .ok (u, w'))) := by
  simp only [GroupDB.loadStudents, run_bind_iff, run_ofExcept_iff, run_cast_iff]
  constructor
  · rintro ⟨oid, _, ⟨hv, rfl⟩, r, w₁, h₁, r', _, ⟨rfl, hr⟩, h₂⟩
    obtain rfl : v = .oid oid := by cases v <;> simp_all [Element.getOid]
    refine ⟨oid, r, w₁, rfl, h₁, ?_⟩
    rcases hr with ⟨rfl, rfl⟩ | ⟨p, o, rfl, hp, rfl⟩
    · exact .inl ⟨.inl rfl, h₂⟩
    cases hs : o.fields.isStudent with
    | false =>
      rw [hs] at h₂
      exact .inl ⟨.inr ⟨p, o, rfl, hp, hs⟩, h₂⟩
    | true =>
      simp only [hs, if_true, run_bind_iff, run_fromDB_iff] at h₂
      obtain ⟨b, _, ⟨hb, rfl⟩, h₂⟩ := h₂
      obtain ⟨x, hx⟩ := header_eq_ok.mp hb
      obtain rfl := Option.some.inj (hp.symm.trans hx)
      refine .inr ⟨p, b, x, rfl, hx, hs, ?_⟩
      cases he : b.isExist with
      | false => exact .inl ⟨rfl, by simpa [he] using h₂⟩
      | true =>
        simp only [he, if_true, run_bind_iff, run_groupOf_iff, run_assignStudents_iff] at h₂
        obtain ⟨g, _, ⟨⟨c, hc⟩, rfl⟩, _, _, ⟨c', g', hg', rfl⟩, h₂⟩ := h₂
        obtain ⟨rfl, rfl⟩ : c' = c ∧ g' = g := by simpa [hc] using hg'.symm
        exact .inr ⟨rfl, c', g', hc, h₂⟩
  · rintro ⟨oid, r, w₁, rfl, h₁, h⟩
    refine ⟨oid, w, ⟨rfl, rfl⟩, r, w₁, h₁, ?_⟩
    rcases h with ⟨rfl | ⟨p, o, rfl, hp, ho⟩, h⟩ | ⟨p, b, x, rfl, hp, hx, h⟩
    · exact ⟨none, w₁, ⟨rfl, .inl ⟨rfl, rfl⟩⟩, h⟩
    · exact ⟨none, w₁, ⟨rfl, .inr ⟨p, o, rfl, hp, by simp [ho]⟩⟩, h⟩
    · refine ⟨some p, w₁, ⟨rfl, .inr ⟨p, _, rfl, hp, by simp [hx]⟩⟩, ?_⟩
      simp only [run_bind_iff, run_fromDB_iff]
      refine ⟨b, w₁, ⟨header_eq_ok.mpr ⟨x, hp⟩, rfl⟩, ?_⟩
      rcases h with ⟨hb, h⟩ | ⟨hb, c, g, hg, h⟩
      · simpa [hb] using h
      · simp only [hb, if_true, run_bind_iff, run_groupOf_iff, run_assignStudents_iff]
        exact ⟨g, w₁, ⟨⟨c, hg⟩, rfl⟩, ⟨⟩, _, ⟨c, g, hg, rfl⟩, h⟩

/-- `getStudents` clears the students and loads the members its own document lists. -/
theorem run_getStudents_iff {this : ℕ} {r : List ℕ} : run (GroupDB.getStudents this) w = .ok (r, w') ↔
    ∃ b g v, w.heap.get this = some ⟨some b, .group g⟩ ∧ b.doc.get? "Members" = some v ∧
      ((∃ vs, v = .array vs ∧ run (GroupDB.loadStudents this vs)
          (w.put this ⟨some b, .group { g with students := [] }⟩) = .ok ((), w')) ∨
        (∀ vs, v ≠ .array vs) ∧ w' = w.put this ⟨some b, .group { g with students := [] }⟩) ∧
      ∃ c g', w'.heap.get this = some ⟨c, .group g'⟩ ∧ g'.students = r := by
  have tail : ∀ {w₁ : World}, run (do return (← groupOf this).students) w₁ = .ok (r, w') ↔
      w₁ = w' ∧ ∃ c g', w'.heap.get this = some ⟨c, .group g'⟩ ∧ g'.students = r := by
    intro w₁
    simp only [run_bind_iff, run_groupOf_iff, run_pure_iff]
    constructor
    · rintro ⟨g', _, ⟨⟨c', h'⟩, rfl⟩, rfl, rfl⟩
      exact ⟨rfl, c', g', h', rfl⟩
    · rintro ⟨rfl, c', g', h', rfl⟩
      exact ⟨g', w₁, ⟨⟨c', h'⟩, rfl⟩, rfl, rfl⟩
  simp only [GroupDB.getStudents, run_bind_iff, run_assignStudents_iff, run_fromDB_iff, run_ofExcept_iff,
    Doc.elem_eq_ok]
  constructor
  · rintro ⟨_, _, ⟨c, g, hg, rfl⟩, b, _, ⟨hb, rfl⟩, v, _, ⟨hv, rfl⟩, h⟩
    obtain ⟨x, hx⟩ := header_eq_ok.mp hb
    rw [Lib.Conf.heap_put, Lib.Heap.get_set _ hg, if_pos rfl, Option.some.injEq, Obj.mk.injEq] at hx
    obtain ⟨rfl, -⟩ := hx
    refine ⟨b, g, v, hg, hv, ?_⟩
    cases v with
    | array vs =>
      obtain ⟨_, w₁, h₁, h₂⟩ := (run_bind_iff _).mp h
      obtain ⟨rfl, ht⟩ := tail.mp h₂
      exact ⟨.inl ⟨vs, rfl, h₁⟩, ht⟩
    | int32 | int64 | string | oid =>
      obtain ⟨rfl, ht⟩ := tail.mp h
      exact ⟨.inr ⟨by simp, rfl⟩, ht⟩
  · rintro ⟨b, g, v, hg, hv, h, ht⟩
    have hb : header (w.put this ⟨some b, .group { g with students := [] }⟩).heap this = .ok b :=
      header_eq_ok.mpr ⟨_, by rw [Lib.Conf.get_put hg, if_pos rfl]⟩
    refine ⟨⟨⟩, _, ⟨some b, g, hg, rfl⟩, b, _, ⟨hb, rfl⟩, v, _, ⟨hv, rfl⟩, ?_⟩
    rcases h with ⟨vs, rfl, h⟩ | ⟨hv, rfl⟩
    · exact (run_bind_iff _).mpr ⟨⟨⟩, w', h, tail.mpr ⟨rfl, ht⟩⟩
    · cases v with
      | array vs => exact absurd rfl (hv vs)
      | int32 | int64 | string | oid => exact tail.mpr ⟨rfl, ht⟩

end Cbt
