import Cbt.Effects.Writing

/-! What the operations on members of a group do, and what adding an info does.
Each is a fixed sequence of writes, setters and getters; the outcomes name the
worlds between them. -/

namespace Cbt

open Lib.Command (run_bind_iff run_pure_iff run_fault_iff run_ofExcept_iff)

variable {w w' : World} {this stud : ℕ}

/-- A student enters a group: the group is stored with it, then the student with the group. -/
structure Enrolled (w : World) (this stud : ℕ) (w' : World) : Prop where
  steps : ∃ bs s c g w₂ w₃ w₄, w.heap.get stud = some ⟨some bs, .student s⟩ ∧
    w.heap.get this = some ⟨c, .group g⟩ ∧
    run (Controller.update .groups this) (w.put this ⟨c, .group { g with students := g.students ++ [stud] }⟩) =
      .ok (true, w₂) ∧
    run (setRef .group stud (some this)) w₂ = .ok ((), w₃) ∧
    run (Controller.update .infos stud) w₃ = .ok (true, w₄) ∧ run (own stud 1) w₄ = .ok ((), w')

theorem run_addStudent_iff {r : Bool} :
    run (GroupDB.addStudent this (some stud)) w = .ok (r, w') ↔ r = true ∧ Enrolled w this stud w' := by
  have htrue : ∀ {k p b} {w₁ w₂ : World}, run (Controller.update k p) w₁ = .ok (b, w₂) → b = true := by
    intro k p b w₁ w₂ h
    obtain ⟨-, -, -, -, -, -, -, hb, -⟩ := run_update_iff.mp h
    exact hb
  simp only [GroupDB.addStudent, StudentInfo.setGroup, run_bind_iff, run_checkStudent_iff, run_groupOf_iff,
    run_assignStudents_iff, run_pure_iff]
  constructor
  · rintro ⟨_, _, ⟨⟨bs, s, hs⟩, rfl⟩, g, _, ⟨⟨c, hg⟩, rfl⟩, _, _, ⟨c', g', hg', rfl⟩, b₁, w₂, h₂, _, w₃, h₃, b₂, w₄,
      h₄, _, w₅, h₅, rfl, rfl⟩
    obtain ⟨rfl, rfl⟩ : c' = c ∧ g' = g := by simpa [hg] using hg'.symm
    obtain rfl := htrue h₂
    obtain rfl := htrue h₄
    exact ⟨rfl, bs, s, c', g', w₂, w₃, w₄, hs, hg, h₂, h₃, h₄, h₅⟩
  · rintro ⟨rfl, bs, s, c, g, w₂, w₃, w₄, hs, hg, h₂, h₃, h₄, h₅⟩
    exact ⟨⟨⟩, w, ⟨⟨bs, s, hs⟩, rfl⟩, g, w, ⟨⟨c, hg⟩, rfl⟩, ⟨⟩, _, ⟨c, g, hg, rfl⟩, true, w₂, h₂, ⟨⟩, w₃, h₃, true,
      w₄, h₄, ⟨⟩, w', h₅, rfl, rfl⟩

/-- The search of `deleteStudent`: nothing carries the id, or the first that does is left out. -/
theorem run_eraseFirst {id : Oid} {l : List ℕ} {r : Option (List ℕ)}
    (h : run (GroupDB.eraseFirst id l) w = .ok (r, w')) :
    w = w' ∧ (r = none ∧ (∀ p ∈ l, w.idOf p ≠ some id) ∨ ∃ l₁ p l₂, l = l₁ ++ p :: l₂ ∧
      (∀ q ∈ l₁, w.idOf q ≠ some id) ∧ w.idOf p = some id ∧ r = some (l₁ ++ l₂)) := by
  induction l generalizing r with
  | nil =>
    obtain ⟨rfl, rfl⟩ := (run_pure_iff _).mp h
    exact ⟨rfl, .inl ⟨rfl, by simp⟩⟩
  | cons q l ih =>
    simp only [GroupDB.eraseFirst, run_bind_iff, run_fromDB_iff] at h
    obtain ⟨b, _, ⟨hb, rfl⟩, h⟩ := h
    obtain ⟨x, hx⟩ := header_eq_ok.mp hb
    have hid : w.idOf q = some b.id := Lib.Conf.idOf_of_get hx
    by_cases he : b.id = id
    · rw [if_pos he] at h
      obtain ⟨rfl, rfl⟩ := (run_pure_iff _).mp h
      exact ⟨rfl, .inr ⟨[], q, l, rfl, by simp, by rw [hid, he], rfl⟩⟩
    · simp only [he, if_false, run_bind_iff, run_pure_iff] at h
      obtain ⟨r', _, h, rfl, rfl⟩ := h
      obtain ⟨rfl, ⟨rfl, hn⟩ | ⟨l₁, p, l₂, rfl, hn, hp, rfl⟩⟩ := ih h
      · refine ⟨rfl, .inl ⟨rfl, ?_⟩⟩
        intro p hp
        rcases List.mem_cons.mp hp with rfl | hp
        · rw [hid]; simpa using he
        · exact hn p hp
      · refine ⟨rfl, .inr ⟨q :: l₁, p, l₂, rfl, ?_, hp, rfl⟩⟩
        intro p hp
        rcases List.mem_cons.mp hp with rfl | hp
        · rw [hid]; simpa using he
        · exact hn p hp

/-- A student leaves a group: the first entry with its `_id` goes, the group is stored, then the student
without a group. -/
structure Expelled (w : World) (this stud : ℕ) (w' : World) : Prop where
  steps : ∃ bs s c g l₁ p l₂ w₂ w₃ w₄, w.heap.get stud = some ⟨some bs, .student s⟩ ∧
    w.heap.get this = some ⟨c, .group g⟩ ∧ g.students = l₁ ++ p :: l₂ ∧ (∀ q ∈ l₁, w.idOf q ≠ some bs.id) ∧
    w.idOf p = some bs.id ∧
    run (Controller.update .groups this) (w.put this ⟨c, .group { g with students := l₁ ++ l₂ }⟩) = .ok (true, w₂) ∧
    run (setRef .group stud none) w₂ = .ok ((), w₃) ∧
    run (Controller.update .infos stud) w₃ = .ok (true, w₄) ∧ run (own stud (-1)) w₄ = .ok ((), w')

/-- `deleteStudent` expels the student, or finds no entry with its `_id`. -/
theorem run_deleteStudent {r : Bool} (h : run (GroupDB.deleteStudent this (some stud)) w = .ok (r, w')) :
    r = true ∧ Expelled w this stud w' ∨ r = false ∧ w' = w := by
  have htrue : ∀ {k p b} {w₁ w₂ : World}, run (Controller.update k p) w₁ = .ok (b, w₂) → b = true := by
    intro k p b w₁ w₂ h
    obtain ⟨-, -, -, -, -, -, -, hb, -⟩ := run_update_iff.mp h
    exact hb
  simp only [GroupDB.deleteStudent, run_bind_iff, run_groupOf_iff] at h
  obtain ⟨g, _, ⟨⟨c, hg⟩, rfl⟩, h⟩ := h
  cases hst : g.students with
  | nil =>
    simp only [hst, run_pure_iff] at h
    exact .inr ⟨h.1.symm, h.2.symm⟩
  | cons p ps =>
    simp only [hst, run_bind_iff, run_checkStudent_iff, run_fromDB_iff] at h
    obtain ⟨_, _, ⟨⟨bs, s, hs⟩, rfl⟩, b, _, ⟨hb, rfl⟩, r', w₁, h₁, h⟩ := h
    obtain rfl : b = bs := by
      obtain ⟨x', hx'⟩ := header_eq_ok.mp hb
      rw [hs, Option.some.injEq, Obj.mk.injEq, Option.some.injEq] at hx'
      exact hx'.1.symm
    obtain ⟨rfl, ⟨rfl, -⟩ | ⟨l₁, q, l₂, hl, hn, hq, rfl⟩⟩ := run_eraseFirst h₁
    · simp only [run_pure_iff] at h
      exact .inr ⟨h.1.symm, h.2.symm⟩
    · simp only [StudentInfo.setGroup, run_bind_iff, run_assignStudents_iff, run_pure_iff] at h
      obtain ⟨_, _, ⟨c', g', hg', rfl⟩, b₁, w₂, h₂, _, w₃, h₃, b₂, w₄, h₄, _, w₅, h₅, rfl, rfl⟩ := h
      obtain ⟨rfl, rfl⟩ : c' = c ∧ g' = g := by simpa [hg] using hg'.symm
      obtain rfl := htrue h₂
      obtain rfl := htrue h₄
      exact .inl ⟨rfl, b, s, c', g', l₁, q, l₂, w₂, w₃, w₄, hs, hg, hst.trans hl, hn, hq, h₂, h₃, h₄, h₅⟩

/-- The search in a list of objects of `…DB` classes. -/
theorem run_eraseFirst_iff {id : Oid} {l : List ℕ} {r : Option (List ℕ)} (hl : w.Held l) :
    run (GroupDB.eraseFirst id l) w = .ok (r, w') ↔
      w = w' ∧ (r = none ∧ (∀ p ∈ l, w.idOf p ≠ some id) ∨ ∃ l₁ p l₂, l = l₁ ++ p :: l₂ ∧
        (∀ q ∈ l₁, w.idOf q ≠ some id) ∧ w.idOf p = some id ∧ r = some (l₁ ++ l₂)) := by
  refine ⟨run_eraseFirst, ?_⟩
  rintro ⟨rfl, h⟩
  induction l generalizing r with
  | nil =>
    rcases h with ⟨rfl, -⟩ | ⟨l₁, p, l₂, hl, -⟩
    · exact (run_pure_iff _).mpr ⟨rfl, rfl⟩
    · simp at hl
  | cons q l ih =>
    obtain ⟨b, x, hq⟩ := hl q (by simp)
    have ih := fun {r} => ih (r := r) fun p hp => hl p (by simp [hp])
    have hid : w.idOf q = some b.id := Lib.Conf.idOf_of_get hq
    simp only [GroupDB.eraseFirst, run_bind_iff, run_fromDB_iff]
    refine ⟨b, w, ⟨header_eq_ok.mpr ⟨x, hq⟩, rfl⟩, ?_⟩
    rcases h with ⟨rfl, hn⟩ | ⟨_ | ⟨q', l₁⟩, p, l₂, hl', hn, hp, rfl⟩
    · have he : b.id ≠ id := fun he => hn q (by simp) (by rw [hid, he])
      simp only [he, if_false, run_bind_iff, run_pure_iff]
      exact ⟨none, w, ih (.inl ⟨rfl, fun p hp => hn p (by simp [hp])⟩), rfl, rfl⟩
    · obtain ⟨rfl, rfl⟩ : q = p ∧ l = l₂ := by simpa using hl'
      have he : b.id = id := by simpa [hid] using hp
      simp [he]
    · obtain ⟨rfl, rfl⟩ : q = q' ∧ l = l₁ ++ p :: l₂ := by simpa using hl'
      have he : b.id ≠ id := fun he => hn q (by simp) (by rw [hid, he])
      simp only [he, if_false, run_bind_iff, run_pure_iff]
      exact ⟨_, w, ih (.inr ⟨l₁, p, l₂, rfl, fun p hp => hn p (by simp [hp]), hp, rfl⟩), rfl, rfl⟩

theorem run_deleteStudent_of_expelled {c : Option IFromDB} {g : Group} (hg : w.heap.get this = some ⟨c, .group g⟩)
    (hl : w.Held g.students) (h : Expelled w this stud w') :
    run (GroupDB.deleteStudent this (some stud)) w = .ok (true, w') := by
  obtain ⟨bs, s, c', g', l₁, p, l₂, w₂, w₃, w₄, hs, hg', hl', hn, hp, h₂, h₃, h₄, h₅⟩ := h.steps
  obtain ⟨rfl, rfl⟩ : c = c' ∧ g = g' := by simpa [hg] using hg'
  have hr : run (GroupDB.eraseFirst bs.id g.students) w = .ok (some (l₁ ++ l₂), w) :=
    (run_eraseFirst_iff hl).mpr ⟨rfl, .inr ⟨l₁, p, l₂, hl', hn, hp, rfl⟩⟩
  obtain ⟨p', ps, hst⟩ : ∃ p' ps, g.students = p' :: ps := List.exists_cons_of_ne_nil (by simp [hl'])
  simp only [GroupDB.deleteStudent, run_bind_iff, run_groupOf_iff]
  refine ⟨g, w, ⟨⟨c, hg⟩, rfl⟩, ?_⟩
  simp only [hst, run_bind_iff, run_checkStudent_iff, run_fromDB_iff]
  refine ⟨⟨⟩, w, ⟨⟨bs, s, hs⟩, rfl⟩, bs, w, ⟨header_eq_ok.mpr ⟨_, hs⟩, rfl⟩, _, w, hst ▸ hr, ?_⟩
  simp only [StudentInfo.setGroup, run_bind_iff, run_assignStudents_iff, run_pure_iff]
  exact ⟨⟨⟩, _, ⟨c, g, hg, rfl⟩, true, w₂, h₂, ⟨⟩, w₃, h₃, true, w₄, h₄, ⟨⟩, w', h₅, trivial, rfl⟩

/-- A student that is not listed is not deleted, and nothing changes. -/
theorem run_deleteStudent_of_absent {c : Option IFromDB} {g : Group} {bs : IFromDB} {s : StudentInfo}
    (hg : w.heap.get this = some ⟨c, .group g⟩) (hl : w.Held g.students)
    (hs : w.heap.get stud = some ⟨some bs, .student s⟩) (hn : ∀ p ∈ g.students, w.idOf p ≠ some bs.id) :
    run (GroupDB.deleteStudent this (some stud)) w = .ok (false, w) := by
  simp only [GroupDB.deleteStudent, run_bind_iff, run_groupOf_iff]
  refine ⟨g, w, ⟨⟨c, hg⟩, rfl⟩, ?_⟩
  cases hst : g.students with
  | nil => exact (run_pure_iff _).mpr ⟨rfl, rfl⟩
  | cons p ps =>
    have hr : run (GroupDB.eraseFirst bs.id g.students) w = .ok (none, w) :=
      (run_eraseFirst_iff hl).mpr ⟨rfl, .inl ⟨rfl, hn⟩⟩
    simp only [run_bind_iff, run_checkStudent_iff, run_fromDB_iff]
    exact ⟨⟨⟩, w, ⟨⟨bs, s, hs⟩, rfl⟩, bs, w, ⟨header_eq_ok.mpr ⟨_, hs⟩, rfl⟩, none, w, hst ▸ hr, by simp⟩

/-! ### Listing and log-in -/

theorem admits_eq {k : Kind} (hk : k ≠ .infos) : Controller.admits k = fun _ => .ok true := by
  cases k <;> first | rfl | exact absurd rfl hk

/-- `GetAll`: the cache when nothing changed, else a listing, after which nothing has changed. -/
theorem run_getAll_iff {k : Kind} {r : List ℕ} :
    run (Controller.getAll k) w = .ok (r, w') ↔
      w.isChanged k = false ∧ r = w.cash k ∧ w' = w ∨
      w.isChanged k = true ∧ ∃ w₁, run (Controller.collect k (Controller.admits k) false (w.env.coll k).docs) w = .ok (r, w₁) ∧
        w' = w₁.setChanged k false := by
  have hf : (w.env.coll k).docs.filter (Doc.fits []) = (w.env.coll k).docs := by
    rw [List.filter_eq_self]
    exact fun d _ => Doc.fits_nil d
  simp only [Controller.getAll, run_bind_iff, run_isChanged_iff]
  constructor
  · rintro ⟨b, _, ⟨rfl, rfl⟩, h⟩
    cases hc : w.isChanged k with
    | false =>
      simp only [hc, if_true, run_cash_iff] at h
      exact .inl ⟨rfl, h.1.symm, h.2.symm⟩
    | true =>
      simp only [hc, Bool.true_eq_false, if_false, run_bind_iff, run_find_iff, run_setChanged_iff, run_pure_iff] at h
      obtain ⟨_, _, ⟨rfl, rfl⟩, r', w₁, h₁, _, _, rfl, rfl, rfl⟩ := h
      rw [hf] at h₁
      exact .inr ⟨rfl, w₁, h₁, rfl⟩
  · rintro (⟨hc, rfl, rfl⟩ | ⟨hc, w₁, h₁, rfl⟩)
    · exact ⟨false, w', ⟨hc, rfl⟩, by simp⟩
    · refine ⟨true, w, ⟨hc, rfl⟩, ?_⟩
      simp only [Bool.true_eq_false, if_false, run_bind_iff, run_find_iff, run_setChanged_iff, run_pure_iff]
      exact ⟨_, w, ⟨hf, rfl⟩, r, w₁, h₁, ⟨⟩, _, rfl, rfl, rfl⟩

/-- The stored account with a login and a password, if there is one. -/
def Lib.Conf.account? (w : World) (l : LogPass) : Option Doc :=
  (w.env.coll .accounts).docs.find? (Doc.fits l.toDoc)

/-- `FindFullAccount` caches a new object without looking for one and without counting it. -/
theorem run_findFullAccount_iff {l : LogPass} {r : ℕ} :
    run (AccountsController.findFullAccount l) w = .ok (r, w') ↔
      ∃ d o, w.account? l = some d ∧ DBClass.accountDB.ofDoc d = .ok o ∧ r = w.heap.next ∧
        w' = w.load .accounts o := by
  simp only [AccountsController.findFullAccount, run_bind_iff, run_findOne_iff]
  constructor
  · rintro ⟨d?, _, ⟨rfl, rfl⟩, d, _, hv, h⟩
    obtain ⟨hd, rfl⟩ := run_value_iff.mp hv
    simp only [run_construct_iff, run_pushBack_iff, run_pure_iff] at h
    obtain ⟨_, _, ⟨o, ho, rfl, rfl⟩, _, _, rfl, rfl, rfl⟩ := h
    exact ⟨d, o, hd, ho, rfl, rfl⟩
  · rintro ⟨d, o, hd, ho, rfl, rfl⟩
    refine ⟨some d, w, ⟨hd, rfl⟩, d, w, run_value_iff.mpr ⟨rfl, rfl⟩, ?_⟩
    simp only [run_construct_iff, run_pushBack_iff, run_pure_iff]
    exact ⟨_, _, ⟨o, ho, rfl, rfl⟩, ⟨⟩, _, rfl, rfl, rfl⟩

/-! ### Adding an info -/

/-- The last steps of `InfosController::Add`. -/
structure Attached (w : World) (acc res : ℕ) (w' : World) : Prop where
  steps : ∃ w₁ w₂, run (setRef .additionalInfo acc (some res)) w = .ok ((), w₁) ∧
    run (Controller.update .accounts acc) w₁ = .ok (true, w₂) ∧
    run (own res 1) (w₂.setCash .infos (w₂.cash .infos ++ [res])) = .ok ((), w')

theorem run_attach_iff {acc? : Option ℕ} {res : ℕ} {u : Unit} :
    run (InfosController.attach acc? res) w = .ok (u, w') ↔ ∃ acc, acc? = some acc ∧ Attached w acc res w' := by
  cases acc? with
  | none => simp [InfosController.attach]
  | some acc =>
    simp only [InfosController.attach, Account.setAdditionalInfo, run_bind_iff, run_pushBack_iff]
    constructor
    · rintro ⟨_, w₁, h₁, b, w₂, h₂, _, _, rfl, h₃⟩
      obtain ⟨-, -, -, -, -, -, -, rfl, -⟩ := run_update_iff.mp h₂
      exact ⟨acc, rfl, w₁, w₂, h₁, h₂, h₃⟩
    · rintro ⟨_, ha, w₁, w₂, h₁, h₂, h₃⟩
      obtain rfl := Option.some.inj ha
      exact ⟨⟨⟩, w₁, h₁, true, w₂, h₂, ⟨⟩, _, rfl, h₃⟩

/-- The group of a new student takes it, when there is one. -/
inductive Grouped (w : World) (temp : ℕ) : World → Prop
  | none {w' : World} (h : run (StudentInfoDB.getGroup temp) w = .ok (none, w')) : Grouped w temp w'
  | some {q g : ℕ} {w₁ w₂ w' : World} (h : run (StudentInfoDB.getGroup temp) w = .ok (some q, w₁))
      (h' : run (StudentInfoDB.getGroup temp) w₁ = .ok (some g, w₂)) (he : Enrolled w₂ g temp w') : Grouped w temp w'

/-- `InfosController::Add` after the document was stored: the type builds no object, or its object is given to
its owner and, if it is a student, to its group. -/
inductive InfoAdded (w : World) (id : Oid) : AccountType → Option ℕ → World → Prop
  | admin : InfoAdded w id .admin none w
  | student {d : Doc} {o : Obj} {acc : ℕ} {w₁ w₂ w' : World} (hs : w.stored .infos id = some d)
      (ho : DBClass.studentInfoDB.ofDoc d = .ok o)
      (hg : run (StudentInfoDB.getOwner w.heap.next) (w.push o) = .ok (some acc, w₁))
      (he : Grouped w₁ w.heap.next w₂) (ha : Attached w₂ acc w.heap.next w') :
      InfoAdded w id .student (some w.heap.next) w'
  | teacher {d : Doc} {o : Obj} {acc : ℕ} {w₁ w' : World} (hs : w.stored .infos id = some d)
      (ho : DBClass.teacherInfoDB.ofDoc d = .ok o)
      (hg : run (TeacherInfoDB.getOwner w.heap.next) (w.push o) = .ok (some acc, w₁))
      (ha : Attached w₁ acc w.heap.next w') : InfoAdded w id .teacher (some w.heap.next) w'

theorem run_infosAdd {e : ℕ} {t : AccountType} {r : Option ℕ}
    (h : run (InfosController.add e t) w = .ok (r, w')) :
    ∃ x d, w.heap.get e = some ⟨none, x⟩ ∧ x.kind = .infos ∧ x.toDoc w.heap = .ok d ∧ d.get? "_id" = none ∧
      InfoAdded (w.post .infos e d) w.env.nextOid t r w' := by
  simp only [InfosController.add, run_bind_iff, run_setChanged_iff, run_elementDoc_iff, run_insertOne_iff,
    run_destroy_iff] at h
  obtain ⟨_, _, rfl, d, _, ⟨x, hx, hk, hd, rfl⟩, _, _, ⟨-, rfl⟩, _, _, ⟨hid, rfl, rfl⟩, h⟩ := h
  refine ⟨x, d, hx, hk, hd, hid, ?_⟩
  simp only [run_bind_iff, run_findOne_byId_iff] at h
  obtain ⟨_, _, ⟨rfl, rfl⟩, h⟩ := h
  change run _ (w.post .infos e d) = _ at h
  cases t with
  | admin =>
    obtain ⟨rfl, rfl⟩ := (run_pure_iff _).mp h
    exact .admin
  | student =>
    simp only [run_bind_iff, run_construct_iff] at h
    obtain ⟨doc, _, hv, _, _, ⟨o, ho, rfl, rfl⟩, acc?, w₁, hg, q?, w₂, hq, h⟩ := h
    obtain ⟨hs, rfl⟩ := run_value_iff.mp hv
    cases q? with
    | none =>
      simp only [Option.isSome_none, Bool.false_eq_true, if_false, run_bind_iff, run_attach_iff, run_pure_iff] at h
      obtain ⟨_, _, ⟨acc, rfl, ha⟩, rfl, rfl⟩ := h
      exact .student hs ho hg (.none hq) ha
    | some q =>
      simp only [Option.isSome_some, if_true, run_bind_iff] at h
      obtain ⟨g?, w₃, hg', h⟩ := h
      cases g? with
      | none => simp [run_bind_iff] at h
      | some g =>
        simp only [run_bind_iff, run_addStudent_iff, run_attach_iff, run_pure_iff] at h
        obtain ⟨_, w₄, ⟨-, he⟩, _, _, ⟨acc, rfl, ha⟩, rfl, rfl⟩ := h
        exact .student hs ho hg (.some hq hg' he) ha
  | teacher =>
    simp only [run_bind_iff, run_construct_iff, run_pure_iff, run_attach_iff] at h
    obtain ⟨doc, _, hv, _, _, ⟨o, ho, rfl, rfl⟩, acc?, w₁, hg, _, _, ⟨acc, rfl, ha⟩, rfl, rfl⟩ := h
    obtain ⟨hs, rfl⟩ := run_value_iff.mp hv
    exact .teacher hs ho hg ha

/-- `Add` returns when the document can be written and the new object finds what it needs. -/
theorem run_infosAdd_of {e : ℕ} {t : AccountType} {r : Option ℕ} {x : Fields} {d : Doc} (he : w.heap.get e = some ⟨none, x⟩)
    (hx : x.kind = .infos) (hd : x.toDoc w.heap = .ok d) (hid : d.get? "_id" = none)
    (h : InfoAdded (w.post .infos e d) w.env.nextOid t r w') : run (InfosController.add e t) w = .ok (r, w') := by
  simp only [InfosController.add, run_bind_iff, run_setChanged_iff, run_elementDoc_iff, run_insertOne_iff, run_destroy_iff]
  refine ⟨⟨⟩, _, rfl, d, _, ⟨x, he, hx, hd, rfl⟩, ⟨⟩, _, ⟨⟨_, he⟩, rfl⟩, some w.env.nextOid, _, ⟨hid, rfl, rfl⟩, ?_⟩
  simp only [run_bind_iff, run_findOne_byId_iff]
  refine ⟨_, _, ⟨rfl, rfl⟩, ?_⟩
  change run _ (w.post .infos e d) = _
  cases h with
  | admin => exact (run_pure_iff _).mpr ⟨rfl, rfl⟩
  | student hs ho hg hgr ha =>
    simp only [run_bind_iff, run_construct_iff]
    refine ⟨_, _, run_value_iff.mpr ⟨hs, rfl⟩, _, _, ⟨_, ho, rfl, rfl⟩, _, _, hg, ?_⟩
    cases hgr with
    | none hq =>
      refine ⟨none, _, hq, ?_⟩
      simp only [Option.isSome_none, Bool.false_eq_true, if_false, run_bind_iff, run_attach_iff, run_pure_iff]
      exact ⟨⟨⟩, _, ⟨_, rfl, ha⟩, trivial, rfl⟩
    | some hq hq' hen =>
      refine ⟨some _, _, hq, ?_⟩
      simp only [Option.isSome_some, if_true, run_bind_iff]
      refine ⟨some _, _, hq', ?_⟩
      simp only [run_bind_iff, run_addStudent_iff, run_attach_iff, run_pure_iff]
      exact ⟨true, _, ⟨rfl, hen⟩, ⟨⟩, _, ⟨_, rfl, ha⟩, trivial, rfl⟩
  | teacher hs ho hg ha =>
    simp only [run_bind_iff, run_construct_iff, run_pure_iff, run_attach_iff]
    exact ⟨_, _, run_value_iff.mpr ⟨hs, rfl⟩, _, _, ⟨_, ho, rfl, rfl⟩, _, _, hg, ⟨⟩, _, ⟨_, rfl, ha⟩, rfl, rfl⟩

end Cbt
