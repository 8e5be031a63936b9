import Cbt.Caches.Counts
import Cbt.Calls.Updating

/-! `addStudent` and then `deleteStudent` of the same student. The lists, the two
documents, the student's group and the student's count come back. The setter that
gives the student its group counts the group, and the setter that takes the group
away counts nothing, so the group keeps a share more than before. -/

namespace Cbt

open Lib.Command (run_bind_iff run_pure_iff run_ofExcept_iff)

variable {w w₁ w' : World} {this stud : ℕ} {bg bs : IFromDB} {g : Group} {s : StudentInfo}

/-! ### Counts of objects -/

theorem countOf_put {p : ℕ} {o o' : Obj} (hp : w.heap.get p = some o) (q : ℕ) :
    (w.put p o').countOf q = if q = p then o'.fromDB.map (·.ownedCount) else w.countOf q := by
  unfold Lib.Conf.countOf
  rw [Lib.Conf.get_put hp]
  split_ifs <;> rfl

/-- An object that keeps its part from the database keeps its count. -/
theorem countOf_put_fields {p : ℕ} {c : Option IFromDB} {x : Fields} (hp : w.heap.get p = some ⟨c, x⟩) (y : Fields)
    (q : ℕ) : (w.put p ⟨c, y⟩).countOf q = w.countOf q := by
  rw [countOf_put hp]
  split_ifs with hq
  · subst hq
    simp [Lib.Conf.countOf, hp]
  · rfl

theorem countOf_own {p : ℕ} {n : ℤ} {u : Unit} (h : run (own p n) w = .ok (u, w')) (q : ℕ) :
    w'.countOf q = (w.countOf q).map (· + if q = p then n else 0) := by
  obtain ⟨b, x, hp, rfl⟩ := run_own_iff.mp h
  rw [countOf_put hp]
  split_ifs with hq
  · subst hq
    simp [countOf_of_get hp, IFromDB.own]
  · simp

theorem countOf_update {k : Kind} {el : ℕ} {r : Bool} (h : run (Controller.update k el) w = .ok (r, w')) (q : ℕ) :
    w'.countOf q = w.countOf q := by
  obtain ⟨b, x, d, hp, -, -, -, hheap, -⟩ := update_effect h
  have he : w'.countOf q = (w.put el ⟨some (b.withDoc (("_id", .oid b.id) :: d)), x⟩).countOf q := by
    simp only [Lib.Conf.countOf, hheap, Lib.Conf.heap_put]
  rw [he, countOf_put hp]
  split_ifs with hq
  · subst hq
    simp [countOf_of_get hp, IFromDB.withDoc]
  · rfl

/-- A setter counts the object the member now points to; nothing counts the one it pointed to before. -/
theorem countOf_setRef {f : RefField} {p : ℕ} {v : Option ℕ} {u : Unit} (h : run (setRef f p v) w = .ok (u, w')) (q : ℕ) :
    w'.countOf q = (w.countOf q).map (· + if v = some q then 1 else 0) := by
  cases v with
  | none =>
    obtain ⟨⟨c, x⟩, _, ho, -, rfl⟩ := run_setRef_none_iff.mp h
    rw [show ∀ (v : Pointer), Obj.setRef ⟨c, x⟩ f v = ⟨c, x.setRef f v⟩ from fun _ => rfl, countOf_put_fields ho]
    simp
  | some t =>
    obtain ⟨⟨c, x⟩, _, _, b, y, ho, -, -, -, hb, rfl⟩ := run_setRef_some_iff.mp h
    rw [countOf_own (run_own_iff (u := u).mpr ⟨b, y, hb, rfl⟩) q,
      show ∀ (v : Pointer), Obj.setRef ⟨c, x⟩ f v = ⟨c, x.setRef f v⟩ from fun _ => rfl, countOf_put_fields ho]
    simp only [Option.some.injEq, eq_comm]

/-- `addStudent` counts the group and the student. -/
theorem Enrolled.countOf (h : Enrolled w this stud w') (q : ℕ) :
    w'.countOf q = (w.countOf q).map fun n => n + (if q = this then 1 else 0) + if q = stud then 1 else 0 := by
  obtain ⟨bs, s, c, g, w₂, w₃, w₄, hs, hg, h₂, h₃, h₄, h₅⟩ := h.steps
  rw [countOf_own h₅, countOf_update h₄, countOf_setRef h₃, countOf_update h₂, countOf_put_fields hg, Option.map_map]
  simp only [Option.some.injEq, eq_comm]
  rfl

/-- `deleteStudent` takes back the share of the student, and none of the group. -/
theorem Expelled.countOf (h : Expelled w this stud w') (q : ℕ) :
    w'.countOf q = (w.countOf q).map (· + if q = stud then -1 else 0) := by
  obtain ⟨bs, s, c, g, l₁, p, l₂, w₂, w₃, w₄, hs, hg, -, -, -, h₂, h₃, h₄, h₅⟩ := h.steps
  rw [countOf_own h₅, countOf_update h₄, countOf_setRef h₃, countOf_update h₂, countOf_put_fields hg, Option.map_map]
  simp [Function.comp_def]

/-! ### Enrolled and expelled -/

/-- Neither id nor existence of an object changes. -/
theorem Moved.ident {students : List ℕ} {group : Pointer} (h : Moved w this stud bg bs g s students group w')
    (hg : w.heap.get this = some ⟨some bg, .group g⟩) (hs : w.heap.get stud = some ⟨some bs, .student s⟩) (q : ℕ) :
    ident w'.heap q = ident w.heap q := by
  obtain ⟨dg, ds, -, -, -, ⟨n, hg'⟩, m, hs'⟩ := h.docs
  by_cases hq : q = this
  · subst hq
    rw [ident_of_get hg', ident_of_get hg]
    rfl
  · by_cases hq' : q = stud
    · subst hq'
      rw [ident_of_get hs', ident_of_get hs]
      rfl
    · simp only [Cbt.ident, header, h.other q hq hq']

/-- A group and a student that has no group and is not listed: both exist, with the listed students, and what is
stored for them is what they describe, so the curator, the students and the owner are loaded. -/
structure Enrollable (w : World) (this stud : ℕ) (bg bs : IFromDB) (g : Group) (s : StudentInfo) : Prop where
  group : w.heap.get this = some ⟨some bg, .group g⟩
  student : w.heap.get stud = some ⟨some bs, .student s⟩
  live : bg.isExist = true ∧ bs.isExist = true ∧ ∀ p ∈ g.students, w.Alive p
  distinct : (g.students.map w.idOf).Nodup
  absent : ∀ p ∈ g.students, w.idOf p ≠ some bs.id
  none : s.group = .null
  group_doc : ∃ d, (Fields.group g).toDoc w.heap = .ok d ∧ w.stored .groups bg.id = some (("_id", .oid bg.id) :: d)
  student_doc : ∃ d, (Fields.student s).toDoc w.heap = .ok d ∧ w.stored .infos bs.id = some (("_id", .oid bs.id) :: d)

/-- Everything is as before, but perhaps for the count of the group. -/
structure Undone (w : World) (this stud : ℕ) (w' : World) : Prop where
  stored : w'.stored = w.stored
  students : w'.students this = w.students this
  group : ∃ w'', run (StudentInfoDB.getGroup stud) w' = .ok (none, w'')
  count : w'.countOf stud = w.countOf stud
  other : ∀ q, q ≠ this → q ≠ stud → w'.heap.get q = w.heap.get q

/-- `addStudent`, then `deleteStudent`. -/
def addDelete (this stud : ℕ) : Cmd Bool := do
  let _ ← GroupDB.addStudent this (some stud)
  GroupDB.deleteStudent this (some stud)

/-- `deleteStudent` undoes `addStudent`, and of a student that is not listed it changes nothing. -/
structure Undoes (w : World) (this stud : ℕ) (bs : IFromDB) (g : Group) : Prop where
  undone : ∃ w', run (addDelete this stud) w = .ok (true, w') ∧ Undone w this stud w' ∧
    w'.countOf this = w.countOf this
  absent : (∀ p ∈ g.students, w.idOf p ≠ some bs.id) → run (GroupDB.deleteStudent this (some stud)) w = .ok (false, w)

theorem run_addDelete {r : Bool} (h : run (addDelete this stud) w = .ok (r, w')) :
    ∃ w₁, Enrolled w this stud w₁ ∧ (r = true ∧ Expelled w₁ this stud w' ∨ r = false ∧ w' = w₁) := by
  obtain ⟨_, w₁, h₁, h₂⟩ := (run_bind_iff _).mp h
  exact ⟨w₁, (run_addStudent_iff.mp h₁).2, run_deleteStudent h₂⟩

/-- The group has a share more. -/
theorem countOf_addDelete (h : run (addDelete this stud) w = .ok (true, w')) (q : ℕ) :
    w'.countOf q = (w.countOf q).map (· + if q = this then 1 else 0) := by
  obtain ⟨w₁, he, ⟨-, hx⟩ | ⟨hf, -⟩⟩ := run_addDelete h
  · rw [hx.countOf, he.countOf, Option.map_map]
    congr 1
    funext n
    by_cases hq : q = stud <;> simp [hq]
  · cases hf

/-- The pair of calls never restores the count of the group. -/
theorem not_undoes (w : World) (this stud : ℕ) (bs : IFromDB) (g : Group) : ¬ Undoes w this stud bs g := by
  rintro ⟨⟨w', h, -, hc⟩, -⟩
  obtain ⟨w₁, he, -⟩ := run_addDelete h
  obtain ⟨bg, _, _, _, hg, -⟩ := he.moved
  rw [countOf_addDelete h, countOf_of_get hg, if_pos rfl] at hc
  simp at hc

theorem held_of_alive {l : List ℕ} (hl : ∀ p ∈ l, w.Alive p) : w.Held l := fun p hp => by
  obtain ⟨b, x, hg, -⟩ := hl p hp
  exact ⟨b, x, hg⟩

theorem held_congr (hi : ∀ p, ident w'.heap p = ident w.heap p) {l : List ℕ} (hl : w.Held l) : w'.Held l := by
  intro p hp
  obtain ⟨b, x, hg⟩ := hl p hp
  have h := hi p
  rw [ident_of_get hg] at h
  simp only [ident, Functor.map, Except.map] at h
  cases hh : header w'.heap p with
  | error e => simp [hh] at h
  | ok b' =>
    obtain ⟨x', hx'⟩ := header_eq_ok.mp hh
    exact ⟨b', x', hx'⟩

theorem idOf_congr (hi : ∀ p, ident w'.heap p = ident w.heap p) {p : ℕ} {i : Oid} (hp : w.idOf p = some i) :
    w'.idOf p = some i := by
  obtain ⟨b, hb, rfl⟩ := Option.map_eq_some_iff.mp hp
  obtain ⟨⟨_ | b', x⟩, hg, hb'⟩ := Option.bind_eq_some_iff.mp hb
  · cases hb'
  · cases hb'
    have h := hi p
    rw [ident_of_get hg] at h
    obtain ⟨b₁, x₁, hg₁⟩ := held_congr hi (l := [p]) (fun q hq => ⟨b, x, by rw [List.mem_singleton.mp hq, hg]⟩) p (by simp)
    rw [ident_of_get hg₁] at h
    simp only [Except.ok.injEq, Prod.mk.injEq] at h
    rw [Lib.Conf.idOf_of_get hg₁, h.1]

/-- A student whose pointer is null and whose document names no group has none. -/
theorem run_getGroup_of_null {p : ℕ} {b : IFromDB} {v : Bson} (hp : w.heap.get p = some ⟨some b, .student s⟩)
    (hn : s.group = .null) (hv : b.doc.get? "Group" = some v) (hi : v.oid? = none) :
    run (StudentInfoDB.getGroup p) w = .ok (none, w) := by
  simp only [StudentInfoDB.getGroup, getRef, run_bind_iff, run_obj_iff]
  refine ⟨_, w, ⟨hp, rfl⟩, ?_⟩
  simp only [Fields.ref, hn, run_bind_iff, run_fromDB_iff, run_ofExcept_iff, Doc.elem_eq_ok]
  exact ⟨b, w, ⟨header_eq_ok.mpr ⟨_, hp⟩, rfl⟩, v, w, ⟨hv, rfl⟩, by simp [hi]⟩

/-- A list with an entry at its end loses that entry, when none before it is the one that is taken out. -/
theorem append_of_split {l l₁ l₂ : List ℕ} {p q : ℕ} (h : l ++ [q] = l₁ ++ p :: l₂) (hp : p ∉ l) : l₁ ++ l₂ = l := by
  rcases List.eq_nil_or_concat l₂ with rfl | ⟨l₃, z, rfl⟩
  · rw [List.append_nil]
    exact (List.append_inj' h rfl).1.symm
  · have hl : l = l₁ ++ p :: l₃ :=
      (List.append_inj' (by simpa [List.append_assoc] using h : l ++ [q] = (l₁ ++ p :: l₃) ++ [z]) rfl).1
    exact absurd (by simp [hl]) hp

namespace Enrollable

theorem held (h : Enrollable w this stud bg bs g s) : w.Held (g.students ++ [stud]) := by
  intro p hp
  rcases List.mem_append.mp hp with hp | hp
  · exact held_of_alive h.live.2.2 p hp
  · rw [List.mem_singleton.mp hp]
    exact ⟨_, _, h.student⟩

/-- `addStudent` returns. -/
theorem enrolled (h : Enrollable w this stud bg bs g s) : ∃ w₁, run (GroupDB.addStudent this (some stud)) w = .ok (true, w₁) ∧
    Moved w this stud bg bs g s (g.students ++ [stud]) (.to this) w₁ := by
  obtain ⟨dg, hdg, hsg⟩ := h.group_doc
  obtain ⟨ds, hds, hss⟩ := h.student_doc
  have hrg := exists_toDoc_iff.mp ⟨dg, hdg⟩
  have hrs := exists_toDoc_iff.mp ⟨ds, hds⟩
  obtain ⟨dg₁, hdg₁⟩ : ∃ d, (Fields.group { g with students := g.students ++ [stud] }).toDoc w.heap = .ok d := by
    refine exists_toDoc_iff.mpr ⟨fun f v hv => hrg.ref f v (by cases f <;> exact hv), fun g' hg' p hp => ?_⟩
    cases hg'
    obtain ⟨b, x, hx⟩ := h.held p hp
    exact ⟨b, header_eq_ok.mpr ⟨x, hx⟩⟩
  obtain ⟨ds₁, hds₁⟩ : ∃ d, (Fields.student { s with group := .to this }).toDoc w.heap = .ok d := by
    refine exists_toDoc_iff.mpr ⟨fun f v hv => ?_, by simp⟩
    by_cases hf : f = .group
    · subst hf
      cases hv
      exact .inr ⟨this, bg, rfl, header_eq_ok.mpr ⟨_, h.group⟩⟩
    · exact hrs.ref f v (by cases f <;> first | exact hv | exact absurd rfl hf)
  obtain ⟨w₁, hadd⟩ := exists_enrolled h.group h.student hdg₁ hds₁ (Option.isSome_of_eq_some hsg)
    (Option.isSome_of_eq_some hss)
  obtain ⟨bg', bs', g', s', hg₀, hs₀, hm⟩ := (run_addStudent_iff.mp hadd).2.moved
  cases h.group.symm.trans hg₀
  cases h.student.symm.trans hs₀
  exact ⟨w₁, hadd, hm⟩

/-- After it, too, no student before the new one has its id. -/
theorem absent_of_ident (h : Enrollable w this stud bg bs g s) (hi : ∀ p, ident w₁.heap p = ident w.heap p) :
    ∀ p ∈ g.students, w₁.idOf p ≠ some bs.id := by
  intro p hp hid
  obtain ⟨b, x, hx⟩ := held_of_alive h.live.2.2 p hp
  rw [idOf_congr hi (Lib.Conf.idOf_of_get hx)] at hid
  exact h.absent p hp ((Lib.Conf.idOf_of_get hx).trans hid)

/-- `deleteStudent` returns then, and what is stored for the group and the student is what was stored before. -/
theorem expelled (h : Enrollable w this stud bg bs g s)
    (hm : Moved w this stud bg bs g s (g.students ++ [stud]) (.to this) w₁) :
    ∃ w', run (GroupDB.deleteStudent this (some stud)) w₁ = .ok (true, w') ∧ w'.stored = w.stored ∧
      (∃ b, w'.heap.get this = some ⟨some b, .group g⟩) ∧
      (∃ b, w'.heap.get stud = some ⟨some b, .student s⟩ ∧ b.doc.get? "Group" = some nullValue) ∧
      ∀ q, q ≠ this → q ≠ stud → w'.heap.get q = w.heap.get q := by
  obtain ⟨dg, hdg, hsg⟩ := h.group_doc
  obtain ⟨ds, hds, hss⟩ := h.student_doc
  have hi := hm.ident h.group h.student
  obtain ⟨_, _, -, -, hst₁, ⟨n, hg₁⟩, m, hs₁⟩ := hm.docs
  have hstud : ({ toAdditionalInfo := s.toAdditionalInfo, curs := s.curs, group := .null } : StudentInfo) = s := by
    rw [← h.none]
  obtain ⟨w', hdel⟩ := exists_expelled hg₁ hs₁ rfl (h.absent_of_ident hi) (Lib.Conf.idOf_of_get hs₁)
    (held_congr hi h.held) (by rw [List.append_nil]; exact (toDoc_congr hi).mpr hdg)
    ((toDoc_congr hi).mpr (hstud.symm ▸ hds)) (by rw [hst₁, if_pos ⟨rfl, rfl⟩]; rfl)
    (by rw [hst₁, if_neg (by simp), if_pos ⟨rfl, rfl⟩]; rfl)
  obtain ⟨-, hx⟩ := (run_deleteStudent hdel).resolve_right (by simp)
  obtain ⟨_, _, _, _, l₁, p, l₂, hg₂, hs₂, hsplit, -, hp, hm₂⟩ := hx.moved
  cases hg₁.symm.trans hg₂
  cases hs₁.symm.trans hs₂
  have hl := append_of_split hsplit fun hin => h.absent_of_ident hi p hin hp
  obtain ⟨dg₂, ds₂, hdg₂, hds₂, hst₂, ⟨n₂, hg₃⟩, m₂, hs₃⟩ := hm₂.docs
  have hgroup : ({ name := g.name, students := l₁ ++ l₂, curator := g.curator } : Group) = g := by rw [hl]
  dsimp only at hdg₂ hds₂ hg₃ hs₃
  rw [hgroup, toDoc_congr hi, hdg] at hdg₂
  rw [hstud, toDoc_congr hi, hds] at hds₂
  obtain rfl := Except.ok.inj hdg₂
  obtain rfl := Except.ok.inj hds₂
  rw [hgroup] at hg₃
  rw [hstud] at hs₃
  have hst : ∀ k o, w'.stored k o = if k = .groups ∧ o = bg.id then some (("_id", .oid bg.id) :: dg)
      else if k = .infos ∧ o = bs.id then some (("_id", .oid bs.id) :: ds) else w₁.stored k o := hst₂
  refine ⟨w', hdel, ?_, ⟨_, hg₃⟩, ⟨_, hs₃, ?_⟩, fun q hq hq' => (hm₂.other q hq hq').trans (hm.other q hq hq')⟩
  · funext k o
    rw [hst, hst₁]
    by_cases hkg : k = .groups ∧ o = bg.id
    · rw [if_pos hkg, hkg.1, hkg.2, hsg]
    · by_cases hki : k = .infos ∧ o = bs.id
      · rw [if_neg hkg, if_pos hki, hki.1, hki.2, hss]
      · rw [if_neg hkg, if_neg hki, if_neg hkg, if_neg hki]
  · obtain ⟨ref, members, hwr, rfl⟩ := toDoc_eq_ok.mp hds
    have hnull := hwr.ref .group _ rfl
    rw [h.none] at hnull
    simp [IFromDB.own, IFromDB.withDoc, Fields.written, ← Except.ok.inj hnull]

/-- The pair of calls returns and restores all but the count of the group, which is one more than before. -/
theorem undone (h : Enrollable w this stud bg bs g s) : ∃ w', run (addDelete this stud) w = .ok (true, w') ∧
    Undone w this stud w' ∧ w'.countOf this = (w.countOf this).map (· + 1) := by
  obtain ⟨w₁, hadd, hm⟩ := h.enrolled
  obtain ⟨w', hdel, hstored, ⟨b, hg⟩, ⟨c, hs, hdoc⟩, hother⟩ := h.expelled hm
  have hrun : run (addDelete this stud) w = .ok (true, w') := (run_bind_iff _).mpr ⟨true, w₁, hadd, hdel⟩
  have hne : stud ≠ this := by
    rintro rfl
    cases h.group.symm.trans h.student
  refine ⟨w', hrun, ⟨hstored, ?_, ⟨w', run_getGroup_of_null hs h.none hdoc rfl⟩, ?_, hother⟩, ?_⟩
  · rw [students_of_get hg, students_of_get h.group]
  · rw [countOf_addDelete hrun, if_neg hne]
    simp
  · rw [countOf_addDelete hrun, if_pos rfl]

end Enrollable

/-- All but the count of the group is restored, and a student that is not listed is not deleted; so the pair of calls
never undoes what was done. -/
theorem undone_but_for_count (h : Enrollable w this stud bg bs g s) :
    (∃ w', run (addDelete this stud) w = .ok (true, w') ∧ Undone w this stud w' ∧
      w'.countOf this = (w.countOf this).map (· + 1)) ∧
    run (GroupDB.deleteStudent this (some stud)) w = .ok (false, w) ∧ ¬ Undoes w this stud bs g :=
  ⟨h.undone, run_deleteStudent_of_absent h.group (held_of_alive h.live.2.2) h.student h.absent, not_undoes w this stud bs g⟩

/-! ### A group of two and a student -/

/-- A group with two students, and a student without a group. -/
def groupOfTwo : Database :=
  let student (name : String) (group : Bson) : Doc := [("FirstName", .string name), ("SecondName", .string "student"),
    ("Owner", nullValue), ("Curs", .int32 1), ("Group", group)]
  (((Database.empty.insert .groups [("Name", .string "group"), ("Curator", nullValue), ("Members", .array [.oid 1, .oid 2])]).insert
    .infos (student "first" (.oid 0))).insert .infos (student "second" (.oid 0))).insert .infos (student "third" nullValue)

/-- They, when they were loaded. -/
theorem exists_enrollable : ∃ w bg bs g s, Lib.Run Action.Step Lib.Free (World.start groupOfTwo)
    [.getFromDB .groups 0 .admin, .getStudents 0, .getFromDB .infos 3 .student] w ∧ g.students = [1, 2] ∧
      Enrollable w 0 3 bg bs g s := by
  let g : Group := { name := "group", students := [1, 2] }
  let s : StudentInfo := { firstName := "third", secondName := "student", curs := 1 }
  let dg : Doc := [("Name", .string "group"), ("Curator", nullValue), ("Members", .array [.oid 1, .oid 2])]
  let ds : Doc := [("FirstName", .string "third"), ("SecondName", .string "student"), ("Owner", nullValue),
    ("Curs", .int32 1), ("Group", nullValue)]
  have hplay : (play [.getFromDB .groups 0 .admin, .getStudents 0, .getFromDB .infos 3 .student] (World.start groupOfTwo)).any
      (fun w => w.heap.get 0 = some ⟨some { ownedCount := 1, doc := ("_id", .oid 0) :: dg, id := 0 }, .group g⟩ ∧
        w.heap.get 3 = some ⟨some { ownedCount := 1, doc := ("_id", .oid 3) :: ds, id := 3 }, .student s⟩ ∧
        (([1, 2].all fun p => (w.heap.get p).any fun o => o.fromDB.any (·.isExist)) = true ∧ w.idOf 1 = some 1 ∧ w.idOf 2 = some 2) ∧
        (Fields.group g).toDoc w.heap = .ok dg ∧
        w.stored .groups 0 = some (("_id", .oid 0) :: dg) ∧ w.stored .infos 3 = some (("_id", .oid 3) :: ds)) = true := by
    decide
  obtain ⟨w, hw, hc⟩ := Option.any_eq_true .. |>.mp hplay
  obtain ⟨hg, hs, ⟨hlive, hone, htwo⟩, hdoc, hdg, hds⟩ := of_decide_eq_true hc
  have halive : ∀ p ∈ g.students, w.Alive p := by
    intro p hp
    obtain ⟨⟨c, x⟩, hg, hc⟩ := Option.any_eq_true .. |>.mp (List.all_eq_true.mp hlive p hp)
    obtain ⟨b, rfl, hb⟩ := Option.any_eq_true .. |>.mp hc
    exact ⟨b, x, hg, hb⟩
  exact ⟨w, _, _, g, s, run_of_play hw, rfl, hg, hs, ⟨rfl, rfl, halive⟩, by simp [g, hone, htwo], by simp [g, hone, htwo], rfl,
    ⟨dg, hdoc, hdg⟩, ⟨ds, rfl, hds⟩⟩

/-- Such a state, and what the two calls do. -/
theorem undone_of_two : ∃ w w', w.students 0 = [1, 2] ∧ Undone w 0 3 w' ∧ w'.countOf 0 = (w.countOf 0).map (· + 1) := by
  obtain ⟨w, _, _, g, _, -, hg, h⟩ := exists_enrollable
  obtain ⟨⟨w', -, hu, hc⟩, -⟩ := undone_but_for_count h
  exact ⟨w, w', (students_of_get h.group).trans hg, hu, hc⟩

/-- A group keeps a share. -/
theorem not_undoes_always : ¬ ∀ db as w this stud bg bs g s, Lib.Run Action.Step Lib.Free (World.start db) as w →
    Enrollable w this stud bg bs g s → Undoes w this stud bs g := by
  intro hall
  obtain ⟨w, bg, bs, g, s, hr, -, h⟩ := exists_enrollable
  exact not_undoes w 0 3 bs g (hall _ _ w 0 3 bg bs g s hr h)

end Cbt
