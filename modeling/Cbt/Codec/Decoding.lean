import Cbt.Calls.Students

/-! What is written reads back. The document of an entity, with an `_id`, is
accepted by the constructor of its class, which finds the same own values; the
getters of the object that is built answer with the objects the entity referred
to, as far as they exist and are those their controllers find. A schedule is the
exception: its constructor leaves the pointers without a value, and no getter of
it returns. -/

namespace Cbt

open Lib.Command (run_bind_iff run_pure_iff run_fault_iff run_ofExcept_iff)

variable {w w' : World}

/-- The object at an address exists. -/
def Lib.Conf.exists? (w : World) (p : ℕ) : Bool := ((w.heap.get p).bind (·.fromDB)).any (·.isExist)

/-- Every reference is null, or designates an object of a class its member takes, which may have been deleted. -/
structure Referable (w : World) (x : Fields) : Prop where
  ref : ∀ f v, x.ref f = some v → v = .null ∨ ∃ p b y, v = .to p ∧ w.heap.get p = some ⟨some b, y⟩ ∧ f.admits y = true
  students : ∀ g, x = .group g → ∀ p ∈ g.students, ∃ b y, w.heap.get p = some ⟨some b, y⟩ ∧ y.isStudent = true

/-- Every object an entity refers to that exists is the one its controller finds under its id. -/
def Lib.Conf.FindsRefs (w : World) (x : Fields) : Prop :=
  ∀ p ∈ x.refs, ∀ b y, w.heap.get p = some ⟨some b, y⟩ → b.isExist = true → w.cached y.kind b.id = some p

/-- A document builds an object with the own values of an entity, whose getters answer with the objects the entity
refers to that exist. -/
structure ReadsBack (w : World) (x : Fields) (d : Doc) : Prop where
  object : ∃ o, x.cls.ofDoc d = .ok o ∧ o.fields.bare = x.bare ∧
    (∀ g : Getter, g.field ∈ x.cls.refs → ∃ r w', run (g.call w.heap.next) (w.push o) = .ok (r, w') ∧
      ∀ p, r = some p ↔ x.ref g.field = some (.to p) ∧ w.Alive p) ∧
    ∀ gr, x = .group gr → ∃ w', run (GroupDB.getStudents w.heap.next) (w.push o) =
      .ok (gr.students.filter w.exists?, w')

theorem exists?_of_get {p : ℕ} {b : IFromDB} {y : Fields} (h : w.heap.get p = some ⟨some b, y⟩) :
    w.exists? p = b.isExist := by simp [Lib.Conf.exists?, h]

theorem alive_iff {p : ℕ} {b : IFromDB} {y : Fields} (h : w.heap.get p = some ⟨some b, y⟩) :
    w.Alive p ↔ b.isExist = true := by
  constructor
  · rintro ⟨b', y', h', hb⟩
    obtain ⟨rfl, rfl⟩ : b = b' ∧ y = y' := by simpa [h] using h'
    exact hb
  · exact fun hb => ⟨b, y, h, hb⟩

theorem Getter.wants_of_admits {g : Getter} {y : Fields} (h : g.field.admits y = true) : g.wants y = true := by
  cases g <;> cases y <;> first | rfl | cases h

theorem kind_of_isStudent {y : Fields} (h : y.isStudent = true) : y.kind = .infos := by
  cases y <;> first | rfl | cases h

/-! ### What is written for references -/

theorem value_of_get {p : ℕ} {b : IFromDB} {y : Fields} (h : w.heap.get p = some ⟨some b, y⟩) :
    (Pointer.to p).value w.heap = .ok (if b.isExist then .oid b.id else nullValue) := by
  simp [Pointer.value, header_eq_ok.mpr ⟨y, h⟩]

/-- The ids written for students are those of the students that exist, in order. -/
theorem exists_existingIds {l : List ℕ} (hl : ∀ p ∈ l, ∃ b y, w.heap.get p = some ⟨some b, y⟩ ∧ y.isStudent = true) :
    ∃ ids, existingIds w.heap l = .ok ids ∧ (l.filter w.exists?).map w.idOf = ids.map some := by
  induction l with
  | nil => exact ⟨[], rfl, rfl⟩
  | cons p l ih =>
    obtain ⟨ids, hids, hmap⟩ := ih fun q hq => hl q (List.mem_cons_of_mem _ hq)
    obtain ⟨b, y, hp, -⟩ := hl p List.mem_cons_self
    have hh : header w.heap p = .ok b := header_eq_ok.mpr ⟨y, hp⟩
    cases hb : b.isExist with
    | false =>
      refine ⟨ids, by simp [existingIds, hh, hids, hb], ?_⟩
      rw [List.filter_cons_of_neg (by simp [exists?_of_get hp, hb]), hmap]
    | true =>
      refine ⟨b.id :: ids, by simp [existingIds, hh, hids, hb], ?_⟩
      rw [List.filter_cons_of_pos (by simp [exists?_of_get hp, hb]), List.map_cons, Lib.Conf.idOf_of_get hp, hmap]
      rfl

/-- The values an entity with such references writes. -/
theorem Referable.writes {x : Fields} (hx : Referable w x) :
    ∃ ref members, x.Writes w.heap ref members := by
  refine exists_writes (fun f v hv => ?_) fun g hg => ?_
  · rcases hx.ref f v hv with rfl | ⟨p, b, y, rfl, hp, -⟩
    · exact ⟨_, rfl⟩
    · exact ⟨_, value_of_get hp⟩
  · obtain ⟨ids, hids, -⟩ := exists_existingIds (hx.students g hg)
    unfold membersValue
    split_ifs
    · exact ⟨_, rfl⟩
    · exact ⟨_, by rw [hids]; rfl⟩

/-! ### What is read back -/

theorem cached_push (hw : Sound w) (o : Obj) : (w.push o).cached = w.cached := by
  funext k i
  simp only [Lib.Conf.cached, Lib.Conf.cash_push]
  apply List.find?_congr
  intro p hp
  obtain ⟨b, y, hg, -⟩ := hw.entry k p hp
  have hg' : (w.push o).heap.get p = some ⟨some b, y⟩ := Lib.Heap.get_push_of_some _ hg
  rw [Lib.Conf.idOf_of_get hg, Lib.Conf.idOf_of_get hg']

theorem Fields.bare_bare (x : Fields) : x.bare.bare = x.bare := by cases x <;> rfl

theorem ref_bare {x : Fields} {f : RefField} (hf : f ∈ x.cls.refs) :
    x.bare.ref f = some (if x.kind = .schedules then .uninit else .null) := by
  cases x <;> cases f <;> simp [Fields.cls, DBClass.refs] at hf <;> rfl

/-- The object that is built, with its document. -/
def readObj (x : Fields) (ref : RefField → Bson) (members : Bson) (i : Oid) : Obj :=
  ⟨some { doc := ("_id", .oid i) :: x.written ref members, id := i }, x.bare⟩

section Getters
variable {x : Fields} {ref : RefField → Bson} {members : Bson} {i : Oid} {g : Getter}

theorem get?_readObj {x : Fields} (hk : x.kind ≠ .schedules) (hf : g.field ∈ x.cls.refs) :
    Doc.get? (("_id", .oid i) :: x.written ref members) g.key = some (ref g.field) := by
  have hgt : g ≠ .getTeacher := by
    rintro rfl
    cases x <;> simp_all [Fields.cls, DBClass.refs, Getter.field, Fields.kind]
  rw [Doc.get?_cons, if_neg (by cases g <;> decide), ← Getter.field_key hgt]
  exact get?_written hf

/-- A getter of the object that is built answers with the object its entity referred to, if its controller finds that. -/
theorem run_get_readObj (hw : Sound w) (hx : Referable w x) (hc : w.FindsRefs x) (hk : x.kind ≠ .schedules)
    (hr : x.Writes w.heap ref members) (hf : g.field ∈ x.cls.refs) :
    ∃ r w', run (g.call w.heap.next) (w.push (readObj x ref members i)) = .ok (r, w') ∧
      ∀ p, r = some p ↔ x.ref g.field = some (.to p) ∧ w.Alive p := by
  set o := readObj x ref members i with ho
  have hget : (w.push o).heap.get w.heap.next = some o := Lib.Heap.get_push_next _ _
  have hnull : x.bare.ref g.field = some .null := by rw [ref_bare hf, if_neg hk]
  have hdoc : Doc.get? (("_id", .oid i) :: x.written ref members) g.key = some (ref g.field) := get?_readObj hk hf
  have hrun {r : Option ℕ} {w' : World} (h : GotBy (w.push o) g w.heap.next r w') :
      run (g.call w.heap.next) (w.push o) = .ok (r, w') :=
    (run_getter_iff (sound_push hw o) hget (by rw [Fields.cls_bare]; exact hf)).mpr h
  obtain ⟨v, hv⟩ := Fields.mem_refs.mp hf
  have hval := hr.ref _ _ hv
  rcases hx.ref _ v hv with rfl | ⟨p, b, y, rfl, hp, ha⟩
  · -- a null pointer was written as no id
    have hn : ref g.field = nullValue := by simpa [Pointer.value] using hval.symm
    refine ⟨none, _, hrun (.absent hget hnull hdoc (by simp [hn])), fun p => ?_⟩
    simp [hv]
  rw [value_of_get hp, Except.ok.injEq] at hval
  cases hb : b.isExist with
  | false =>
    have hn : ref g.field = nullValue := by simpa [hb] using hval.symm
    refine ⟨none, _, hrun (.absent hget hnull hdoc (by simp [hn])), fun q => ?_⟩
    simp only [reduceCtorEq, false_iff, hv, Option.some.injEq, Pointer.to.injEq]
    rintro ⟨rfl, hq⟩
    rw [alive_iff hp, hb] at hq
    cases hq
  | true =>
    have hid : ref g.field = .oid b.id := by simpa [hb] using hval.symm
    have hcached : (w.push o).cached g.kind b.id = some p := by
      rw [cached_push hw, ← g.field_kind, ← RefField.kind_of_admits ha]
      exact hc p (Fields.mem_refs_of_ref hv) b y hp hb
    have hp₀ : (w.push o).heap.get p = some ⟨some b, y⟩ := Lib.Heap.get_push_of_some _ hp
    refine ⟨some p, _, hrun (.loaded hget hnull (hid ▸ hdoc) (.hit hcached) hp₀ (Getter.wants_of_admits ha) hget),
      fun q => ?_⟩
    simp only [hv, Option.some.injEq, Pointer.to.injEq]
    constructor
    · rintro rfl
      exact ⟨rfl, (alive_iff hp).mpr hb⟩
    · exact fun h => h.1

/-- A getter that answers with an old object found it in the cache of its controller. -/
theorem cached_of_get_readObj {p : ℕ} {b : IFromDB} {y : Fields} (hw : Sound w) (hk : x.kind ≠ .schedules)
    (hr : x.Writes w.heap ref members) (hf : g.field ∈ x.cls.refs) (hv : x.ref g.field = some (.to p))
    (hp : w.heap.get p = some ⟨some b, y⟩) (hb : b.isExist = true) (ha : g.field.admits y = true)
    (h : run (g.call w.heap.next) (w.push (readObj x ref members i)) = .ok (some p, w')) :
    w.cached y.kind b.id = some p := by
  set o := readObj x ref members i with ho
  have hget : (w.push o).heap.get w.heap.next = some o := Lib.Heap.get_push_next _ _
  have hnull : x.bare.ref g.field = some .null := by rw [ref_bare hf, if_neg hk]
  have hdoc : Doc.get? (("_id", .oid i) :: x.written ref members) g.key = some (ref g.field) := get?_readObj hk hf
  have hid : ref g.field = .oid b.id := by
    have := hr.ref _ _ hv
    rw [value_of_get hp, hb, if_pos rfl, Except.ok.injEq] at this
    exact this.symm
  have hgot := (run_getter_iff (sound_push hw o) hget (by rw [Fields.cls_bare]; exact hf)).mp h
  rw [RefField.kind_of_admits ha, g.field_kind, ← cached_push hw o]
  cases hgot with
  | settled hp' hv' =>
    obtain rfl := Option.some.inj (hget.symm.trans hp')
    simp [ho, readObj, hnull] at hv'
  | loaded hp' hn hv' hl =>
    obtain ⟨rfl, -⟩ : _ = _ ∧ x.bare = _ := by simpa [ho, readObj] using hget.symm.trans hp'
    obtain rfl : b.id = _ := by simpa [hdoc, hid] using hv'
    cases hl with
    | hit hc => exact hc
    | loaded =>
      have hlt := Lib.Heap.lt_next hp
      simp at hlt

/-- A group's document lists the ids that were written for its students. -/
theorem lists_written_iff {gr : Group} {ids : List Oid} {v : World} {l : List ℕ}
    (hids : existingIds w.heap gr.students = .ok ids) (hm : membersValue w.heap gr.students = .ok members) :
    Doc.Lists (("_id", .oid i) :: (Fields.group gr).written ref members) v l ↔
      (∀ j ∈ ids, v.cached .infos j = none → v.stored .infos j = none) ∧ v.cachedStudents ids = l := by
  have hdoc : Doc.get? (("_id", .oid i) :: (Fields.group gr).written ref members) "Members" = some members := by
    simp [Fields.written]
  have hare : ∀ js, Doc.MembersAre (("_id", .oid i) :: (Fields.group gr).written ref members) js ↔ js = ids := by
    intro js
    unfold membersValue at hm
    rw [Doc.MembersAre, hdoc]
    split_ifs at hm with he
    · obtain rfl := Except.ok.inj hm
      obtain rfl : ids = [] := by
        rw [List.isEmpty_iff.mp he] at hids
        exact (Except.ok.inj hids).symm
      simp [nullValue]
    · rw [hids] at hm
      obtain rfl := Except.ok.inj hm
      have hinj : ∀ js : List Oid, ids.map Element.oid = js.map Element.oid ↔ js = ids := fun js =>
        (List.map_injective_iff.mpr fun _ _ => Element.oid.inj).eq_iff.trans eq_comm
      simp [hinj]
  constructor
  · rintro ⟨js, hjs, h⟩
    obtain rfl := (hare js).mp hjs
    exact h
  · exact fun h => ⟨ids, (hare ids).mpr rfl, h⟩

/-- `getStudents` of a group that was read back gives the students that exist, in their order, exactly when these are the
cached ones. -/
theorem getStudents_readObj_iff {gr : Group} (hw : Sound w) (hx : Referable w (.group gr))
    (hr : (Fields.group gr).Writes w.heap ref members) :
    (∃ w', run (GroupDB.getStudents w.heap.next) (w.push (readObj (.group gr) ref members i)) =
      .ok (gr.students.filter w.exists?, w')) ↔
      ∀ q ∈ gr.students.filter w.exists?, ∃ i, w.idOf q = some i ∧ w.cached .infos i = some q := by
  set o := readObj (.group gr) ref members i with ho
  have hget : (w.push o).heap.get w.heap.next = some o := Lib.Heap.get_push_next _ _
  have hold : ∀ q ∈ gr.students.filter w.exists?, ∃ c s, w.heap.get q = some ⟨some c, .student s⟩ := by
    intro q hq
    obtain ⟨c, y, hg, hs⟩ := hx.students gr rfl q (List.mem_filter.mp hq).1
    cases y <;> first | exact ⟨c, _, hg⟩ | cases hs
  have hpush : ∀ q ∈ gr.students.filter w.exists?, ∃ c s, (w.push o).heap.get q = some ⟨some c, .student s⟩ ∧
      (w.push o).idOf q = w.idOf q := by
    intro q hq
    obtain ⟨c, s, hg⟩ := hold q hq
    have hg' : (w.push o).heap.get q = some ⟨some c, .student s⟩ := Lib.Heap.get_push_of_some o hg
    exact ⟨c, s, hg', by rw [Lib.Conf.idOf_of_get hg, Lib.Conf.idOf_of_get hg']⟩
  have hlt : ∀ q ∈ gr.students.filter w.exists?, q < (w.push o).heap.next := by
    intro q hq
    obtain ⟨c, s, hg, -⟩ := hpush q hq
    exact Lib.Heap.lt_next hg
  have hidOf : ∀ q ∈ gr.students.filter w.exists?, (w.push o).idOf q = w.idOf q := by
    intro q hq
    obtain ⟨-, -, -, he⟩ := hpush q hq
    exact he
  have hstud : ∀ q ∈ gr.students.filter w.exists?, ∃ c s, (w.push o).heap.get q = some ⟨c, .student s⟩ := by
    intro q hq
    obtain ⟨c, s, hg, -⟩ := hpush q hq
    exact ⟨_, s, hg⟩
  obtain ⟨ids, hids, hmap⟩ := exists_existingIds (hx.students gr rfl)
  have hmap' : (gr.students.filter w.exists?).map (w.push o).idOf = ids.map some := by
    rw [List.map_congr_left hidOf, hmap]
  rw [lists_iff (b := { doc := _, id := i }) (sound_push hw o) hget hlt, lists_written_iff hids (hr.members gr rfl),
    ← cachedStudents_eq_iff hmap' hstud]
  refine forall₂_congr fun q hq => ?_
  rw [hidOf q hq, cached_push hw]

end Getters

/-- The getter of a schedule's teacher does not return. -/
theorem not_readsBack_schedule {s : Schedule} {ref : RefField → Bson} {members : Bson} {i : Oid} (hw : Sound w) :
    ¬ ReadsBack w (.schedule s) (("_id", .oid i) :: (Fields.schedule s).written ref members) := by
  intro h
  obtain ⟨o, ho, -, hget, -⟩ := h.object
  obtain rfl := Except.ok.inj ((ofDoc_written _ ref members i).symm.trans ho)
  obtain ⟨r, w', hrun, -⟩ := hget .getTeacher (by simp [Fields.cls, DBClass.refs, Getter.field])
  -- the pointer was never given a value
  have hf : Getter.field .getTeacher ∈ (Fields.schedule s).bare.cls.refs := by
    simp [Fields.cls, Fields.bare, DBClass.refs, Getter.field]
  have hu : (Fields.schedule s).bare.ref (Getter.field .getTeacher) = some .uninit := rfl
  have hgot := (run_getter_iff (sound_push hw _) (Lib.Heap.get_push_next _ _) hf).mp hrun
  cases hgot with
  | settled hp hv =>
    obtain rfl := Option.some.inj ((Lib.Heap.get_push_next _ _).symm.trans hp)
    simp [hu] at hv
  | absent hp hn | missed hp hn | loaded hp hn =>
    have := Option.some.inj ((Lib.Heap.get_push_next _ _).symm.trans hp)
    simp only [Obj.mk.injEq] at this
    rw [← this.2, hu] at hn
    cases hn

/-- The getter of a member. -/
theorem exists_getter {x : Fields} {f : RefField} (hk : x.kind ≠ .schedules) (hf : f ∈ x.cls.refs) :
    ∃ g : Getter, g.field = f := by
  cases f with
  | additionalInfo => exact ⟨.getAdditionalInfo, rfl⟩
  | curator => exact ⟨.getCurator, rfl⟩
  | owner => exact ⟨.getTeacherOwner, rfl⟩
  | group => exact ⟨.getStudentGroup, rfl⟩
  | teacher => cases x <;> simp_all [Fields.cls, DBClass.refs, Fields.kind]

/-- Every entity writes a document. It reads back exactly when the entity is no schedule and every object it refers to
that exists is the one its controller finds under its id. -/
theorem readsBack_iff {x : Fields} (hw : Sound w) (hx : Referable w x) (i : Oid) :
    ∃ d, x.toDoc w.heap = .ok d ∧ (ReadsBack w x (("_id", .oid i) :: d) ↔ x.kind ≠ .schedules ∧ w.FindsRefs x) := by
  obtain ⟨ref, members, hr⟩ := hx.writes
  refine ⟨_, toDoc_eq_ok.mpr ⟨ref, members, hr, rfl⟩, fun h => ?_, fun h => ?_⟩
  · have hk : x.kind ≠ .schedules := by
      intro hk
      obtain ⟨s, rfl⟩ : ∃ s, x = .schedule s := by
        cases x <;> first | exact ⟨_, rfl⟩ | cases hk
      exact not_readsBack_schedule hw h
    refine ⟨hk, fun p hp b y hg hb => ?_⟩
    obtain ⟨o, ho, -, hget, hstudents⟩ := h.object
    obtain rfl := Except.ok.inj ((ofDoc_written x ref members i).symm.trans ho)
    rcases Fields.mem_refs_iff.mp hp with ⟨f, hv⟩ | ⟨gr, rfl, hin⟩
    · have hf := Fields.mem_refs.mpr ⟨_, hv⟩
      obtain ⟨g, rfl⟩ := exists_getter hk hf
      obtain ⟨r, w', hrun, hiff⟩ := hget g hf
      obtain rfl := (hiff p).mpr ⟨hv, b, y, hg, hb⟩
      have ha : g.field.admits y = true := by
        rcases hx.ref _ _ hv with hn | ⟨q, c, z, he, hq, ha⟩
        · cases hn
        · obtain rfl := Pointer.to.inj he
          obtain ⟨rfl, rfl⟩ : b = c ∧ y = z := by simpa [hg] using hq
          exact ha
      exact cached_of_get_readObj hw hk hr hf hv hg hb ha hrun
    · obtain ⟨j, hj, hc⟩ := (getStudents_readObj_iff hw hx hr).mp (hstudents gr rfl) p
        (List.mem_filter.mpr ⟨hin, by rw [exists?_of_get hg, hb]⟩)
      obtain ⟨c, z, hq, hs⟩ := hx.students gr rfl p hin
      obtain ⟨rfl, rfl⟩ : b = c ∧ y = z := by simpa [hg] using hq
      obtain rfl : b.id = j := by simpa [Lib.Conf.idOf_of_get hg] using hj
      rw [kind_of_isStudent hs, hc]
  · obtain ⟨hk, hc⟩ := h
    refine ⟨_, ofDoc_written x ref members i, x.bare_bare, fun g hf => run_get_readObj hw hx hc hk hr hf, ?_⟩
    rintro gr rfl
    refine (getStudents_readObj_iff hw hx hr).mpr fun q hq => ?_
    obtain ⟨hin, he⟩ := List.mem_filter.mp hq
    obtain ⟨b, y, hg, hs⟩ := hx.students gr rfl q hin
    refine ⟨b.id, Lib.Conf.idOf_of_get hg, ?_⟩
    rw [← kind_of_isStudent hs]
    exact hc q (Fields.mem_refs_iff.mpr (.inr ⟨gr, rfl, hin⟩)) b y hg (by rwa [exists?_of_get hg] at he)

/-- In every state a run reaches, every entity writes a document, which reads back exactly when the entity is no schedule
and every object it refers to that exists is the one its controller finds under its id. -/
theorem readsBack_iff_of_run {db : Database} {as : List Action} {x : Fields}
    (hr : Lib.Run Action.Step Lib.Free (World.start db) as w) (hx : Referable w x) (i : Oid) :
    ∃ d, x.toDoc w.heap = .ok d ∧ (ReadsBack w x (("_id", .oid i) :: d) ↔ x.kind ≠ .schedules ∧ w.FindsRefs x) :=
  readsBack_iff (sound_of_run hr) hx i

/-- One teacher without an account. -/
def oneTeacher : Database :=
  Database.empty.insert .infos [("FirstName", .string "first"), ("SecondName", .string "second"), ("Owner", nullValue),
    ("Faculty", .string "faculty"), ("LessonsTypes", .array [])]

/-- A group with the teacher as its curator reads back. -/
theorem readsBack_of_curator : ∃ w d, w.exists? 0 = true ∧
    Fields.toDoc w.heap (.group { name := "name", curator := .to 0 }) = .ok d ∧
      ReadsBack w (.group { name := "name", curator := .to 0 }) (("_id", .oid 1) :: d) := by
  have hplay : ((Action.getFromDB .infos 0 .teacher).next? (World.start oneTeacher)).any (fun w =>
      w.cached .infos 0 = some 0 ∧ (w.heap.get 0).map (fun o => (o.fields.isTeacher, o.fromDB.map (·.id))) =
        some (true, some 0) ∧ w.exists? 0) = true := by decide
  obtain ⟨w, hw, hc⟩ := Option.any_eq_true .. |>.mp hplay
  obtain ⟨hc, hobj, he⟩ := of_decide_eq_true hc
  obtain ⟨⟨_ | b, y⟩, hp, hy⟩ := Option.map_eq_some_iff.mp hobj
  · simp at hy
  simp only [Option.map_some, Prod.mk.injEq, Option.some.injEq] at hy
  obtain ⟨ht, hid⟩ := hy
  have hk : y.kind = .infos := by cases y <;> first | rfl | cases ht
  have hx : Referable w (.group { name := "name", curator := .to 0 }) := by
    refine ⟨fun f v hv => ?_, fun g hg q hq => ?_⟩
    · cases f <;> simp only [Fields.ref, Option.some.injEq, reduceCtorEq] at hv
      exact .inr ⟨0, b, y, hv.symm, hp, by cases y <;> first | rfl | cases ht⟩
    · cases hg
      cases hq
  obtain ⟨d, hd, hiff⟩ := readsBack_iff_of_run (.snoc .nil trivial (Action.step_of_next? hw)) hx 1
  refine ⟨w, d, he, hd, hiff.mpr ⟨by simp [Fields.kind], fun q hq c z hg hb => ?_⟩⟩
  obtain rfl : q = 0 := by simpa [Fields.refs] using hq
  obtain ⟨rfl, rfl⟩ : b = c ∧ y = z := by simpa [hp] using hg
  rw [hk, hid, hc]

/-- A schedule does not read back. -/
theorem not_readsBack_of_every_entity : ¬ ∀ db as w x i, Lib.Run Action.Step Lib.Free (World.start db) as w →
    Referable w x → ∃ d, x.toDoc w.heap = .ok d ∧ ReadsBack w x (("_id", .oid i) :: d) := by
  intro h
  have hx : Referable (World.start Database.empty)
      (.schedule { date := .null, name := "name", paraNumber := 0, teacher := .null, group := .null }) := by
    refine ⟨fun f v hv => .inl ?_, by simp⟩
    cases f <;> simp only [Fields.ref, Option.some.injEq, reduceCtorEq] at hv <;> exact hv.symm
  obtain ⟨d, hd, hr⟩ := h _ [] _ _ 0 .nil hx
  obtain ⟨d', hd', hiff⟩ := readsBack_iff (sound_start Database.empty) hx 0
  obtain rfl := Except.ok.inj (hd.symm.trans hd')
  exact (hiff.mp hr).1 rfl

end Cbt
