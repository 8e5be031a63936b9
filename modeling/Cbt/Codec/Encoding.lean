import Cbt.Effects.Quiet

/-! What an object writes. The document of an object is its own values under the
keys of its class, with one value for each pointer member and one for the list
of students; a pointer is written as `NULL` unless it designates an object that
exists. The constructor of the class reads the own values back. -/

namespace Cbt

/-- What is written for a pointer. -/
def Pointer.value (h : Memory) : Pointer → Except Fault Bson
  | .uninit => .error .uninitPointer
  | .null => .ok nullValue
  | .to p => match header h p with
    | .error e => .error e
    | .ok b => .ok (if b.isExist then .oid b.id else nullValue)

/-- What is written for the students of a group. -/
def membersValue (h : Memory) (students : List ℕ) : Except Fault Bson :=
  if students.isEmpty then .ok nullValue
  else (fun ids => Bson.array (ids.map .oid)) <$> existingIds h students

/-- The document of an object, from the values of its references. -/
def Fields.written (ref : RefField → Bson) (members : Bson) : Fields → Doc
  | .account a => [("Login", .string a.login), ("Password", .string a.password),
      ("AccountType", .int32 a.accountType.toInt), ("AdditionalInfo", ref .additionalInfo)]
  | .group g => [("Name", .string g.name), ("Curator", ref .curator), ("Members", members)]
  | .additionalInfo => []
  | .student s => [("FirstName", .string s.firstName), ("SecondName", .string s.secondName),
      ("Owner", ref .owner), ("Curs", .int32 s.curs), ("Group", ref .group)]
  | .teacher t => [("FirstName", .string t.firstName), ("SecondName", .string t.secondName),
      ("Owner", ref .owner), ("Faculty", .string t.faculty),
      ("LessonsTypes", .array (t.lessonsTypes.map .string))]
  | .schedule s => [("Name", .string s.name), ("Date", .int64 s.date.toJulianDay), ("Para", .int32 s.paraNumber),
      ("Teacher", ref .teacher), ("Group", ref .group)]

/-- The values of the references of an object. -/
structure Fields.Writes (h : Memory) (x : Fields) (ref : RefField → Bson) (members : Bson) : Prop where
  ref : ∀ f v, x.ref f = some v → v.value h = .ok (ref f)
  members : ∀ g, x = .group g → membersValue h g.students = .ok members

theorem buildRef_eq (h : Memory) (key : String) (v : Pointer) :
    buildRef h key v = (fun b => [(key, b)]) <$> v.value h := by
  cases v with
  | uninit => rfl
  | null => rfl
  | «to» p =>
    simp only [buildRef, Pointer.value]
    cases header h p <;> rfl

theorem buildRef_iff {h : Memory} {key : String} {v : Pointer} {d : Doc} :
    buildRef h key v = .ok d ↔ ∃ b, v.value h = .ok b ∧ d = [(key, b)] := by
  rw [buildRef_eq]
  cases v.value h with
  | error e => simp [Functor.map, Except.map]
  | ok b => simp [Functor.map, Except.map, eq_comm]

theorem exceptBind_eq_ok {ε α β : Type} {x : Except ε α} {f : α → Except ε β} {b : β} :
    (x >>= f) = .ok b ↔ ∃ a, x = .ok a ∧ f a = .ok b := by
  cases x <;> simp [bind, Except.bind]

theorem exceptPure_eq_ok {ε α : Type} {a b : α} : (pure a : Except ε α) = .ok b ↔ b = a := by
  simp [pure, Except.pure, eq_comm]

theorem Group.build_iff {h : Memory} {g : Group} {d : Doc} : g.build h = .ok d ↔ ∃ c m, g.curator.value h = .ok c ∧
    membersValue h g.students = .ok m ∧ d = [("Name", .string g.name), ("Curator", c), ("Members", m)] := by
  cases hs : g.students.isEmpty <;>
    simp only [Group.build, membersValue, hs, if_true, if_false, Bool.false_eq_true, exceptBind_eq_ok,
      exceptPure_eq_ok, buildRef_iff]
  · constructor
    · rintro ⟨_, ⟨c, hc, rfl⟩, m, hm, rfl⟩; exact ⟨c, m, hc, hm, rfl⟩
    · rintro ⟨c, m, hc, hm, rfl⟩; exact ⟨_, ⟨c, hc, rfl⟩, m, hm, rfl⟩
  · constructor
    · rintro ⟨_, ⟨c, hc, rfl⟩, m, rfl, rfl⟩; exact ⟨c, nullValue, hc, rfl, rfl⟩
    · rintro ⟨c, m, hc, hm, rfl⟩; exact ⟨_, ⟨c, hc, rfl⟩, nullValue, rfl, by cases hm; rfl⟩

theorem AdditionalInfo.build_iff {h : Memory} {i : AdditionalInfo} {d : Doc} : i.build h = .ok d ↔
    ∃ o, i.owner.value h = .ok o ∧
      d = [("FirstName", .string i.firstName), ("SecondName", .string i.secondName), ("Owner", o)] := by
  simp only [AdditionalInfo.build, exceptBind_eq_ok, exceptPure_eq_ok, buildRef_iff]
  constructor
  · rintro ⟨_, ⟨o, ho, rfl⟩, rfl⟩; exact ⟨o, ho, rfl⟩
  · rintro ⟨o, ho, rfl⟩; exact ⟨_, ⟨o, ho, rfl⟩, rfl⟩

/-- Every document an object writes is made of its own values and the values of its references. -/
theorem toDoc_eq_ok {h : Memory} {x : Fields} {d : Doc} :
    x.toDoc h = .ok d ↔ ∃ ref members, x.Writes h ref members ∧ d = x.written ref members := by
  constructor
  · intro hd
    cases x with
    | account a =>
      simp only [Fields.toDoc, Account.build, exceptBind_eq_ok, exceptPure_eq_ok, buildRef_iff] at hd
      obtain ⟨_, ⟨_, ⟨v, hv, rfl⟩, rfl⟩, rfl⟩ := hd
      refine ⟨fun _ => v, nullValue, ⟨fun f v' hf => ?_, by simp⟩, rfl⟩
      cases f <;> simp only [Fields.ref, Option.some.injEq, reduceCtorEq] at hf
      exact hf ▸ hv
    | group g =>
      obtain ⟨c, m, hc, hm, rfl⟩ := Group.build_iff.mp hd
      refine ⟨fun _ => c, m, ⟨fun f v' hf => ?_, fun g' hg => ?_⟩, rfl⟩
      · cases f <;> simp only [Fields.ref, Option.some.injEq, reduceCtorEq] at hf
        exact hf ▸ hc
      · obtain rfl : g = g' := by simpa using hg
        exact hm
    | additionalInfo =>
      obtain rfl := exceptPure_eq_ok.mp hd
      exact ⟨fun _ => nullValue, nullValue, ⟨by simp [Fields.ref], by simp⟩, rfl⟩
    | student s =>
      simp only [Fields.toDoc, StudentInfo.build, exceptBind_eq_ok, exceptPure_eq_ok, buildRef_iff,
        AdditionalInfo.build_iff] at hd
      obtain ⟨_, ⟨o, ho, rfl⟩, _, ⟨_, ⟨g, hg, rfl⟩, rfl⟩, rfl⟩ := hd
      refine ⟨fun f => if f = .owner then o else g, nullValue, ⟨fun f v' hf => ?_, by simp⟩, rfl⟩
      cases f <;> simp only [Fields.ref, Option.some.injEq, reduceCtorEq] at hf
      · exact hf ▸ ho
      · exact hf ▸ hg
    | teacher t =>
      simp only [Fields.toDoc, exceptBind_eq_ok, exceptPure_eq_ok, AdditionalInfo.build_iff] at hd
      obtain ⟨_, ⟨o, ho, rfl⟩, rfl⟩ := hd
      refine ⟨fun _ => o, nullValue, ⟨fun f v' hf => ?_, by simp⟩, rfl⟩
      cases f <;> simp only [Fields.ref, Option.some.injEq, reduceCtorEq] at hf
      exact hf ▸ ho
    | schedule s =>
      simp only [Fields.toDoc, Schedule.build, exceptBind_eq_ok, exceptPure_eq_ok, buildRef_iff] at hd
      obtain ⟨_, ⟨t, ht, rfl⟩, _, ⟨g, hg, rfl⟩, rfl⟩ := hd
      refine ⟨fun f => if f = .teacher then t else g, nullValue, ⟨fun f v' hf => ?_, by simp⟩, rfl⟩
      cases f <;> simp only [Fields.ref, Option.some.injEq, reduceCtorEq] at hf
      · exact hf ▸ hg
      · exact hf ▸ ht
  · rintro ⟨ref, members, hw, rfl⟩
    cases x with
    | account a =>
      simp only [Fields.toDoc, Account.build, exceptBind_eq_ok, exceptPure_eq_ok, buildRef_iff]
      exact ⟨_, ⟨_, ⟨_, hw.ref .additionalInfo _ rfl, rfl⟩, rfl⟩, rfl⟩
    | group g => exact Group.build_iff.mpr ⟨_, _, hw.ref .curator _ rfl, hw.members g rfl, rfl⟩
    | additionalInfo => rfl
    | student s =>
      simp only [Fields.toDoc, StudentInfo.build, exceptBind_eq_ok, exceptPure_eq_ok, buildRef_iff,
        AdditionalInfo.build_iff]
      exact ⟨_, ⟨_, hw.ref .owner _ rfl, rfl⟩, _, ⟨_, ⟨_, hw.ref .group _ rfl, rfl⟩, rfl⟩, rfl⟩
    | teacher t =>
      simp only [Fields.toDoc, exceptBind_eq_ok, exceptPure_eq_ok, AdditionalInfo.build_iff]
      exact ⟨_, ⟨_, hw.ref .owner _ rfl, rfl⟩, rfl⟩
    | schedule s =>
      simp only [Fields.toDoc, Schedule.build, exceptBind_eq_ok, exceptPure_eq_ok, buildRef_iff]
      exact ⟨_, ⟨_, hw.ref .teacher _ rfl, rfl⟩, _, ⟨_, hw.ref .group _ rfl, rfl⟩, rfl⟩

/-- What an object writes, when its references and its students can be written. -/
theorem exists_writes {h : Memory} {x : Fields} (href : ∀ f v, x.ref f = some v → ∃ u, v.value h = .ok u)
    (hmem : ∀ g, x = .group g → ∃ m, membersValue h g.students = .ok m) : ∃ ref members, x.Writes h ref members := by
  let ref : RefField → Bson := fun f => match x.ref f with
    | some v => (v.value h).toOption.getD nullValue
    | none => nullValue
  have hr : ∀ f v, x.ref f = some v → v.value h = .ok (ref f) := by
    intro f v hv
    obtain ⟨u, hu⟩ := href f v hv
    simp [ref, hv, hu, Except.toOption]
  by_cases hg : ∃ g, x = .group g
  · obtain ⟨g, rfl⟩ := hg
    obtain ⟨m, hm⟩ := hmem g rfl
    refine ⟨ref, m, hr, fun g' hg' => ?_⟩
    obtain rfl : g = g' := by simpa using hg'
    exact hm
  · exact ⟨ref, nullValue, hr, fun g h => absurd ⟨g, h⟩ hg⟩

theorem written_setRef (y : Fields) (f : RefField) (v : Pointer) (ref : RefField → Bson) (m : Bson) :
    (y.setRef f v).written ref m = y.written ref m := by
  cases y <;> cases f <;> rfl

theorem students_setRef {y : Fields} {f : RefField} {v : Pointer} {g : Group} (h : y.setRef f v = .group g) :
    ∃ g', y = .group g' ∧ g.students = g'.students := by
  cases y <;> cases f <;> cases h <;> exact ⟨_, rfl, rfl⟩

/-- A `…DB` object puts its `_id` before what the plain class writes. -/
theorem toDoc_db_iff {h : Memory} {b : IFromDB} {x : Fields} {d : Doc} :
    Obj.toDoc h ⟨some b, x⟩ = .ok d ↔ ∃ d', x.toDoc h = .ok d' ∧ d = ("_id", .oid b.id) :: d' := by
  simp only [Obj.toDoc, exceptBind_eq_ok, exceptPure_eq_ok]
  rfl

theorem toDoc_plain_iff {h : Memory} {x : Fields} {d : Doc} : Obj.toDoc h ⟨none, x⟩ = .ok d ↔ x.toDoc h = .ok d := by
  simp only [Obj.toDoc, exceptBind_eq_ok, exceptPure_eq_ok]
  constructor
  · rintro ⟨_, hd, rfl⟩
    exact hd
  · exact fun hd => ⟨d, hd, rfl⟩

/-! ### Reading back -/

theorem getStrings_map (l : List String) : getStrings (l.map .string) = .ok l := by
  induction l with
  | nil => rfl
  | cons s l ih =>
    simp only [List.map_cons, getStrings, ih]
    rfl

/-- The constructor reads back the own values an object wrote. -/
theorem fields_written (x : Fields) (ref : RefField → Bson) (members : Bson) (i : Oid) :
    x.cls.fields (("_id", .oid i) :: x.written ref members) = .ok x.bare := by
  cases x with
  | account a =>
    simp [Fields.cls, DBClass.fields, Fields.written, Fields.bare, Doc.getString, Doc.getInt32, bind, Except.bind,
      pure, Except.pure]
  | group g => simp [Fields.cls, DBClass.fields, Fields.written, Fields.bare, Doc.getString, bind, Except.bind, pure, Except.pure]
  | additionalInfo => rfl
  | student s =>
    simp [Fields.cls, DBClass.fields, Fields.written, Fields.bare, Doc.getString, Doc.getInt32, bind, Except.bind,
      pure, Except.pure]
  | teacher t =>
    simp [Fields.cls, DBClass.fields, Fields.written, Fields.bare, Doc.getString, lessonsTypesOf, getStrings_map, bind,
      Except.bind, pure, Except.pure]
  | schedule s =>
    simp [Fields.cls, DBClass.fields, Fields.written, Fields.bare, Doc.getString, Doc.getInt32, Doc.getInt64, bind,
      Except.bind, pure, Except.pure]

/-- The constructor of an object's class reads the object back from the document it wrote. -/
theorem ofDoc_written (x : Fields) (ref : RefField → Bson) (members : Bson) (i : Oid) :
    x.cls.ofDoc (("_id", .oid i) :: x.written ref members) =
      .ok ⟨some { doc := ("_id", .oid i) :: x.written ref members, id := i }, x.bare⟩ := by
  simp [DBClass.ofDoc, IFromDB.ofDoc, fields_written, Doc.getOid, bind, Except.bind, pure, Except.pure]

end Cbt
