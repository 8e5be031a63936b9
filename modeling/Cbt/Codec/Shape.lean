import Cbt.Codec.Encoding
import Cbt.Effects.Sound

/-! The shape of stored documents. A document is of a class when the constructor
of the class accepts it and every reference key of the class is there. What an
object writes is of its class, and an info is of one class only. -/

namespace Cbt

/-- The key a pointer member is written under. -/
def RefField.key : RefField → String
  | .additionalInfo => "AdditionalInfo"
  | .curator => "Curator"
  | .owner => "Owner"
  | .group => "Group"
  | .teacher => "Teacher"

/-- The controller of the objects a pointer member designates. -/
def RefField.kind : RefField → Kind
  | .additionalInfo | .curator | .teacher => .infos
  | .owner => .accounts
  | .group => .groups

theorem RefField.key_injective : Function.Injective RefField.key := by
  intro f f' h
  cases f <;> cases f' <;> first | rfl | exact absurd h (by decide)

theorem RefField.kind_of_admits {f : RefField} {x : Fields} (h : f.admits x = true) : x.kind = f.kind := by
  cases f <;> cases x <;> first | rfl | cases h

/-- The pointer members of a class. -/
def DBClass.refs : DBClass → List RefField
  | .accountDB => [.additionalInfo]
  | .groupDB => [.curator]
  | .additionalInfoDB => []
  | .studentInfoDB => [.owner, .group]
  | .teacherInfoDB => [.owner]
  | .scheduleDB => [.teacher, .group]

theorem Fields.mem_refs {x : Fields} {f : RefField} : f ∈ x.cls.refs ↔ ∃ v, x.ref f = some v := by
  cases x <;> cases f <;> simp [Fields.cls, DBClass.refs, Fields.ref]

/-- A member never designates an object of its own class. -/
theorem not_admits_self {x : Fields} {f : RefField} (hf : f ∈ x.cls.refs) : f.admits x = false := by
  cases x <;> cases f <;> simp [Fields.cls, DBClass.refs] at hf <;> rfl

/-- The members of a class designate objects of different collections. -/
theorem DBClass.ref_eq_of_kind {c : DBClass} {f f' : RefField} (hf : f ∈ c.refs) (hf' : f' ∈ c.refs)
    (h : f.kind = f'.kind) : f = f' := by
  revert hf hf' h
  cases c <;> cases f <;> cases f' <;> decide

/-- A document that can be read as an object of a class, with all its references. -/
structure Doc.IsOf (d : Doc) (c : DBClass) : Prop where
  fields : ∃ x, c.fields d = .ok x
  refs : ∀ f ∈ c.refs, ∃ v, d.get? f.key = some v

/-- The shape of the documents of a collection. -/
def Kind.Shaped : Kind → Doc → Prop
  | .accounts, d => d.IsOf .accountDB
  | .groups, d => d.IsOf .groupDB
  | .infos, d =>
    d.IsOf .studentInfoDB ∧ d.get? "Faculty" = none ∨ d.IsOf .teacherInfoDB ∧ d.get? "Curs" = none
  | .schedules, _ => True

/-! ### What an object writes -/

theorem get?_written {x : Fields} {ref : RefField → Bson} {members : Bson} {f : RefField} (hf : f ∈ x.cls.refs) :
    Doc.get? (x.written ref members) f.key = some (ref f) := by
  cases x <;> cases f <;> simp [Fields.cls, DBClass.refs] at hf <;> simp [Fields.written, RefField.key]

/-- The only ids an object writes are those of its references. -/
theorem ref_of_written {x : Fields} {ref : RefField → Bson} {members : Bson} {key : String} {i : Oid}
    (h : Doc.get? (x.written ref members) key = some (.oid i)) (hm : ∀ o, members ≠ .oid o) :
    ∃ f ∈ x.cls.refs, key = f.key ∧ ref f = .oid i := by
  cases x <;>
    simp only [Fields.written, Doc.get?_cons, Doc.get?_nil] at h <;> (repeat' split_ifs at h) <;>
    simp only [Option.some.injEq, reduceCtorEq] at h <;>
    first
      | exact absurd h (hm i)
      | (rename_i hk; refine ⟨_, ?_, ?_, h⟩ <;> first | exact hk.symm | simp [Fields.cls, DBClass.refs])

theorem isOf_written (x : Fields) (ref : RefField → Bson) (members : Bson) (i : Oid) :
    Doc.IsOf (("_id", .oid i) :: x.written ref members) x.cls := by
  refine ⟨⟨_, fields_written x ref members i⟩, fun f hf => ⟨ref f, ?_⟩⟩
  rw [Doc.get?_cons, if_neg (by cases f <;> decide)]
  exact get?_written hf

theorem shaped_written {x : Fields} (hx : x.cls ≠ .additionalInfoDB) (ref : RefField → Bson) (members : Bson) (i : Oid) :
    x.kind.Shaped (("_id", .oid i) :: x.written ref members) := by
  have h := isOf_written x ref members i
  cases x with
  | account => exact h
  | group => exact h
  | additionalInfo => exact absurd rfl hx
  | student => exact .inl ⟨h, by simp [Fields.written]⟩
  | teacher => exact .inr ⟨h, by simp [Fields.written]⟩
  | schedule => trivial

/-- An id is written for an object that exists only. -/
theorem value_eq_oid {h : Memory} {v : Pointer} {i : Oid} (hv : v.value h = .ok (.oid i)) :
    ∃ p b x, v = .to p ∧ h.get p = some ⟨some b, x⟩ ∧ b.isExist = true ∧ b.id = i := by
  cases v with
  | uninit => cases hv
  | null => cases hv
  | «to» p =>
    simp only [Pointer.value] at hv
    cases hp : header h p with
    | error e => simp [hp] at hv
    | ok b =>
      obtain ⟨x, hx⟩ := header_eq_ok.mp hp
      simp only [hp, Except.ok.injEq] at hv
      cases hb : b.isExist with
      | false => simp [hb, nullValue] at hv
      | true =>
        simp only [hb, if_true, Bson.oid.injEq] at hv
        exact ⟨p, b, x, rfl, hx, hb, hv⟩

/-- A pointer stands for an id: it designates the object that has the id and exists; for none it is null, or designates an
object that no longer exists. -/
inductive Pointer.StandsFor (h : Memory) : Pointer → Option Oid → Prop
  | null : StandsFor h .null none
  | gone {p : ℕ} {b : IFromDB} {x : Fields} (hp : h.get p = some ⟨some b, x⟩) (hb : b.isExist = false) :
      StandsFor h (.to p) none
  | there {p : ℕ} {b : IFromDB} {x : Fields} (hp : h.get p = some ⟨some b, x⟩) (hb : b.isExist = true) :
      StandsFor h (.to p) (some b.id)

/-- The id a pointer stands for is the one that is written for it. -/
theorem standsFor_iff {h : Memory} {v : Pointer} {i : Option Oid} :
    v.StandsFor h i ↔ ∃ u, v.value h = .ok u ∧ u.oid? = i := by
  constructor
  · intro hs
    cases hs with
    | null => exact ⟨nullValue, rfl, rfl⟩
    | gone hp hb => exact ⟨nullValue, by simp [Pointer.value, header_eq_ok.mpr ⟨_, hp⟩, hb], rfl⟩
    | @there _ b _ hp hb => exact ⟨.oid b.id, by simp [Pointer.value, header_eq_ok.mpr ⟨_, hp⟩, hb], rfl⟩
  · rintro ⟨u, hu, rfl⟩
    cases v with
    | uninit => cases hu
    | null =>
      obtain rfl := Except.ok.inj hu
      exact .null
    | «to» p =>
      simp only [Pointer.value] at hu
      cases hh : header h p with
      | error e => simp [hh] at hu
      | ok b =>
        obtain ⟨x, hp⟩ := header_eq_ok.mp hh
        simp only [hh, Except.ok.injEq] at hu
        subst hu
        cases hb : b.isExist with
        | false => exact .gone hp hb
        | true => exact .there hp hb

theorem membersValue_ne_oid {h : Memory} {l : List ℕ} {m : Bson} (hm : membersValue h l = .ok m) (o : Oid) :
    m ≠ .oid o := by
  unfold membersValue at hm
  split_ifs at hm
  · cases hm; simp [nullValue]
  · rintro rfl
    cases he : existingIds h l <;> simp [he, Functor.map, Except.map] at hm

/-- An id in the document of an object is its `_id`, or the id of an object one of its members points to. -/
theorem oid_of_toDoc {h : Memory} {x : Fields} {d : Doc} {key : String} {i : Oid} (hd : x.toDoc h = .ok d)
    (hk : d.get? key = some (.oid i)) : ∃ f p b y, key = f.key ∧ x.ref f = some (.to p) ∧
      h.get p = some ⟨some b, y⟩ ∧ b.isExist = true ∧ b.id = i := by
  obtain ⟨ref, members, hw, rfl⟩ := toDoc_eq_ok.mp hd
  obtain ⟨f, hf, rfl, hi⟩ : ∃ f ∈ x.cls.refs, key = f.key ∧ ref f = .oid i := by
    by_cases hg : ∃ g, x = .group g
    · obtain ⟨g, rfl⟩ := hg
      exact ref_of_written hk (membersValue_ne_oid (hw.members g rfl))
    · have he : x.written ref members = x.written ref nullValue := by cases x <;> first | rfl | exact absurd ⟨_, rfl⟩ hg
      exact ref_of_written (he ▸ hk) (by simp [nullValue])
  obtain ⟨v, hv⟩ := Fields.mem_refs.mp hf
  obtain ⟨p, b, y, rfl, hp⟩ := value_eq_oid ((hw.ref f v hv).trans (congrArg _ hi))
  exact ⟨f, p, b, y, rfl, hv, hp⟩

/-! ### One class for each document -/

theorem DBClass.kind_ne {c : DBClass} (hc : c ≠ .additionalInfoDB) (hk : c.kind = .infos) :
    c = .studentInfoDB ∨ c = .teacherInfoDB := by
  cases c <;> simp_all [DBClass.kind]

theorem curs_of_student {d : Doc} {x : Fields} (h : DBClass.studentInfoDB.fields d = .ok x) : d.get? "Curs" ≠ none := by
  simp only [DBClass.fields, exceptBind_eq_ok] at h
  obtain ⟨_, -, _, -, _, h, -⟩ := h
  rw [Doc.getInt32_eq_ok.mp h]
  simp

theorem faculty_of_teacher {d : Doc} {x : Fields} (h : DBClass.teacherInfoDB.fields d = .ok x) :
    d.get? "Faculty" ≠ none := by
  simp only [DBClass.fields, exceptBind_eq_ok] at h
  obtain ⟨_, -, _, -, _, h, -⟩ := h
  rw [Doc.getString_eq_ok.mp h]
  simp

/-- A stored document a constructor of its collection accepts is of the class. -/
theorem Kind.Shaped.isOf {k : Kind} {d : Doc} {c : DBClass} (h : k.Shaped d) (hk : c.kind = k) (hs : k ≠ .schedules)
    (hc : c ≠ .additionalInfoDB) (hf : ∃ x, c.fields d = .ok x) : d.IsOf c := by
  obtain ⟨x, hx⟩ := hf
  subst hk
  cases c with
  | accountDB => exact h
  | groupDB => exact h
  | additionalInfoDB => exact absurd rfl hc
  | studentInfoDB =>
    rcases h with ⟨h, -⟩ | ⟨-, h⟩
    · exact h
    · exact absurd h (curs_of_student hx)
  | teacherInfoDB =>
    rcases h with ⟨-, h⟩ | ⟨h, -⟩
    · exact absurd h (faculty_of_teacher hx)
    · exact h
  | scheduleDB => exact absurd rfl hs

/-- An info is a student or a teacher, not both. -/
theorem Kind.Shaped.unique {d : Doc} {c c' : DBClass} (h : Kind.infos.Shaped d) (hk : c.kind = .infos)
    (hk' : c'.kind = .infos) (hc : c ≠ .additionalInfoDB) (hc' : c' ≠ .additionalInfoDB)
    (hf : ∃ x, c.fields d = .ok x) (hf' : ∃ x, c'.fields d = .ok x) : c = c' := by
  obtain ⟨x, hx⟩ := hf
  obtain ⟨x', hx'⟩ := hf'
  have hnot : ∀ {y z}, DBClass.studentInfoDB.fields d = .ok y → DBClass.teacherInfoDB.fields d = .ok z → False := by
    intro y z hy hz
    rcases h with ⟨-, h⟩ | ⟨-, h⟩
    · exact faculty_of_teacher hz h
    · exact curs_of_student hy h
  rcases DBClass.kind_ne hc hk with rfl | rfl <;> rcases DBClass.kind_ne hc' hk' with rfl | rfl
  · rfl
  · exact (hnot hx hx').elim
  · exact (hnot hx' hx).elim
  · rfl

end Cbt
