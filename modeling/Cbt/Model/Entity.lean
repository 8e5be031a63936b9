import Cbt.Lib.Heap
import Cbt.Store.Database

/-! The entity classes, what they write into a document and how they are built
from one. An object of a `…DB` class is an object of the plain class together
with the part `IFromDB` that remembers the document it came from; a plain object
is made by a form and lives until a controller has stored it. References are
addresses of other objects and are written as the id of an object that still
exists, or as `NULL`. -/

namespace Cbt

inductive AccountType where
  | admin | teacher | student
  deriving DecidableEq, Repr

namespace AccountType

def toInt : AccountType → Int32
  | admin => 0
  | teacher => 1
  | student => 2

/-- `static_cast<enum AccountType>`. A number outside 0 to 3 has no defined result. The value 3 is defined but has no
name and no function writes it; the model stops there as well and says nothing about documents that hold it. -/
def ofInt (n : Int32) : Except Fault AccountType :=
  if n = 0 then .ok admin else if n = 1 then .ok teacher else if n = 2 then .ok student else .error .badEnum

@[simp] theorem ofInt_toInt (t : AccountType) : ofInt t.toInt = .ok t := by cases t <;> rfl

end AccountType

/-- A Qt date: a Julian day in Qt's range, or the null date's own number. -/
structure QDate where
  julianDay : Int64
  valid : julianDay = Int64.minValue ∨ (-784350574879 ≤ julianDay ∧ julianDay ≤ 784354017364)
  deriving DecidableEq, Repr

namespace QDate

def null : QDate := ⟨Int64.minValue, .inl rfl⟩

def toJulianDay (d : QDate) : Int64 := d.julianDay

def fromJulianDay (n : Int64) : QDate :=
  if h : -784350574879 ≤ n ∧ n ≤ 784354017364 then ⟨n, .inr h⟩ else null

@[simp] theorem fromJulianDay_toJulianDay (d : QDate) : fromJulianDay d.toJulianDay = d := by
  obtain ⟨n, h⟩ := d
  by_cases hr : -784350574879 ≤ n ∧ n ≤ 784354017364
  · exact dif_pos hr
  · rcases h with rfl | h
    · rfl
    · exact absurd h hr

end QDate

/-- A pointer variable: never given a value, null, or the address of an object. -/
inductive Pointer where
  | uninit
  | null
  | to (p : ℕ)
  deriving DecidableEq, Repr

/-- The object a pointer designates, as a list. -/
def Pointer.targets : Pointer → List ℕ
  | .to p => [p]
  | _ => []

@[simp] theorem Pointer.targets_to (p : ℕ) : (Pointer.to p).targets = [p] := rfl
@[simp] theorem Pointer.targets_null : Pointer.null.targets = [] := rfl
@[simp] theorem Pointer.targets_uninit : Pointer.uninit.targets = [] := rfl

/-- A pointer argument of a setter. -/
def Pointer.ofOption : Option ℕ → Pointer
  | none => .null
  | some p => .to p

structure LogPass where
  login : String
  password : String
  deriving DecidableEq, Repr

structure Account extends LogPass where
  accountType : AccountType
  additionalInfo : Pointer := .null
  deriving DecidableEq, Repr

structure AdditionalInfo where
  firstName : String
  secondName : String
  owner : Pointer := .null
  deriving DecidableEq, Repr

structure StudentInfo extends AdditionalInfo where
  curs : Int32
  group : Pointer := .null
  deriving DecidableEq, Repr

structure TeacherInfo extends AdditionalInfo where
  faculty : String
  lessonsTypes : List String := []
  deriving DecidableEq, Repr

structure Group where
  name : String
  students : List ℕ := []
  curator : Pointer := .null
  deriving DecidableEq, Repr

/-- A `Para` variable holds whatever number was cast into it. -/
abbrev Para := Int32

/-- The constructor leaves both pointers of a schedule without a value. -/
structure Schedule where
  date : QDate
  name : String
  paraNumber : Para
  teacher : Pointer := .uninit
  group : Pointer := .uninit
  deriving DecidableEq, Repr

structure IFromDB where
  ownedCount : ℤ := 0
  isExist : Bool := true
  doc : Doc
  id : Oid
  deriving DecidableEq, Repr

/-- The plain part of an object; `AdditionalInfoDB` has none. -/
inductive Fields where
  | account (a : Account)
  | group (g : Group)
  | additionalInfo
  | student (s : StudentInfo)
  | teacher (t : TeacherInfo)
  | schedule (s : Schedule)
  deriving DecidableEq, Repr

/-- An object in memory; a plain one has no part from the database. -/
structure Obj where
  fromDB : Option IFromDB
  fields : Fields
  deriving DecidableEq, Repr

/-- The entity objects the process has allocated. -/
abbrev Memory := Lib.Heap Obj

/-! ### References -/

/-- The pointer members of the classes. -/
inductive RefField where
  | additionalInfo | curator | owner | group | teacher
  deriving DecidableEq, Repr

namespace Fields

/-- The pointer member of a class that has it. -/
def ref : Fields → RefField → Option Pointer
  | account a, .additionalInfo => some a.additionalInfo
  | group g, .curator => some g.curator
  | student s, .owner => some s.owner
  | student s, .group => some s.group
  | teacher t, .owner => some t.owner
  | schedule s, .teacher => some s.teacher
  | schedule s, .group => some s.group
  | _, _ => none

def setRef : Fields → RefField → Pointer → Fields
  | account a, .additionalInfo, v => account { a with additionalInfo := v }
  | group g, .curator, v => group { g with curator := v }
  | student s, .owner, v => student { s with owner := v }
  | student s, .group, v => student { s with group := v }
  | teacher t, .owner, v => teacher { t with owner := v }
  | schedule s, .teacher, v => schedule { s with teacher := v }
  | schedule s, .group, v => schedule { s with group := v }
  | x, _, _ => x

/-- The objects designated by the members, each as often as it is. -/
def refs : Fields → List ℕ
  | account a => a.additionalInfo.targets
  | group g => g.curator.targets ++ g.students
  | additionalInfo => []
  | student s => s.owner.targets ++ s.group.targets
  | teacher t => t.owner.targets
  | schedule s => s.teacher.targets ++ s.group.targets

theorem refs_setRef {x : Fields} {f : RefField} {a : Pointer} (ha : x.ref f = some a) (b : Pointer) (p : ℕ) :
    ((x.setRef f b).refs.count p : ℤ) = x.refs.count p - a.targets.count p + b.targets.count p := by
  cases x <;> cases f <;> simp only [ref, Option.some.injEq, reduceCtorEq] at ha <;> subst ha <;>
    simp only [setRef, refs, List.count_append] <;> push_cast <;> ring

theorem mem_refs_of_ref {x : Fields} {f : RefField} {p : ℕ} (h : x.ref f = some (.to p)) : p ∈ x.refs := by
  cases x <;> cases f <;> simp_all [ref, refs]

@[simp] theorem ref_setRef {x : Fields} {f : RefField} {a : Pointer} (ha : x.ref f = some a) (b : Pointer) :
    (x.setRef f b).ref f = some b := by
  cases x <;> cases f <;> simp_all [ref, setRef]

theorem mem_refs_iff {x : Fields} {p : ℕ} :
    p ∈ x.refs ↔ (∃ f, x.ref f = some (.to p)) ∨ ∃ g, x = .group g ∧ p ∈ g.students := by
  constructor
  · have hto : ∀ {v : Pointer}, p ∈ v.targets → v = .to p := by
      intro v hv
      cases v <;> simp at hv
      rw [hv]
    intro h
    cases x <;> simp only [refs, List.mem_append, List.not_mem_nil] at h
    case account a => exact .inl ⟨.additionalInfo, congrArg some (hto h)⟩
    case group g =>
      exact h.imp (fun h => ⟨.curator, congrArg some (hto h)⟩) fun h => ⟨g, rfl, h⟩
    case student s =>
      exact .inl (h.elim (fun h => ⟨.owner, congrArg some (hto h)⟩) fun h => ⟨.group, congrArg some (hto h)⟩)
    case teacher t => exact .inl ⟨.owner, congrArg some (hto h)⟩
    case schedule s =>
      exact .inl (h.elim (fun h => ⟨.teacher, congrArg some (hto h)⟩) fun h => ⟨.group, congrArg some (hto h)⟩)
  · rintro (⟨f, h⟩ | ⟨g, rfl, h⟩)
    · exact mem_refs_of_ref h
    · exact List.mem_append_right _ h

end Fields

/-! ### Writing documents -/

/-- The part of an object that came from the database, behind a pointer to a `…DB` class. -/
def header (h : Memory) (p : ℕ) : Except Fault IFromDB :=
  match h.get p with
  | none => .error .freedObject
  | some o => match o.fromDB with
    | none => .error .badClass
    | some b => .ok b

/-- One reference: the id of an object that exists, otherwise `NULL`. -/
def buildRef (h : Memory) (key : String) : Pointer → Except Fault Doc
  | .uninit => .error .uninitPointer
  | .null => .ok [(key, nullValue)]
  | .to p => match header h p with
    | .error e => .error e
    | .ok b => .ok [(key, if b.isExist then .oid b.id else nullValue)]

/-- The ids of the listed objects that exist. -/
def existingIds (h : Memory) : List ℕ → Except Fault (List Oid)
  | [] => .ok []
  | p :: ps => match header h p, existingIds h ps with
    | .ok b, .ok ids => .ok (if b.isExist then b.id :: ids else ids)
    | .error e, _ => .error e
    | _, .error e => .error e

def IFromDB.build (b : IFromDB) : Doc := [("_id", .oid b.id)]

def LogPass.build (l : LogPass) : Doc := [("Login", .string l.login), ("Password", .string l.password)]

def LogPass.toDoc (l : LogPass) : Doc := l.build

def Account.build (h : Memory) (a : Account) : Except Fault Doc := do
  let ref ← buildRef h "AdditionalInfo" a.additionalInfo
  return ("AccountType", .int32 a.accountType.toInt) :: ref

def AdditionalInfo.build (h : Memory) (i : AdditionalInfo) : Except Fault Doc := do
  let ref ← buildRef h "Owner" i.owner
  return [("FirstName", .string i.firstName), ("SecondName", .string i.secondName)] ++ ref

def StudentInfo.build (h : Memory) (s : StudentInfo) : Except Fault Doc := do
  let ref ← buildRef h "Group" s.group
  return ("Curs", .int32 s.curs) :: ref

def TeacherInfo.build (t : TeacherInfo) : Doc :=
  [("Faculty", .string t.faculty), ("LessonsTypes", .array (t.lessonsTypes.map .string))]

def Group.build (h : Memory) (g : Group) : Except Fault Doc := do
  let ref ← buildRef h "Curator" g.curator
  let members ←
    if g.students.isEmpty then pure nullValue
    else (fun ids => Bson.array (ids.map .oid)) <$> existingIds h g.students
  return [("Name", .string g.name)] ++ ref ++ [("Members", members)]

def Schedule.build (h : Memory) (s : Schedule) : Except Fault Doc := do
  let teacher ← buildRef h "Teacher" s.teacher
  let group ← buildRef h "Group" s.group
  return [("Name", .string s.name), ("Date", .int64 s.date.toJulianDay), ("Para", .int32 s.paraNumber)] ++
    teacher ++ group

/-- `toDoc` of the plain classes. `AdditionalInfoDB` appends nothing of its own. -/
def Fields.toDoc (h : Memory) : Fields → Except Fault Doc
  | .account a => do return a.toLogPass.build ++ (← a.build h)
  | .group g => g.build h
  | .additionalInfo => return []
  | .student s => do return (← s.toAdditionalInfo.build h) ++ (← s.build h)
  | .teacher t => do return (← t.toAdditionalInfo.build h) ++ t.build
  | .schedule s => s.build h

/-- `toDoc`: a `…DB` class puts its `_id` before what the plain class writes. -/
def Obj.toDoc (h : Memory) (o : Obj) : Except Fault Doc := do
  let d ← o.fields.toDoc h
  match o.fromDB with
  | none => return d
  | some b => return b.build ++ d

/-! ### Building objects -/

/-- The classes a document is turned into. -/
inductive DBClass where
  | accountDB | groupDB | additionalInfoDB | studentInfoDB | teacherInfoDB | scheduleDB
  deriving DecidableEq, Repr

def getStrings : List Element → Except Fault (List String)
  | [] => .ok []
  | e :: es => do return (← e.getString) :: (← getStrings es)

/-- The lesson types of a teacher; a document without them gives none. -/
def lessonsTypesOf (d : Doc) : Except Fault (List String) :=
  match d.get? "LessonsTypes" with
  | none => .ok []
  | some (.array vs) => getStrings vs
  | some _ => .error .elementType

def IFromDB.ofDoc (d : Doc) : Except Fault IFromDB := do return { doc := d, id := ← d.getOid "_id" }

/-- The plain part of the object a constructor makes. -/
def DBClass.fields (d : Doc) : DBClass → Except Fault Fields
  | .accountDB => do
    return .account { login := ← d.getString "Login", password := ← d.getString "Password",
                      accountType := ← AccountType.ofInt (← d.getInt32 "AccountType") }
  | .groupDB => do return .group { name := ← d.getString "Name" }
  | .additionalInfoDB => return .additionalInfo
  | .studentInfoDB => do
    return .student { firstName := ← d.getString "FirstName", secondName := ← d.getString "SecondName",
                      curs := ← d.getInt32 "Curs" }
  | .teacherInfoDB => do
    return .teacher { firstName := ← d.getString "FirstName", secondName := ← d.getString "SecondName",
                      faculty := ← d.getString "Faculty", lessonsTypes := ← lessonsTypesOf d }
  | .scheduleDB => do
    return .schedule { date := .fromJulianDay (← d.getInt64 "Date"), name := ← d.getString "Name",
                       paraNumber := ← d.getInt32 "Para" }

/-- The constructor of a `…DB` class. -/
def DBClass.ofDoc (c : DBClass) (d : Doc) : Except Fault Obj := do
  let x ← c.fields d
  let b ← IFromDB.ofDoc d
  return { fromDB := some b, fields := x }

end Cbt
