import Cbt.Model.Controller

/-! Setters and getters of references. A setter stores the pointer and counts it.
A getter follows the pointer, loads the object named in the entity's own document
when the pointer is null, and lets go of an object that no longer exists. The
getters are one definition; each names its member, its key and its way to load. -/

namespace Cbt

open Lib.Command (fault ofExcept)

/-- The classes a pointer member may point to. -/
def RefField.admits : RefField → Fields → Bool
  | .additionalInfo, x => x.kind = .infos
  | .curator, .teacher _ | .teacher, .teacher _ | .owner, .account _ | .group, .group _ => true
  | _, _ => false

/-- Assign a pointer member. -/
def assign (f : RefField) (this : ℕ) (v : Pointer) : Cmd Unit := do
  let o ← obj this
  setObj this { o with fields := o.fields.setRef f v }

/-- A setter: the member takes the pointer, and the object it now points to is counted. -/
def setRef (f : RefField) (this : ℕ) (v : Option ℕ) : Cmd Unit := do
  if ((← obj this).fields.ref f).isNone then fault .badClass
  match v with
  | none => assign f this .null
  | some q =>
    if f.admits (← obj q).fields = false then fault .badClass
    assign f this (.to q)
    own q 1

def Account.setAdditionalInfo : ℕ → Option ℕ → Cmd Unit := setRef .additionalInfo
def Group.setCurator : ℕ → Option ℕ → Cmd Unit := setRef .curator
def StudentInfo.setGroup : ℕ → Option ℕ → Cmd Unit := setRef .group
def AdditionalInfo.setOwner : ℕ → Option ℕ → Cmd Unit := setRef .owner
def Schedule.setTeacher : ℕ → Option ℕ → Cmd Unit := setRef .teacher
def Schedule.setGroup : ℕ → Option ℕ → Cmd Unit := setRef .group

/-- `dynamic_cast` to a class. -/
def cast (isClass : Fields → Bool) : Option ℕ → Cmd (Option ℕ)
  | none => return none
  | some p => do return if isClass (← obj p).fields then some p else none

def Fields.isStudent : Fields → Bool
  | .student _ => true
  | _ => false

def Fields.isTeacher : Fields → Bool
  | .teacher _ => true
  | _ => false

/-- The end of a getter, with a pointer that is not null. -/
def settle (f : RefField) (this p : ℕ) : Cmd (Option ℕ) := do
  if (← fromDB p).isExist then return some p
  else
    own p (-1)
    if (← fromDB p).ownedCount = 0 then destroy p
    assign f this .null
    return none

/-- A getter. The first alternative is the pointer member that was never given a value. -/
def getRef (f : RefField) (key : String) (load : Oid → Cmd (Option ℕ)) (this : ℕ) : Cmd (Option ℕ) := do
  match (← obj this).fields.ref f with
  | none => fault .badClass
  | some .uninit => fault .uninitPointer
  | some .null =>
    match (← ofExcept ((← fromDB this).doc.elem key)).oid? with
    | none => return none
    | some oid =>
      match ← load oid with
      | none => return none
      | some p =>
        assign f this (.to p)
        settle f this p
  | some (.to p) => settle f this p

def GroupDB.getCurator : ℕ → Cmd (Option ℕ) :=
  getRef .curator "Curator" fun oid => do cast Fields.isTeacher (← InfosController.getFromDB oid .teacher)

def TeacherInfoDB.getOwner : ℕ → Cmd (Option ℕ) := getRef .owner "Owner" (Controller.getFromDB .accounts)

def StudentInfoDB.getOwner : ℕ → Cmd (Option ℕ) := getRef .owner "Owner" (Controller.getFromDB .accounts)

def StudentInfoDB.getGroup : ℕ → Cmd (Option ℕ) := getRef .group "Group" (Controller.getFromDB .groups)

def ScheduleDB.getGroup : ℕ → Cmd (Option ℕ) := getRef .group "Group" (Controller.getFromDB .groups)

/-- The account type of an account object. -/
def accountType (this : ℕ) : Cmd AccountType := do
  match (← obj this).fields with
  | .account a => return a.accountType
  | _ => fault .badClass

def AccountDB.getAdditionalInfo (this : ℕ) : Cmd (Option ℕ) :=
  getRef .additionalInfo "AdditionalInfo"
    (fun oid => do InfosController.getFromDB oid (← accountType this)) this

/-- Reads the key `AdditionalInfo`, which a schedule does not have. -/
def ScheduleDB.getTeacher : ℕ → Cmd (Option ℕ) :=
  getRef .teacher "AdditionalInfo" fun oid => do cast Fields.isTeacher (← InfosController.getFromDB oid .teacher)

/-! ### Members of a group -/

/-- The plain part of a group object. -/
def groupOf (this : ℕ) : Cmd Group := do
  match (← obj this).fields with
  | .group g => return g
  | _ => fault .badClass

/-- Assign the member `Students`. -/
def assignStudents (this : ℕ) (students : List ℕ) : Cmd Unit := do
  let o ← obj this
  let g ← groupOf this
  setObj this { o with fields := .group { g with students := students } }

/-- The static type `StudentInfoDB*` of an argument. -/
def checkStudent (p : ℕ) : Cmd Unit := do
  let o ← obj p
  if o.fields.isStudent = false ∨ o.fromDB.isNone then fault .badClass

def ownAll : List ℕ → Cmd Unit
  | [] => return ()
  | p :: ps => do
    own p 1
    ownAll ps

def Group.setStudents (this : ℕ) (students : List ℕ) : Cmd Unit := do
  students.forM checkStudent
  assignStudents this students
  ownAll students

namespace GroupDB

/-- A null student is dereferenced when the group's document is built. -/
def addStudent (this : ℕ) : Option ℕ → Cmd Bool
  | none => fault .nullPointer
  | some stud => do
    checkStudent stud
    assignStudents this ((← groupOf this).students ++ [stud])
    let _ ← Controller.update .groups this
    StudentInfo.setGroup stud (some this)
    let _ ← Controller.update .infos stud
    own stud 1
    return true

/-- The students without the first one that has the id, if one has it. -/
def eraseFirst (id : Oid) : List ℕ → Cmd (Option (List ℕ))
  | [] => return none
  | p :: ps => do
    if (← fromDB p).id = id then return some ps
    else return (← eraseFirst id ps).map (p :: ·)

/-- With no students the argument is not looked at. -/
def deleteStudent (this : ℕ) (stud : Option ℕ) : Cmd Bool := do
  match (← groupOf this).students, stud with
  | [], _ => return false
  | _ :: _, none => fault .nullPointer
  | p :: ps, some stud =>
    checkStudent stud
    match ← eraseFirst (← fromDB stud).id (p :: ps) with
    | none => return false
    | some rest =>
      assignStudents this rest
      let _ ← Controller.update .groups this
      StudentInfo.setGroup stud none
      let _ ← Controller.update .infos stud
      own stud (-1)
      return true

/-- The loop of `getStudents`. -/
def loadStudents (this : ℕ) : List Element → Cmd Unit
  | [] => return ()
  | studId :: rest => do
    match ← cast Fields.isStudent (← InfosController.getFromDB (← ofExcept studId.getOid) .student) with
    | none => loadStudents this rest
    | some res =>
      if (← fromDB res).isExist then assignStudents this ((← groupOf this).students ++ [res])
      loadStudents this rest

def getStudents (this : ℕ) : Cmd (List ℕ) := do
  assignStudents this []
  match ← ofExcept ((← fromDB this).doc.elem "Members") with
  | .array vs => loadStudents this vs
  | _ => pure ()
  return (← groupOf this).students

end GroupDB

/-! ### Adding an info -/

namespace InfosController

/-- The last steps of `Add`: the owner takes the new info and is stored. -/
def attach (tempAcc : Option ℕ) (res : ℕ) : Cmd Unit := do
  match tempAcc with
  | none => fault .nullPointer
  | some acc =>
    Account.setAdditionalInfo acc (some res)
    let _ ← Controller.update .accounts acc
    Controller.pushBack .infos res
    own res 1

def add (accInf : ℕ) (type : AccountType) : Cmd (Option ℕ) := do
  setChanged .infos true
  let temp ← Controller.elementDoc .infos accInf
  destroy accInf
  match ← insertOne .infos temp with
  | none => return none
  | some id =>
    let qeRes ← findOne .infos (Doc.byId id)
    match type with
    | .admin => return none
    | .student =>
      let temp ← construct .studentInfoDB (← value qeRes)
      let tempAcc ← StudentInfoDB.getOwner temp
      if (← StudentInfoDB.getGroup temp).isSome then
        match ← StudentInfoDB.getGroup temp with
        | none => fault .nullPointer
        | some group => let _ ← GroupDB.addStudent group (some temp)
      attach tempAcc temp
      return some temp
    | .teacher =>
      let temp ← construct .teacherInfoDB (← value qeRes)
      let tempAcc ← TeacherInfoDB.getOwner temp
      attach tempAcc temp
      return some temp

end InfosController

end Cbt
