import Cbt.Model.References

/-! The widgets of the windows, as far as commands read them back. A combo box
remembers its entries and the chosen one; a table is what its last fill computed,
and the fill is a command because it asks entities for their references. The
account form is refilled from the account it shows. -/

namespace Cbt

open Lib.Command (run_bind_iff fault ofExcept)

/-- `c_str`: the text up to the first null character. -/
def cStr (s : String) : String := String.ofList (s.toList.takeWhile (· ≠ Char.ofNat 0))

/-- `QString::toInt`: a number in decimal that fits, between blanks, otherwise 0. -/
def toInt (s : String) : Int32 :=
  let digits (l : List Char) : Option ℕ :=
    if l = [] then none
    else l.foldlM (fun n c => if c.isDigit then some (10 * n + (c.toNat - 48)) else none) 0
  let n? : Option ℤ := match s.trimAscii.toString.toList with
    | '-' :: l => (digits l).map fun n => -n
    | '+' :: l => (digits l).map fun n => n
    | l => (digits l).map fun n => n
  match n? with
  | none => 0
  | some n => if -2147483648 ≤ n ∧ n ≤ 2147483647 then .ofInt n else 0

/-! ### Combo boxes -/

/-- A combo box that is not editable. -/
structure ComboBox where
  items : List String := []
  currentIndex : Option ℕ := none
  deriving DecidableEq, Repr

namespace ComboBox

/-- The first entry of an empty box becomes the current one. -/
def addItem (box : ComboBox) (text : String) : ComboBox where
  items := box.items ++ [text]
  currentIndex := if box.items = [] then some 0 else box.currentIndex

/-- The first entry with the text becomes the current one, if there is one. -/
def setCurrentText (box : ComboBox) (text : String) : ComboBox :=
  match box.items.findIdx? (· = text) with
  | none => box
  | some i => { box with currentIndex := some i }

def currentText (box : ComboBox) : String := (box.currentIndex.bind (box.items[·]?)).getD ""

/-- The user chooses an entry; only those of the box can be chosen. -/
def choose (box : ComboBox) (i : ℕ) : ComboBox :=
  if i < box.items.length then { box with currentIndex := some i } else box

/-- A box of some entries, `"None"` before them and chosen. -/
def ofNames (names : List String) : ComboBox :=
  (("None" :: names).foldl addItem {}).setCurrentText "None"

end ComboBox

/-! ### Plain parts -/

/-- The plain part of an account. -/
def accountOf (this : ℕ) : Cmd Account := do
  match (← obj this).fields with
  | .account a => return a
  | _ => fault .badClass

/-- The plain part of a student's info. -/
def studentOf (this : ℕ) : Cmd StudentInfo := do
  match (← obj this).fields with
  | .student s => return s
  | _ => fault .badClass

/-- The plain part of a teacher's info. -/
def teacherOf (this : ℕ) : Cmd TeacherInfo := do
  match (← obj this).fields with
  | .teacher t => return t
  | _ => fault .badClass

/-- The plain part of a schedule. -/
def scheduleOf (this : ℕ) : Cmd Schedule := do
  match (← obj this).fields with
  | .schedule s => return s
  | _ => fault .badClass

section Runs
variable {w w' : World}

@[simp] theorem run_accountOf_iff {p : ℕ} {a : Account} :
    run (accountOf p) w = .ok (a, w') ↔ (∃ c, w.heap.get p = some ⟨c, .account a⟩) ∧ w = w' := by
  simp only [accountOf, run_bind_iff, run_obj_iff]
  constructor
  · rintro ⟨⟨c, x⟩, _, ⟨ho, rfl⟩, h⟩
    cases x <;> simp at h
    obtain ⟨rfl, rfl⟩ := h
    exact ⟨⟨c, ho⟩, rfl⟩
  · rintro ⟨⟨c, ho⟩, rfl⟩
    exact ⟨_, w, ⟨ho, rfl⟩, by simp⟩

@[simp] theorem run_studentOf_iff {p : ℕ} {s : StudentInfo} :
    run (studentOf p) w = .ok (s, w') ↔ (∃ c, w.heap.get p = some ⟨c, .student s⟩) ∧ w = w' := by
  simp only [studentOf, run_bind_iff, run_obj_iff]
  constructor
  · rintro ⟨⟨c, x⟩, _, ⟨ho, rfl⟩, h⟩
    cases x <;> simp at h
    obtain ⟨rfl, rfl⟩ := h
    exact ⟨⟨c, ho⟩, rfl⟩
  · rintro ⟨⟨c, ho⟩, rfl⟩
    exact ⟨_, w, ⟨ho, rfl⟩, by simp⟩

@[simp] theorem run_teacherOf_iff {p : ℕ} {t : TeacherInfo} :
    run (teacherOf p) w = .ok (t, w') ↔ (∃ c, w.heap.get p = some ⟨c, .teacher t⟩) ∧ w = w' := by
  simp only [teacherOf, run_bind_iff, run_obj_iff]
  constructor
  · rintro ⟨⟨c, x⟩, _, ⟨ho, rfl⟩, h⟩
    cases x <;> simp at h
    obtain ⟨rfl, rfl⟩ := h
    exact ⟨⟨c, ho⟩, rfl⟩
  · rintro ⟨⟨c, ho⟩, rfl⟩
    exact ⟨_, w, ⟨ho, rfl⟩, by simp⟩

@[simp] theorem run_scheduleOf_iff {p : ℕ} {s : Schedule} :
    run (scheduleOf p) w = .ok (s, w') ↔ (∃ c, w.heap.get p = some ⟨c, .schedule s⟩) ∧ w = w' := by
  simp only [scheduleOf, run_bind_iff, run_obj_iff]
  constructor
  · rintro ⟨⟨c, x⟩, _, ⟨ho, rfl⟩, h⟩
    cases x <;> simp at h
    obtain ⟨rfl, rfl⟩ := h
    exact ⟨⟨c, ho⟩, rfl⟩
  · rintro ⟨⟨c, ho⟩, rfl⟩
    exact ⟨_, w, ⟨ho, rfl⟩, by simp⟩

end Runs

/-- `dynamic_cast` of a pointer that is dereferenced next. -/
def castDeref (isClass : Fields → Bool) (p : Option ℕ) : Cmd ℕ := do
  match ← cast isClass p with
  | none => fault .nullPointer
  | some p => return p

/-! ### Tables of accounts -/

/-- A row of a table of accounts: the payload of its first column, and the texts of its two columns. -/
structure AccountRow where
  payload : ℕ
  firstName : String
  secondName : String
  deriving DecidableEq, Repr

/-- `oid::to_string`, 24 hexadecimal digits. -/
def Oid.toText (o : Oid) : String := String.ofList (List.leftpad 24 '0' (Nat.toDigits 16 o))

namespace AccountsTable

/-- What the loop of `UpdateTable` writes for one account. -/
def row (acc : ℕ) : Cmd AccountRow := do
  let info ← AccountDB.getAdditionalInfo acc
  match ← accountType acc with
  | .student =>
    let s ← studentOf (← castDeref Fields.isStudent info)
    return ⟨acc, s.firstName, s.secondName⟩
  | .teacher =>
    let t ← teacherOf (← castDeref Fields.isTeacher info)
    return ⟨acc, t.firstName, t.secondName⟩
  | .admin => return ⟨acc, "ADMIN", Oid.toText (← fromDB acc).id⟩

/-- `UpdateTable` over the accounts the table lists; null pointers are left out. -/
def updateTable : List (Option ℕ) → Cmd (List AccountRow)
  | [] => return []
  | none :: accs => updateTable accs
  | some acc :: accs => do return (← row acc) :: (← updateTable accs)

def getAccounts : Cmd (List (Option ℕ)) := do return (← Controller.getAll .accounts).map some

end AccountsTable

namespace UngroupedAccountsTable

/-- The loop of `getAccounts`: the students without a group. -/
def ungrouped : List ℕ → Cmd (List (Option ℕ))
  | [] => return []
  | acc :: accs => do
    match ← cast Fields.isStudent (← AccountDB.getAdditionalInfo acc) with
    | none => ungrouped accs
    | some stud =>
      if (← StudentInfoDB.getGroup stud).isNone then return some acc :: (← ungrouped accs)
      else ungrouped accs

def getAccounts : Cmd (List (Option ℕ)) := do ungrouped (← Controller.getAll .accounts)

end UngroupedAccountsTable

namespace GroupedAccountsTable

/-- The accounts of some students. -/
def owners : List ℕ → Cmd (List (Option ℕ))
  | [] => return []
  | info :: infos => do return (← StudentInfoDB.getOwner info) :: (← owners infos)

def getAccounts : Option ℕ → Cmd (List (Option ℕ))
  | none => return []
  | some group => do
    if (← fromDB group).isExist = false then return []
    else owners (← GroupDB.getStudents group)

end GroupedAccountsTable

namespace TeachersTable

def getAccounts : Cmd (List (Option ℕ)) := do return (← AccountsController.getAllTeachers).map some

end TeachersTable

/-! ### Other tables -/

/-- The names of some groups. -/
def groupNames : List ℕ → Cmd (List String)
  | [] => return []
  | grp :: grps => do return (← groupOf grp).name :: (← groupNames grps)

/-- `UpdateTable` of the tables of groups: the groups and their names. -/
def GroupsDBTable.updateTable : Cmd (List (ℕ × String)) := do
  let grps ← Controller.getAll .groups
  return grps.zip (← groupNames grps)

/-- What the table of lessons shows. -/
def PosibleLessonsTable.getLessonsTypes : Option ℕ → Cmd (List String)
  | none => return []
  | some teacher => do return (← teacherOf teacher).lessonsTypes

namespace ScheduleTable

/-- `schedules`, an array of `SchedulesArrayLenght` pointers. -/
abbrev Schedules := Fin 8 → Option ℕ

/-- The loop of `setSchedules`; the number of the lesson is the index. -/
def place (schedules : Schedules) : List ℕ → Cmd Schedules
  | [] => return schedules
  | sched :: scheds => do
    let n := (← scheduleOf sched).paraNumber.toInt
    if h : 0 ≤ n ∧ n < 8 then
      place (Function.update schedules ⟨n.toNat, by omega⟩ (some sched)) scheds
    else fault .outOfRange

/-- What the rows of the table show: the schedule that is the payload, and its name. -/
def updateTable (schedules : Schedules) : List (Fin 8) → Cmd (List (Option ℕ × String))
  | [] => return []
  | i :: is => do
    match schedules i with
    | none => return (none, "") :: (← updateTable schedules is)
    | some sched => return (some sched, (← scheduleOf sched).name) :: (← updateTable schedules is)

def setSchedules (scheds : List ℕ) : Cmd Schedules := do
  let schedules ← place (fun _ => none) scheds
  let _ ← updateTable schedules (List.finRange 8)
  return schedules

end ScheduleTable

/-! ### The account form -/

structure DisplayAccountWidget where
  acc : Option ℕ := none
  type : AccountType := .admin
  editLogin : String := ""
  editPassword : String := ""
  editType : AccountType := .admin
  editFirstName : String := ""
  editSecondName : String := ""
  editCurs : String := ""
  editFaculty : String := ""
  editGroup : ComboBox := {}
  deriving DecidableEq, Repr

namespace DisplayAccountWidget

/-- The fields of a student, empty or filled from the info. -/
def layStudent (form : DisplayAccountWidget) (filled : Bool) (addInf : Option ℕ) : Cmd DisplayAccountWidget := do
  let names ← groupNames (← Controller.getAll .groups)
  let form := { form with
    editFirstName := "", editSecondName := "", editCurs := "", editGroup := .ofNames (names.map cStr) }
  if filled then
    let p ← castDeref Fields.isStudent addInf
    let s ← studentOf p
    let form := { form with
      editFirstName := cStr s.firstName, editSecondName := cStr s.secondName, editCurs := toString s.curs.toInt }
    if (← StudentInfoDB.getGroup p).isSome then
      match ← StudentInfoDB.getGroup p with
      | none => fault .nullPointer
      | some g =>
        let name := (← groupOf g).name
        return { form with editGroup := form.editGroup.setCurrentText (cStr name) }
    else return form
  else return form

/-- The fields of a teacher, empty or filled from the info. -/
def layTeacher (form : DisplayAccountWidget) (filled : Bool) (addInf : Option ℕ) : Cmd DisplayAccountWidget := do
  let form := { form with editFirstName := "", editSecondName := "", editFaculty := "" }
  if filled then
    let t ← teacherOf (← castDeref Fields.isTeacher addInf)
    return { form with
      editFirstName := cStr t.firstName, editSecondName := cStr t.secondName, editFaculty := cStr t.faculty }
  else return form

/-- The fields of the type are made anew, and filled when the account has an info and is of that type. -/
def setLayoutAcc (form : DisplayAccountWidget) : Cmd DisplayAccountWidget := do
  match form.acc with
  | none =>
    match form.type with
    | .student => layStudent form false none
    | .teacher => layTeacher form false none
    | .admin => return form
  | some acc =>
    let addInf ← AccountDB.getAdditionalInfo acc
    let a ← accountOf acc
    let form := { form with editLogin := cStr a.login, editPassword := cStr a.password }
    let filled := addInf.isSome && form.type = a.accountType
    match form.type with
    | .student => layStudent form filled addInf
    | .teacher => layTeacher form filled addInf
    | .admin => return form

def setType (form : DisplayAccountWidget) (type : AccountType) : Cmd DisplayAccountWidget :=
  setLayoutAcc { form with type := type }

/-- `editType->setCurrentIndex`, which signals a change. -/
def setEditType (form : DisplayAccountWidget) (type : AccountType) : Cmd DisplayAccountWidget :=
  if form.editType = type then return form
  else setType { form with editType := type } type

def setAccountDB (form : DisplayAccountWidget) (acc : Option ℕ) : Cmd DisplayAccountWidget := do
  let form := { form with acc := acc }
  match acc with
  | none =>
    let form ← setEditType form .admin
    setType form .admin
  | some acc =>
    let form ← setEditType form (← accountType acc)
    setType form (← accountType acc)

/-- The loop of `getGroupFromEdit`: the first group with the name. -/
def findName (text : String) : List ℕ → Cmd (Option ℕ)
  | [] => return none
  | grp :: grps => do
    if (← groupOf grp).name = text then return some grp
    else findName text grps

def getGroupFromEdit (form : DisplayAccountWidget) : Cmd (Option ℕ) := do
  findName form.editGroup.currentText (← Controller.getAll .groups)

/-- The new account, and the new info unless it is an administrator's. -/
def getNewAccount (form : DisplayAccountWidget) : Cmd (ℕ × Option ℕ) := do
  let resAcc ← newObj ⟨none, .account
    { login := form.editLogin, password := form.editPassword, accountType := form.editType }⟩
  match form.editType with
  | .student =>
    let studInf ← newObj ⟨none, .student
      { firstName := form.editFirstName, secondName := form.editSecondName, curs := toInt form.editCurs }⟩
    if (← getGroupFromEdit form).isSome then StudentInfo.setGroup studInf (← getGroupFromEdit form)
    return (resAcc, some studInf)
  | .teacher =>
    let teachInf ← newObj ⟨none, .teacher
      { firstName := form.editFirstName, secondName := form.editSecondName, faculty := form.editFaculty }⟩
    return (resAcc, some teachInf)
  | .admin => return (resAcc, none)

/-- Assign the login, the password and the type of an account. -/
def assignAccount (acc : ℕ) (login password : String) (type : AccountType) : Cmd Unit := do
  let o ← obj acc
  match o.fields with
  | .account a => setObj acc { o with fields := .account { a with login := login, password := password, accountType := type } }
  | _ => fault .badClass

/-- The account, its info so far, and a new info unless it becomes an administrator's. -/
def getAccountForDBUpdate (form : DisplayAccountWidget) : Cmd (ℕ × Option ℕ × Option ℕ) := do
  match form.acc with
  | none => fault .nullPointer
  | some resAcc =>
    assignAccount resAcc form.editLogin form.editPassword form.editType
    let prevAddInf ← AccountDB.getAdditionalInfo resAcc
    match form.editType with
    | .student =>
      let studInf ← newObj ⟨none, .student
        { firstName := form.editFirstName, secondName := form.editSecondName, curs := toInt form.editCurs }⟩
      StudentInfo.setGroup studInf (← getGroupFromEdit form)
      return (resAcc, prevAddInf, some studInf)
    | .teacher =>
      let teachInf ← newObj ⟨none, .teacher
        { firstName := form.editFirstName, secondName := form.editSecondName, faculty := form.editFaculty }⟩
      return (resAcc, prevAddInf, some teachInf)
    | .admin => return (resAcc, prevAddInf, none)

def getAccountForDelete (form : DisplayAccountWidget) : Option ℕ := form.acc

end DisplayAccountWidget

end Cbt
