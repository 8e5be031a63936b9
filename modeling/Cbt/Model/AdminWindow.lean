import Cbt.Model.Widgets

/-! The administrator's window. It remembers the entities that were selected and
the teachers its combo box lists; a slot is a command that also passes the window
on. The window assigns public members of entity objects directly, and what the
user types or chooses is in the widgets or an argument. -/

namespace Cbt

open Lib.Command (fault)

/-- The public scalar members a window assigns. -/
inductive Scalar where
  | login (s : String)
  | password (s : String)
  | name (s : String)
  | firstName (s : String)
  | secondName (s : String)
  | curs (n : Int32)
  | faculty (s : String)
  | lessonsTypes (l : List String)
  deriving DecidableEq, Repr

namespace Scalar

def key : Scalar → String
  | login _ => "Login"
  | password _ => "Password"
  | name _ => "Name"
  | firstName _ => "FirstName"
  | secondName _ => "SecondName"
  | curs _ => "Curs"
  | faculty _ => "Faculty"
  | lessonsTypes _ => "LessonsTypes"

/-- The assignment, for a class that has the member. -/
def set : Scalar → Fields → Option Fields
  | login s, .account a => some (.account { a with login := s })
  | password s, .account a => some (.account { a with password := s })
  | name s, .group g => some (.group { g with name := s })
  | firstName s, .student i => some (.student { i with firstName := s })
  | firstName s, .teacher t => some (.teacher { t with firstName := s })
  | secondName s, .student i => some (.student { i with secondName := s })
  | secondName s, .teacher t => some (.teacher { t with secondName := s })
  | curs n, .student i => some (.student { i with curs := n })
  | faculty s, .teacher t => some (.teacher { t with faculty := s })
  | lessonsTypes l, .teacher t => some (.teacher { t with lessonsTypes := l })
  | _, _ => none

end Scalar

def assignScalar (s : Scalar) (this : ℕ) : Cmd Unit := do
  let o ← obj this
  match s.set o.fields with
  | none => fault .badClass
  | some x => setObj this { o with fields := x }

/-- The window, with the calendar's own day next to the day it shows. -/
structure AdminWindow where
  group : Option ℕ := none
  teacher : Option ℕ := none
  schGroupDB : Option ℕ := none
  date : QDate
  selectedDate : QDate
  allCurators : List ℕ := []
  accountDisp : DisplayAccountWidget := {}
  curatorComboBox : ComboBox := {}
  groupNameEdit : String := ""
  schedulesTable : ScheduleTable.Schedules := fun _ => none

namespace AdminWindow

/-- The table of lessons shows the window's teacher. -/
def addClass (teacher : Option ℕ) (text : String) : Cmd Unit := do
  match teacher with
  | none => return ()
  | some this =>
    if text.isEmpty then return ()
    else
      let lessonsTypes := (← teacherOf this).lessonsTypes ++ [text]
      assignScalar (.lessonsTypes lessonsTypes) this
      let _ ← Controller.update .infos this
      let _ ← PosibleLessonsTable.getLessonsTypes teacher

/-- The loop of `DeleteClass` over the positions: the last entry equal to the text, else the position
it started with. -/
def classToDelete (text : String) : ℕ → ℕ → List String → ℕ
  | iterToDelete, _, [] => iterToDelete
  | iterToDelete, iter, s :: lessons =>
    classToDelete text (if s = text then iter else iterToDelete) (iter + 1) lessons

/-- Without an entry equal to the text the first one goes. -/
def deleteClass (teacher : Option ℕ) (text : String) : Cmd Unit := do
  match teacher with
  | none => return ()
  | some this =>
    if text.isEmpty then return ()
    else
      let lessons := (← teacherOf this).lessonsTypes
      if lessons.isEmpty then return ()
      else
        assignScalar (.lessonsTypes (lessons.eraseIdx (classToDelete text 0 0 lessons))) this
        let _ ← Controller.update .infos this
        let _ ← PosibleLessonsTable.getLessonsTypes teacher

/-! ### Groups -/

/-- The loop of `SetGroup` over the accounts: the infos that are teachers'. -/
def curators : List ℕ → Cmd (List ℕ)
  | [] => return []
  | acc :: accs => do
    if (← AccountDB.getAdditionalInfo acc).isSome then
      match ← cast Fields.isTeacher (← AccountDB.getAdditionalInfo acc) with
      | none => curators accs
      | some teach => return teach :: (← curators accs)
    else curators accs

/-- The entry of a teacher in the box of curators. -/
def curatorName (teach : ℕ) : Cmd String := do
  let t ← teacherOf teach
  return cStr (t.firstName ++ " " ++ t.secondName)

def curatorNames : List ℕ → Cmd (List String)
  | [] => return []
  | cur :: curs => do return (← curatorName cur) :: (← curatorNames curs)

/-- The entry of the group's curator is chosen, if there is one. -/
def chooseCurator (box : ComboBox) (grp : ℕ) : Cmd ComboBox := do
  if (← GroupDB.getCurator grp).isSome then
    match ← GroupDB.getCurator grp with
    | none => fault .nullPointer
    | some first =>
      let firstName := (← teacherOf first).firstName
      match ← GroupDB.getCurator grp with
      | none => fault .nullPointer
      | some second => return box.setCurrentText (cStr (firstName ++ " " ++ (← teacherOf second).secondName))
  else return box

def showGroup (win : AdminWindow) : Option ℕ → Cmd AdminWindow
  | none => return { win with groupNameEdit := "" }
  | some grp => do
    let curatorComboBox ← chooseCurator win.curatorComboBox grp
    return { win with curatorComboBox, groupNameEdit := cStr (← groupOf grp).name }

/-- The window's group and that of its table are always the same. -/
def setGroup (win : AdminWindow) (grp : Option ℕ) : Cmd AdminWindow := do
  let _ ← AccountsTable.updateTable (← GroupedAccountsTable.getAccounts grp)
  let allCurators ← curators (← Controller.getAll .accounts)
  let names ← curatorNames allCurators
  showGroup { win with group := grp, allCurators, curatorComboBox := .ofNames names } grp

def updateGroupsScrean (win : AdminWindow) (grp : Option ℕ) : Cmd AdminWindow := do
  let win ← setGroup win grp
  let _ ← AccountsTable.updateTable (← GroupedAccountsTable.getAccounts grp)
  let _ ← AccountsTable.updateTable (← UngroupedAccountsTable.getAccounts)
  let _ ← GroupsDBTable.updateTable
  return win

/-- The walk over `allCurators`, one step less than the index. -/
def curatorAt (win : AdminWindow) : Cmd ℕ :=
  match win.allCurators[win.curatorComboBox.currentIndex.getD 0 - 1]? with
  | none => fault .endIterator
  | some cur => return cur

/-- The curator goes to the selected group, not to the new one. -/
def addNewGroup (win : AdminWindow) : Cmd AdminWindow := do
  let grp ← newObj ⟨none, .group { name := win.groupNameEdit }⟩
  if win.curatorComboBox.currentIndex ≠ some 0 then
    let cur ← curatorAt win
    match win.group with
    | none => fault .nullPointer
    | some group => Group.setCurator group (some cur)
  updateGroupsScrean win (← Controller.add .groups grp)

def deleteGroup (win : AdminWindow) : Cmd AdminWindow := do
  match win.group with
  | none => pure ()
  | some group => let _ ← Controller.delete .groups (← fromDB group).id
  updateGroupsScrean { win with group := none } none

/-- The group is changed in memory and not stored. -/
def updateGroup (win : AdminWindow) : Cmd AdminWindow := do
  match win.group with
  | none => pure ()
  | some group =>
    assignScalar (.name win.groupNameEdit) group
    if win.curatorComboBox.currentIndex ≠ some 0 then Group.setCurator group (some (← curatorAt win))
    else Group.setCurator group none
  updateGroupsScrean win win.group

/-- The loop of `AddAccToGroup`: whether some student is the account's. -/
def hasAccount (acc : ℕ) : List ℕ → Cmd Bool
  | [] => return false
  | stud :: studs => do
    match ← StudentInfoDB.getOwner stud with
    | none => fault .nullPointer
    | some owner =>
      if (← fromDB owner).id = (← fromDB acc).id then return true
      else hasAccount acc studs

/-- The info of an account as a student's. -/
def studentInfoOf (acc : ℕ) : Cmd (Option ℕ) := do cast Fields.isStudent (← AccountDB.getAdditionalInfo acc)

def addAccToGroup (win : AdminWindow) (acc : ℕ) : Cmd AdminWindow := do
  match win.group with
  | none => return win
  | some group =>
    if ← hasAccount acc (← GroupDB.getStudents group) then return win
    else
      let _ ← GroupDB.addStudent group (← studentInfoOf acc)
      updateGroupsScrean win none

def deleteAccFromGroup (win : AdminWindow) (acc : ℕ) : Cmd AdminWindow := do
  match win.group with
  | none => pure ()
  | some group => let _ ← GroupDB.deleteStudent group (← studentInfoOf acc)
  updateGroupsScrean win none

/-! ### Accounts -/

/-- `ui->tableWidget->UpdateTable()`. -/
def updateAccountsTable : Cmd Unit := do
  let _ ← AccountsTable.updateTable (← AccountsTable.getAccounts)

def setAccountToDisplayWidget (win : AdminWindow) (acc : Option ℕ) : Cmd AdminWindow := do
  return { win with accountDisp := ← win.accountDisp.setAccountDB acc }

def addNewAccount (win : AdminWindow) : Cmd AdminWindow := do
  let data ← win.accountDisp.getNewAccount
  let res ← Controller.add .accounts data.1
  match data.2 with
  | none => pure ()
  | some info =>
    AdditionalInfo.setOwner info res
    match res with
    | none => fault .nullPointer
    | some res => let _ ← InfosController.add info (← accountType res)
  updateAccountsTable
  updateGroupsScrean win none

def deleteAccount (win : AdminWindow) : Cmd AdminWindow := do
  match win.accountDisp.getAccountForDelete with
  | none => return win
  | some data =>
    if (← AccountDB.getAdditionalInfo data).isSome then
      match ← AccountDB.getAdditionalInfo data with
      | none => fault .nullPointer
      | some info => let _ ← Controller.delete .infos (← fromDB info).id
    let _ ← Controller.delete .accounts (← fromDB data).id
    updateAccountsTable
    setAccountToDisplayWidget win none

def updateAccount (win : AdminWindow) : Cmd AdminWindow := do
  let data ← win.accountDisp.getAccountForDBUpdate
  let _ ← Controller.update .accounts data.1
  match data.2.1 with
  | none => pure ()
  | some info => let _ ← Controller.delete .infos (← fromDB info).id
  match data.2.2 with
  | none => pure ()
  | some info =>
    AdditionalInfo.setOwner info (some data.1)
    let _ ← InfosController.add info (← accountType data.1)
  updateAccountsTable
  return win

/-! ### Schedules -/

/-- No caller passes a teacher. -/
def updateScheduleScrean (win : AdminWindow) (grp : Option ℕ) : Cmd AdminWindow := do
  let win := { win with schGroupDB := grp.or win.schGroupDB }
  let _ ← AccountsTable.updateTable (← TeachersTable.getAccounts)
  let _ ← GroupsDBTable.updateTable
  let _ ← PosibleLessonsTable.getLessonsTypes win.teacher
  match win.schGroupDB with
  | none => return win
  | some group =>
    let scheds ← ScheduleController.getAllSchedulesinDate win.date.toJulianDay.toInt32 (.to group)
    return { win with schedulesTable := ← ScheduleTable.setSchedules scheds }

def setGroupSch (win : AdminWindow) (grp : Option ℕ) : Cmd AdminWindow := updateScheduleScrean win grp

/-- The table of lessons takes the teacher of the second look-up. It is the window's, unless the first one let go of
an object that no longer exists and the second one loads the info the document names; the model's table shows the
window's teacher then too. -/
def setAccToSchedule (win : AdminWindow) (acc : ℕ) : Cmd AdminWindow := do
  let teacher ← cast Fields.isTeacher (← AccountDB.getAdditionalInfo acc)
  let _ ← cast Fields.isTeacher (← AccountDB.getAdditionalInfo acc)
  let _ ← PosibleLessonsTable.getLessonsTypes teacher
  updateScheduleScrean { win with teacher } none

def dataChanged (win : AdminWindow) (date : QDate) : Cmd AdminWindow :=
  updateScheduleScrean { win with date } none

/-- Whether a remembered entity is there and exists. -/
def usable : Option ℕ → Cmd Bool
  | none => return false
  | some p => do return (← fromDB p).isExist

def addSchedule (win : AdminWindow) (str : String) (rowIndex : Int32) : Cmd AdminWindow := do
  if (← usable win.schGroupDB) = false then return win
  else if (← usable win.teacher) = false then return win
  else
    let write ← newObj ⟨none, .schedule { date := win.selectedDate, name := str, paraNumber := rowIndex }⟩
    Schedule.setGroup write win.schGroupDB
    Schedule.setTeacher write win.teacher
    let _ ← Controller.add .schedules write
    updateScheduleScrean win none

def deleteSchedule (win : AdminWindow) (acc : Option ℕ) : Cmd AdminWindow := do
  match acc with
  | none => return win
  | some acc =>
    let _ ← Controller.delete .schedules (← fromDB acc).id
    updateScheduleScrean win none

end AdminWindow

end Cbt
