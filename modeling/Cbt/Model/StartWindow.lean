import Cbt.Model.AdminWindow

/-! The window that opens first, and the student's window. A log-in looks the
account up by login and password and opens the window of its type; a sign-up
stores a student's account when none has that login and that password. -/

namespace Cbt

open Lib.Command (fault)

structure StudentWindow where
  acc : Option ℕ := none
  date : QDate

namespace StudentWindow

/-- The group goes to the look-up even when it is null. -/
def updateWindow (win : StudentWindow) : Cmd ScheduleTable.Schedules := do
  match win.acc with
  | none => fault .nullPointer
  | some acc =>
    let stud ← castDeref Fields.isStudent (← AccountDB.getAdditionalInfo acc)
    let group ← StudentInfoDB.getGroup stud
    let scheds ← ScheduleController.getAllSchedulesinDate win.date.toJulianDay.toInt32 (.ofOption group)
    ScheduleTable.setSchedules scheds

def setAccAndFill (win : StudentWindow) (acc : ℕ) : Cmd StudentWindow := do
  let win := { win with acc := some acc }
  let _ ← updateWindow win
  let _ ← accountOf acc
  match ← cast Fields.isStudent (← AccountDB.getAdditionalInfo acc) with
  | none => return win
  | some addInf =>
    let _ ← studentOf addInf
    match ← StudentInfoDB.getGroup addInf with
    | none => return win
    | some grp =>
      let _ ← groupOf grp
      return win

end StudentWindow

namespace StartWindow

/-- `StatesEnum`. -/
inductive State where
  | login | signup
  deriving DecidableEq, Repr

/-- The window a log-in opens. -/
inductive Opened where
  | none
  | student (win : StudentWindow)
  | admin

def logIn (state : State) (wStud : StudentWindow) (login password : String) : Cmd Opened := do
  let logPass : LogPass := { login, password }
  match state with
  | .login =>
    if (← AccountsController.isAccountExist logPass) = false then return .none
    else
      let fullAcc ← AccountsController.findFullAccount logPass
      match ← accountType fullAcc with
      | .student | .teacher => return .student (← wStud.setAccAndFill fullAcc)
      | .admin => return .admin
  | .signup =>
    if ← AccountsController.isAccountExist logPass then return .none
    else
      let ac ← newObj ⟨none, .account { login, password, accountType := .student }⟩
      let _ ← Controller.add .accounts ac
      return .none

end StartWindow

end Cbt
