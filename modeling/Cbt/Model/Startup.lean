import Cbt.Model.StartWindow

/-! The start of the program. The window that opens first is built together with the
other two, so the administrator's tables are filled before anybody has logged in. Its
button shows by a text whether it logs in or signs up. -/

namespace Cbt

/-- `QDate::addDays`. -/
def QDate.addDays (d : QDate) (n : Int64) : QDate := if d = null then null else fromJulianDay (d.julianDay + n)

namespace AdminWindow

/-- The constructor: the table of lessons is empty, and the calendar starts with the next day. -/
def construct (today : QDate) : Cmd AdminWindow := do
  let win : AdminWindow := { date := today.addDays 1, selectedDate := today.addDays 1 }
  updateAccountsTable
  let _ ← ScheduleTable.updateTable win.schedulesTable (List.finRange 8)
  let win ← updateGroupsScrean win none
  let win ← updateScheduleScrean win none
  setGroup win none

end AdminWindow

namespace StudentWindow

def construct (today : QDate) : StudentWindow := { date := today }

/-- `Setdate`. -/
def setdate (win : StudentWindow) (date : QDate) : Cmd StudentWindow := do
  let win := { win with date }
  let _ ← updateWindow win
  return win

/-- Days are clicked in the calendar, one after the other. -/
def setdates (win : StudentWindow) : List QDate → Cmd StudentWindow
  | [] => return win
  | date :: dates => do setdates (← win.setdate date) dates

end StudentWindow

/-- The window that opens first, with the other two as members; the texts of its buttons are first those of the form. -/
structure StartWindow where
  wStud : StudentWindow
  wAdmin : AdminWindow
  state : StartWindow.State := .login
  switchStateButton : String := "or up"
  readyButton : String := "Sign in"

namespace StartWindow

def construct (today : QDate) : Cmd StartWindow := do
  return { wStud := .construct today, wAdmin := ← AdminWindow.construct today }

def setState (win : StartWindow) : State → StartWindow
  | .login => { win with state := .login, switchStateButton := "or up", readyButton := "Sing in" }
  | .signup => { win with state := .signup, switchStateButton := "or in", readyButton := "Sign up" }

/-- `GetState` answers the same in both states. -/
def getState (_ : StartWindow) : State := .login

def switchState (win : StartWindow) : StartWindow :=
  if win.state = .login then win.setState .signup else win.setState .login

/-- The button is clicked with a login and a password in the two fields. -/
def ready (win : StartWindow) (login password : String) : Cmd Opened := logIn win.state win.wStud login password

/-- A user logs in and, if the student's window opened, looks at some days. -/
def visit (win : StartWindow) (login password : String) (dates : List QDate) : Cmd Opened := do
  match ← win.ready login password with
  | .student wStud => return .student (← wStud.setdates dates)
  | .none => return .none
  | .admin => return .admin

/-- The program, from its start to the last day the user looks at. -/
def session (today : QDate) (login password : String) (dates : List QDate) : Cmd Opened := do
  visit (← construct today) login password dates

end StartWindow

end Cbt
