import Cbt.Lib.Run
import Cbt.Model.References

/-! The operations on entities, one at a time: what the windows may ask of the
controllers and of the entity objects, in any order and with any arguments. A
step is a call that returns; a run is a sequence of steps. -/

namespace Cbt

open Lib.Command (fault)

/-- The constructors of the plain classes. -/
inductive New where
  | account (login password : String) (type : AccountType)
  | group (name : String)
  | studentInfo (firstName secondName : String) (curs : Int32)
  | teacherInfo (firstName secondName faculty : String)
  | schedule (date : QDate) (name : String) (para : Para)
  deriving DecidableEq, Repr

def New.fields : New → Fields
  | .account login password type => .account { login, password, accountType := type }
  | .group name => .group { name }
  | .studentInfo firstName secondName curs => .student { firstName, secondName, curs }
  | .teacherInfo firstName secondName faculty => .teacher { firstName, secondName, faculty }
  | .schedule date name para => .schedule { date, name, paraNumber := para }

/-- The getters of a reference. -/
inductive Getter where
  | getCurator | getTeacherOwner | getStudentOwner | getStudentGroup | getScheduleGroup
  | getAdditionalInfo | getTeacher
  deriving DecidableEq, Repr

def Getter.call : Getter → ℕ → Cmd (Option ℕ)
  | .getCurator => GroupDB.getCurator
  | .getTeacherOwner => TeacherInfoDB.getOwner
  | .getStudentOwner => StudentInfoDB.getOwner
  | .getStudentGroup => StudentInfoDB.getGroup
  | .getScheduleGroup => ScheduleDB.getGroup
  | .getAdditionalInfo => AccountDB.getAdditionalInfo
  | .getTeacher => ScheduleDB.getTeacher

/-- `GetFromDB` of a controller; only the one of the infos uses the account type. -/
def getFromDB (k : Kind) (oid : Oid) (type : AccountType) : Cmd (Option ℕ) :=
  if k = .infos then InfosController.getFromDB oid type else Controller.getFromDB k oid

/-- `Add` of a controller; only the one of the infos uses the account type. -/
def add (k : Kind) (element : ℕ) (type : AccountType) : Cmd (Option ℕ) :=
  if k = .infos then InfosController.add element type else Controller.add k element

inductive Action where
  | getFromDB (k : Kind) (oid : Oid) (type : AccountType)
  | getAll (k : Kind)
  | getAllTeachers
  | getAllSchedulesinDate (julianDate : Int32) (group : ℕ)
  | findFullAccount (passLog : LogPass)
  | new (x : New)
  | add (k : Kind) (element : ℕ) (type : AccountType)
  | delete (k : Kind) (oid : Oid)
  | update (k : Kind) (el : ℕ)
  | setRef (f : RefField) (this : ℕ) (v : Option ℕ)
  | setStudents (this : ℕ) (students : List ℕ)
  | get (g : Getter) (this : ℕ)
  | getStudents (this : ℕ)
  | addStudent (this stud : ℕ)
  | deleteStudent (this stud : ℕ)
  deriving DecidableEq, Repr

/-- What an action runs. -/
def Action.cmd : Action → Cmd Unit
  | .getFromDB k oid type => do let _ ← Cbt.getFromDB k oid type
  | .getAll k => do let _ ← Controller.getAll k
  | .getAllTeachers => do let _ ← AccountsController.getAllTeachers
  | .getAllSchedulesinDate date group => do let _ ← ScheduleController.getAllSchedulesinDate date (.to group)
  | .findFullAccount passLog => do let _ ← AccountsController.findFullAccount passLog
  | .new x => do let _ ← newObj ⟨none, x.fields⟩
  | .add k element type => do let _ ← Cbt.add k element type
  | .delete k oid => do let _ ← Controller.delete k oid
  | .update k el => do let _ ← Controller.update k el
  | .setRef f this v => Cbt.setRef f this v
  | .setStudents this students => Group.setStudents this students
  | .get g this => do let _ ← g.call this
  | .getStudents this => do let _ ← GroupDB.getStudents this
  | .addStudent this stud => do let _ ← GroupDB.addStudent this (some stud)
  | .deleteStudent this stud => do let _ ← GroupDB.deleteStudent this (some stud)

/-- One action that returns. -/
def Action.Step (a : Action) (w w' : World) : Prop := run a.cmd w = .ok ((), w')

/-- A process that has just started on a database. -/
def World.start (db : Database) : World := ⟨db, Process.init⟩

/-- The world after an action, if it returns. -/
def Action.next? (a : Action) (w : World) : Option World :=
  match run a.cmd w with
  | .ok (_, w') => some w'
  | .error _ => none

/-- Play actions one after the other. -/
def play : List Action → World → Option World
  | [], w => some w
  | a :: as, w => (a.next? w).bind (play as)

theorem Action.step_of_next? {a : Action} {w w' : World} (h : a.next? w = some w') : a.Step w w' := by
  unfold Action.next? at h
  unfold Action.Step
  split at h
  · rename_i u w₁ he
    obtain rfl := Option.some.inj h
    exact he
  · cases h

/-- What can be played is a run. -/
theorem run_of_play {as : List Action} {w w' : World} (h : play as w = some w') :
    Lib.Run Action.Step Lib.Free w as w' := by
  induction as generalizing w with
  | nil =>
    obtain rfl := Option.some.inj h
    exact .nil
  | cons a as ih =>
    obtain ⟨w₁, h₁, h₂⟩ := Option.bind_eq_some_iff.mp h
    exact Lib.Run.append (.snoc .nil trivial (Action.step_of_next? h₁)) (ih h₂)

end Cbt
