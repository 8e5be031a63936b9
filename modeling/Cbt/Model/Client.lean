import Cbt.Model.Action
import Cbt.Model.StartWindow

/-! A client: a process, the database it works on and the administrator's window.
An event is a slot, something the user types or chooses, a log-in, a single
operation on entities, or the end of the process and the start of another one on
the same database. A run is a sequence of events that all complete. -/

namespace Cbt

/-- The slots of the administrator's window, and the two redraws a change of tab asks for. -/
inductive Slot where
  | setAccountToDisplayWidget (acc : Option ℕ)
  | setGroup (grp : Option ℕ)
  | setGroupSch (grp : Option ℕ)
  | setAccToSchedule (acc : ℕ)
  | dataChanged (date : QDate)
  | addNewAccount
  | deleteAccount
  | updateAccount
  | addNewGroup
  | deleteGroup
  | updateGroup
  | addClass (text : String)
  | deleteClass (text : String)
  | addAccToGroup (acc : ℕ)
  | deleteAccFromGroup (acc : ℕ)
  | addSchedule (str : String) (rowIndex : Int32)
  | deleteSchedule (acc : Option ℕ)
  | updateGroupsScrean
  | updateScheduleScrean
  deriving DecidableEq, Repr

def Slot.cmd (win : AdminWindow) : Slot → Cmd AdminWindow
  | .setAccountToDisplayWidget acc => win.setAccountToDisplayWidget acc
  | .setGroup grp => win.setGroup grp
  | .setGroupSch grp => win.setGroupSch grp
  | .setAccToSchedule acc => win.setAccToSchedule acc
  | .dataChanged date => win.dataChanged date
  | .addNewAccount => win.addNewAccount
  | .deleteAccount => win.deleteAccount
  | .updateAccount => win.updateAccount
  | .addNewGroup => win.addNewGroup
  | .deleteGroup => win.deleteGroup
  | .updateGroup => win.updateGroup
  | .addClass text => do
    AdminWindow.addClass win.teacher text
    return win
  | .deleteClass text => do
    AdminWindow.deleteClass win.teacher text
    return win
  | .addAccToGroup acc => win.addAccToGroup acc
  | .deleteAccFromGroup acc => win.deleteAccFromGroup acc
  | .addSchedule str rowIndex => win.addSchedule str rowIndex
  | .deleteSchedule acc => win.deleteSchedule acc
  | .updateGroupsScrean => win.updateGroupsScrean none
  | .updateScheduleScrean => win.updateScheduleScrean none

/-- What the user types or chooses. -/
inductive Input where
  | login (s : String)
  | password (s : String)
  | type (t : AccountType)
  | firstName (s : String)
  | secondName (s : String)
  | curs (s : String)
  | faculty (s : String)
  | group (i : ℕ)
  | groupName (s : String)
  | curator (i : ℕ)
  | date (d : QDate)
  deriving DecidableEq, Repr

/-- Only a change of the account's type makes the form ask for entities. -/
def Input.cmd (win : AdminWindow) : Input → Cmd AdminWindow
  | .login s => return { win with accountDisp := { win.accountDisp with editLogin := s } }
  | .password s => return { win with accountDisp := { win.accountDisp with editPassword := s } }
  | .type t => do return { win with accountDisp := ← win.accountDisp.setEditType t }
  | .firstName s => return { win with accountDisp := { win.accountDisp with editFirstName := s } }
  | .secondName s => return { win with accountDisp := { win.accountDisp with editSecondName := s } }
  | .curs s => return { win with accountDisp := { win.accountDisp with editCurs := s } }
  | .faculty s => return { win with accountDisp := { win.accountDisp with editFaculty := s } }
  | .group i =>
    return { win with accountDisp := { win.accountDisp with editGroup := win.accountDisp.editGroup.choose i } }
  | .groupName s => return { win with groupNameEdit := s }
  | .curator i => return { win with curatorComboBox := win.curatorComboBox.choose i }
  | .date d => return { win with selectedDate := d }

structure Client where
  world : World
  win : AdminWindow

/-- A client that has just started, with nothing selected. -/
def Client.start (db : Database) (date : QDate) : Client := ⟨World.start db, { date, selectedDate := date }⟩

inductive Event where
  | slot (s : Slot)
  | input (i : Input)
  | logIn (state : StartWindow.State) (login password : String) (date : QDate)
  | call (a : Action)
  | restart (date : QDate)
  deriving DecidableEq

/-- One event that completes. -/
def Event.Step : Event → Client → Client → Prop
  | .slot s, c, c' => run (s.cmd c.win) c.world = .ok (c'.win, c'.world)
  | .input i, c, c' => run (i.cmd c.win) c.world = .ok (c'.win, c'.world)
  | .logIn state login password date, c, c' =>
    c'.win = c.win ∧ ∃ o, run (StartWindow.logIn state { date } login password) c.world = .ok (o, c'.world)
  | .call a, c, c' => c'.win = c.win ∧ a.Step c.world c'.world
  | .restart date, c, c' => c' = Client.start c.world.env date

/-- A state some run of events reaches, from any database. -/
def Client.Reachable (c : Client) : Prop :=
  ∃ db date es, Lib.Run Event.Step Lib.Free (Client.start db date) es c

/-! ### Playing events -/

/-- What a command yields, if it returns. -/
def yields {α : Type} (m : Cmd α) (w : World) : Option (α × World) := (run m w).toOption

theorem run_of_yields {α : Type} {m : Cmd α} {w w' : World} {a : α} (h : yields m w = some (a, w')) :
    run m w = .ok (a, w') := by
  unfold yields at h
  cases hm : run m w with
  | error e => simp [hm, Except.toOption] at h
  | ok r => simpa [hm, Except.toOption] using h

/-- The fault a command ends in, if it does not return. -/
def endsIn {α : Type} (m : Cmd α) (w : World) : Option Fault :=
  match run m w with
  | .ok _ => none
  | .error e => some e

theorem run_of_endsIn {α : Type} {m : Cmd α} {w : World} {e : Fault} (h : endsIn m w = some e) : run m w = .error e := by
  unfold endsIn at h
  cases hm : run m w with
  | error e' => simpa [hm] using h
  | ok r => simp [hm] at h

/-- The client after an event, if it completes. -/
def Event.next? : Event → Client → Option Client
  | .slot s, c => match run (s.cmd c.win) c.world with
    | .ok (win, w) => some ⟨w, win⟩
    | .error _ => none
  | .input i, c => match run (i.cmd c.win) c.world with
    | .ok (win, w) => some ⟨w, win⟩
    | .error _ => none
  | .logIn state login password date, c => match run (StartWindow.logIn state { date } login password) c.world with
    | .ok (_, w) => some ⟨w, c.win⟩
    | .error _ => none
  | .call a, c => (a.next? c.world).map (⟨·, c.win⟩)
  | .restart date, c => some (Client.start c.world.env date)

/-- Play events one after the other. -/
def Client.play : List Event → Client → Option Client
  | [], c => some c
  | e :: es, c => (e.next? c).bind (Client.play es)

theorem Event.step_of_next? {e : Event} {c c' : Client} (h : e.next? c = some c') : e.Step c c' := by
  unfold Event.next? at h
  cases e with
  | slot s =>
    dsimp only at h
    split at h
    · rename_i he
      obtain rfl := Option.some.inj h
      exact he
    · cases h
  | input i =>
    dsimp only at h
    split at h
    · rename_i he
      obtain rfl := Option.some.inj h
      exact he
    · cases h
  | logIn state login password date =>
    dsimp only at h
    split at h
    · rename_i he
      obtain rfl := Option.some.inj h
      exact ⟨rfl, _, he⟩
    · cases h
  | call a =>
    obtain ⟨w, hw, rfl⟩ := Option.map_eq_some_iff.mp h
    exact ⟨rfl, Action.step_of_next? hw⟩
  | restart date => exact (Option.some.inj h).symm

/-- What can be played is a run. -/
theorem Client.run_of_play {es : List Event} {c c' : Client} (h : Client.play es c = some c') :
    Lib.Run Event.Step Lib.Free c es c' := by
  induction es generalizing c with
  | nil =>
    obtain rfl := Option.some.inj h
    exact .nil
  | cons e es ih =>
    obtain ⟨c₁, h₁, h₂⟩ := Option.bind_eq_some_iff.mp h
    exact Lib.Run.append (.snoc .nil trivial (Event.step_of_next? h₁)) (ih h₂)

end Cbt
