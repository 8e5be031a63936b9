import Cbt.Lib.Shared
import Cbt.Lib.Upholding
import Cbt.Model.Client

/-! Several clients of one database. Each is a process of its own with its caches and
its window; the collections are all they share. A single collection call is atomic and
nothing larger is, so between two calls of one client the others may have made any
number of theirs; and a process may end at any call, half-way through what it does. When
every client finishes an event before another begins one, the clients take turns. -/

namespace Cbt

open Lib (Shared)

/-- What is left of the event a client is at, over its window and its memory. -/
abbrev Rest := Lib.Program Call Call.Answer Fault (AdminWindow × Process)

/-- A client with nothing under way. -/
abbrev Rest.idle (win : AdminWindow) (p : Process) : Rest := .done (win, p)

def Rest.isIdle : Rest → Bool
  | .done _ => true
  | _ => false

theorem Rest.isIdle_iff {m : Rest} : m.isIdle = true ↔ ∃ win p, m = .idle win p := by
  cases m with
  | done r => exact ⟨fun _ => ⟨r.1, r.2, rfl⟩, fun _ => rfl⟩
  | fault | call => simp [isIdle]

/-- A process that has just started. -/
def Rest.fresh (date : QDate) : Rest := .idle { date, selectedDate := date } Process.init

/-- What an event runs. -/
def Event.cmd (win : AdminWindow) : Event → Cmd AdminWindow
  | .slot s => s.cmd win
  | .input i => i.cmd win
  | .logIn state login password date => do
    let _ ← StartWindow.logIn state { date } login password
    return win
  | .call a => do
    a.cmd
    return win
  | .restart date => do
    set Process.init
    return { date, selectedDate := date }

/-- What may happen at a client next. -/
inductive Move where
  /-- It begins an event. -/
  | begin (e : Event)
  /-- Its next call is served. -/
  | next
  /-- Its process ends, and another one starts. -/
  | restart (date : QDate)

inductive Move.Step : Move → Lib.Conf Database Rest → Lib.Conf Database Rest → Prop
  | begin {e : Event} {db : Database} {win : AdminWindow} {p : Process} :
    Step (.begin e) ⟨db, .idle win p⟩ ⟨db, e.cmd win p⟩
  | next {w w' : Lib.Conf Database Rest} (h : Lib.Program.Next Database.serve w w') : Step .next w w'
  | restart {date : QDate} {w : Lib.Conf Database Rest} : Step (.restart date) w ⟨w.env, .fresh date⟩

/-- The clients and their database. -/
abbrev Clients (ι : Type) := Shared ι Database Rest

/-- Every client has just started. -/
def Clients.start {ι : Type} (db : Database) (date : ι → QDate) : Clients ι := ⟨db, fun i => .fresh (date i)⟩

/-- What the clients do, in any order: each move is one client's. -/
abbrev Clients.Run {ι : Type} [DecidableEq ι] (may : Event → Prop) (s : Clients ι) (as : List (ι × Move)) (s' : Clients ι) : Prop :=
  Lib.Run (Shared.Step Move.Step) (Shared.Guard fun a _ => ∀ e, a = .begin e → may e) s as s'

/-! ### Playing moves -/

/-- What a move leads to, if it can be made. -/
def Move.next? : Move → Lib.Conf Database Rest → Option (Lib.Conf Database Rest)
  | .begin e, ⟨db, .done (win, p)⟩ => some ⟨db, e.cmd win p⟩
  | .next, ⟨db, .call c rest⟩ => match Database.serve c db with
    | .ok (r, db') => some ⟨db', rest r⟩
    | .error e => some ⟨db, .fault e⟩
  | .restart date, w => some ⟨w.env, .fresh date⟩
  | _, _ => none

/-- Play moves one after the other. -/
def Clients.play {ι : Type} [DecidableEq ι] : List (ι × Move) → Clients ι → Option (Clients ι)
  | [], s => some s
  | a :: as, s => ((a.2.next? (s.conf a.1)).map (s.moved a.1)).bind (Clients.play as)

theorem Move.step_of_next? {a : Move} {w w' : Lib.Conf Database Rest} (h : a.next? w = some w') : a.Step w w' := by
  obtain ⟨db, m⟩ := w
  cases a with
  | begin e =>
    cases m with
    | done r =>
      cases h
      exact .begin
    | fault | call => cases h
  | next =>
    cases m with
    | done | fault => cases h
    | call c next =>
      simp only [Move.next?] at h
      split at h <;> obtain rfl := Option.some.inj h
      · exact .next (.answered ‹_›)
      · exact .next (.refused ‹_›)
  | restart date =>
    cases h
    exact .restart

/-- What can be played is a run. -/
theorem Clients.run_of_play {ι : Type} [DecidableEq ι] {may : Event → Prop} {as : List (ι × Move)} {s s' : Clients ι}
    (hmay : ∀ a ∈ as, ∀ e, a.2 = .begin e → may e) (h : Clients.play as s = some s') : Clients.Run may s as s' := by
  induction as generalizing s with
  | nil =>
    obtain rfl := Option.some.inj h
    exact .nil
  | cons a as ih =>
    obtain ⟨s₁, h₁, h₂⟩ := Option.bind_eq_some_iff.mp h
    obtain ⟨w, hw, rfl⟩ := Option.map_eq_some_iff.mp h₁
    rw [List.forall_mem_cons] at hmay
    exact Lib.Run.append (.snoc .nil hmay.1 ⟨w, Move.step_of_next? hw, rfl⟩) (ih hmay.2 h₂)

/-! ### Taking turns -/

/-- A client as what it shares and what it has of its own. -/
def Client.of (w : Lib.Conf Database (AdminWindow × Process)) : Client := ⟨⟨w.env, w.mem.2⟩, w.mem.1⟩

/-- One event of a client, from its beginning to its end. -/
def Event.Turn (e : Event) (w w' : Lib.Conf Database (AdminWindow × Process)) : Prop := e.Step (.of w) (.of w')

/-- The clients between events. -/
abbrev Turns (ι : Type) := Shared ι Database (AdminWindow × Process)

def Turns.start {ι : Type} (db : Database) (date : ι → QDate) : Turns ι :=
  ⟨db, fun i => ({ date := date i, selectedDate := date i }, Process.init)⟩

/-- Play events of clients that take turns. -/
def Turns.play {ι : Type} [DecidableEq ι] : List (ι × Event) → Turns ι → Option (Turns ι)
  | [], s => some s
  | a :: as, s => ((a.2.next? (Client.of (s.conf a.1))).map fun c => s.moved a.1 ⟨c.world.env, (c.win, c.world.mem)⟩).bind (Turns.play as)

section
variable {ι : Type} [DecidableEq ι] {guard : Event → Lib.Conf Database (AdminWindow × Process) → Prop}
  {es : List (ι × Event)} {s s' : Turns ι}

/-- What can be played is a run, if its first event may be begun and the rest is one. -/
theorem Turns.run_of_cons {a : ι × Event} (hg : guard a.2 (s.conf a.1)) (h : Turns.play (a :: es) s = some s')
    (hr : ∀ s₁, Turns.play es s₁ = some s' → Lib.Run (Shared.Step Event.Turn) (Shared.Guard guard) s₁ es s') :
    Lib.Run (Shared.Step Event.Turn) (Shared.Guard guard) s (a :: es) s' := by
  obtain ⟨s₁, h₁, h₂⟩ := Option.bind_eq_some_iff.mp h
  obtain ⟨c, hc, rfl⟩ := Option.map_eq_some_iff.mp h₁
  have ht : a.2.Turn (s.conf a.1) ⟨c.world.env, (c.win, c.world.mem)⟩ :=
    (Event.step_of_next? hc : a.2.Step (Client.of (s.conf a.1)) c)
  have hs : Shared.Step Event.Turn a s (s.moved a.1 ⟨c.world.env, (c.win, c.world.mem)⟩) := ⟨_, ht, rfl⟩
  exact Lib.Run.append (.snoc .nil (show Shared.Guard guard a s from hg) hs) (hr _ h₂)

/-- What can be played is a run, if its events may be begun in any state. -/
theorem Turns.run_of_play (hg : ∀ a ∈ es, ∀ w, guard a.2 w) (h : Turns.play es s = some s') :
    Lib.Run (Shared.Step Event.Turn) (Shared.Guard guard) s es s' := by
  induction es generalizing s with
  | nil =>
    obtain rfl := Option.some.inj h
    exact .nil
  | cons a es ih =>
    rw [List.forall_mem_cons] at hg
    exact Turns.run_of_cons (hg.1 _) h fun s₁ h₁ => ih hg.2 h₁

end

end Cbt
