import Cbt.Model.Clients

/-! Events as moves. An event that completes is a run of its command, and that is its calls
served one after the other with nothing between them; among several clients these are the
moves of one of them. -/

namespace Cbt

open Lib (Shared)
open Relation (ReflTransGen)

variable {ι : Type} [DecidableEq ι]

/-- An event that completes is a run of its command. -/
theorem Event.step_iff {e : Event} {c c' : Client} : e.Step c c' ↔ run (e.cmd c.win) c.world = .ok (c'.win, c'.world) := by
  cases e with
  | slot s => rfl
  | input i => rfl
  | logIn state login password date =>
    simp only [Event.Step, Event.cmd, Lib.Command.run_bind_iff, Lib.Command.run_pure_iff]
    constructor
    · rintro ⟨hw, o, h⟩
      exact ⟨o, _, h, hw.symm, rfl⟩
    · rintro ⟨o, w, h, hw, rfl⟩
      exact ⟨hw.symm, o, h⟩
  | call a =>
    simp only [Event.Step, Event.cmd, Action.Step, Lib.Command.run_bind_iff, Lib.Command.run_pure_iff]
    constructor
    · rintro ⟨hw, h⟩
      exact ⟨(), _, h, hw.symm, rfl⟩
    · rintro ⟨u, w, h, hw, rfl⟩
      exact ⟨hw.symm, h⟩
  | restart date =>
    simp only [Event.Step, Event.cmd, Lib.Command.run_bind_iff, Lib.Command.run_set_iff, Lib.Command.run_pure_iff]
    constructor
    · rintro rfl
      exact ⟨⟨⟩, _, rfl, rfl, rfl⟩
    · rintro ⟨u, w, rfl, hw, hw'⟩
      obtain ⟨w', win'⟩ := c'
      obtain rfl : _ = win' := hw
      obtain rfl : _ = w' := hw'
      rfl

/-- A client with nothing under way, and what it shares. -/
def Client.resting (c : Client) : Lib.Conf Database Rest := ⟨c.world.env, .idle c.win c.world.mem⟩

/-- A client that has just begun an event. -/
def Client.begun (c : Client) (e : Event) : Lib.Conf Database Rest := ⟨c.world.env, e.cmd c.win c.world.mem⟩

/-- An event completes when its calls are served one after the other. -/
theorem Event.step_iff_next {e : Event} {c c' : Client} :
    e.Step c c' ↔ ReflTransGen (Lib.Program.Next Database.serve) (c.begun e) c'.resting := by
  rw [Event.step_iff, show Client.begun c e = ⟨c.world.env, e.cmd c.win c.world.mem⟩ from rfl,
    show c'.resting = ⟨c'.world.env, .done (c'.win, c'.world.mem)⟩ from rfl, Lib.Program.next_iff_exec]
  unfold run Lib.Command.run
  cases (e.cmd c.win c.world.mem).exec Database.serve c.world.env with
  | error e => simp
  | ok r =>
    obtain ⟨⟨win, p⟩, db⟩ := r
    obtain ⟨⟨db', p'⟩, win'⟩ := c'
    simp only [Except.ok.injEq, Prod.mk.injEq, Lib.Conf.mk.injEq]
    tauto

/-! ### Whole events as moves -/

/-- The calls of one client, one after the other. -/
theorem Clients.run_next (may : Event → Prop) (s : Clients ι) (i : ι) {w w' : Lib.Conf Database Rest}
    (h : ReflTransGen (Lib.Program.Next Database.serve) w w') :
    ∃ as, (∀ a ∈ as, a = (i, Move.next)) ∧ Clients.Run may (s.moved i w) as (s.moved i w') := by
  induction h with
  | refl => exact ⟨[], by simp, .nil⟩
  | @tail w₁ w₂ _ h ih =>
    obtain ⟨as, ha, hr⟩ := ih
    have hs : Shared.Step Move.Step (i, .next) (s.moved i w₁) (s.moved i w₂) := by
      refine ⟨w₂, .next ?_, (Shared.moved_moved s i w₁ w₂).symm⟩
      rwa [Shared.conf_moved]
    refine ⟨as ++ [(i, .next)], ?_, .snoc hr (fun e he => by cases he) hs⟩
    simpa [or_imp, forall_and] using ha

/-- One event of a client, from its beginning to its end. -/
theorem Clients.run_event {s : Clients ι} {i : ι} {e : Event} {c c' : Client} (hc : s.conf i = c.resting)
    (may : Event → Prop) (he : may e) (h : e.Step c c') :
    ∃ as, (∀ a ∈ as, a.1 = i ∧ ∀ date, a.2 ≠ .restart date) ∧ Clients.Run may s as (s.moved i c'.resting) := by
  obtain ⟨as, ha, hr⟩ := Clients.run_next may s i (Event.step_iff_next.mp h)
  have hb : Clients.Run may s [(i, .begin e)] (s.moved i (c.begun e)) := by
    refine .snoc .nil (fun e' he' => ?_) ⟨_, ?_, rfl⟩
    · obtain rfl := Move.begin.inj he'
      exact he
    · rw [hc]
      exact .begin
  refine ⟨_, fun a h => ?_, hb.append hr⟩
  rcases List.mem_append.mp h with h | h
  · obtain rfl := List.mem_singleton.mp h
    exact ⟨rfl, fun _ h => by cases h⟩
  · obtain rfl := ha a h
    exact ⟨rfl, fun _ h => by cases h⟩

/-- What the clients do when they take turns, event by event. -/
abbrev Turns.Run (may : Event → Prop) (s : Turns ι) (es : List (ι × Event)) (s' : Turns ι) : Prop :=
  Lib.Run (Shared.Step Event.Turn) (Shared.Guard fun e _ => may e) s es s'

end Cbt
