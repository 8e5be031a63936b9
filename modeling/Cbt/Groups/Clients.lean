import Cbt.Groups.Runs
import Cbt.Sharing.Clients
import Cbt.Sharing.Turns

/-! Membership with several clients. The two sides are in the database, which all clients
share; what a client needs for its next event is in its own memory, and stays as it is
while the others act. So if every client has what its events need when it takes its
turn, the two sides agree after every turn of every client. -/

namespace Cbt

open Lib (Shared)

variable {ι : Type} [DecidableEq ι]

/-- What the others must not spoil of a client: its caches and types, and that its ids were given out. -/
structure Client.Fit (n : ℕ) (r : AdminWindow × Process) : Prop where
  sound : Sound ⟨Database.empty, r.2⟩
  given : ∀ p b x, r.2.heap.get p = some ⟨some b, x⟩ → b.id < n
  typed : ∃ Γ, WellTyped Γ ⟨Database.empty, r.2⟩
  group : ∀ g, r.1.group = some g → g < r.2.heap.next

theorem Client.Fit.mono {n n' : ℕ} {r : AdminWindow × Process} (hn : n ≤ n') (h : Client.Fit n r) : Client.Fit n' r :=
  { h with given := fun p b x hp => (h.given p b x hp).trans_le hn }

theorem Client.fit_start (n : ℕ) (date : QDate) : Client.Fit n ({ date, selectedDate := date }, Process.init) where
  sound := sound_start _
  given p b x hp := by simp [Process.init] at hp
  typed := ⟨_, wellTyped_start _⟩
  group g hg := by cases hg

theorem Client.Fit.keeping {w : Lib.Conf Database (AdminWindow × Process)} (h : Client.Fit w.env.nextOid w.mem)
    (hm : Membership ⟨w.env, Process.init⟩) : Keeping (Client.of w).world where
  member := hm.of_env rfl
  sound := ⟨h.sound.entry, h.sound.nodup⟩
  issued p b x hp := ⟨h.given p b x hp, .inr (.inl trivial)⟩
  typed := h.typed.imp fun _ ht => ht.of_heap rfl rfl

theorem Keeping.fit {c : Client} (h : Keeping c.world) (hlt : c.GroupBelow) :
    Client.Fit c.world.env.nextOid (c.win, c.world.mem) where
  sound := ⟨h.sound.entry, h.sound.nodup⟩
  given p b x hp := (h.issued p b x hp).1
  typed := h.typed.imp fun _ ht => ht.of_heap rfl rfl
  group := hlt

/-- One turn of one client. -/
theorem Event.Turn.membership {e : Event} {w w' : Lib.Conf Database (AdminWindow × Process)} (h : e.Turn w w')
    (hg : e.KeepsMembership (.of w)) (hf : Client.Fit w.env.nextOid w.mem) (hm : Membership ⟨w.env, Process.init⟩) :
    Client.Fit w'.env.nextOid w'.mem ∧ Membership ⟨w'.env, Process.init⟩ := by
  have hk := hf.keeping hm
  have hlt : (Client.of w).GroupBelow := hf.group
  have hk' : Keeping (Client.of w').world := hk.step hlt hg h
  exact ⟨hk'.fit (hlt.step hk.sound h), hk'.member.of_env rfl⟩

/-- Ids are given out in order. -/
theorem Event.Turn.nextOid_le {e : Event} {w w' : Lib.Conf Database (AdminWindow × Process)} (h : e.Turn w w') :
    w.env.nextOid ≤ w'.env.nextOid := by
  have hle : ∀ v, Relation.ReflTransGen (Lib.Program.Next Database.serve) ((Client.of w).begun e) v →
      w.env.nextOid ≤ v.env.nextOid := by
    intro v hv
    induction hv with
    | refl => exact le_rfl
    | tail _ hn ih =>
      cases hn with
      | answered hc => exact ih.trans (nextOid_le_serve hc)
      | refused => exact ih
  exact hle _ (Event.step_iff_next.mp h)

/-- From a database without groups and infos, the two sides of membership agree for every client after any turns of
any number of clients, each of which has what it needs when it begins. -/
theorem twoSided_of_turns {db : Database} {date : ι → QDate} {es : List (ι × Event)} {s : Turns ι}
    (hg : ∀ o, db.get? .groups o = none) (hi : ∀ o, db.get? .infos o = none)
    (hr : Lib.Run (Shared.Step Event.Turn) (Shared.Guard fun e w => e.KeepsMembership (.of w)) (Turns.start db date) es s)
    (i : ι) : TwoSided (Client.of (s.conf i)).world := by
  have h₀ : Shared.At (fun n db => n ≤ db.nextOid ∧ Membership ⟨db, Process.init⟩) Client.Fit db.nextOid (Turns.start db date) := by
    refine ⟨⟨le_rfl, ?_⟩, fun i => Client.fit_start _ _⟩
    constructor <;> intro o d <;> simp [Lib.Conf.stored, Turns.start, hg, hi]
  have hstep : ∀ (e : Event) (n : ℕ) (w w' : Lib.Conf Database (AdminWindow × Process)),
      (n ≤ w.env.nextOid ∧ Membership ⟨w.env, Process.init⟩) → Client.Fit n w.mem → e.KeepsMembership (.of w) → e.Turn w w' →
      ∃ n', n ≤ n' ∧ (n' ≤ w'.env.nextOid ∧ Membership ⟨w'.env, Process.init⟩) ∧ Client.Fit n' w'.mem := by
    intro e n w w' hw hf hg ht
    obtain ⟨hf', hm'⟩ := ht.membership hg (hf.mono hw.1) hw.2
    exact ⟨w'.env.nextOid, hw.1.trans ht.nextOid_le, ⟨le_rfl, hm'⟩, hf'⟩
  have hmono : ∀ n n' r, n ≤ n' → Client.Fit n r → Client.Fit n' r := fun _ _ _ hn => Client.Fit.mono hn
  obtain ⟨n, -, h⟩ := h₀.after hmono hstep hr
  have hm : Membership (Client.of (s.conf i)).world := h.env.2.of_env rfl
  exact hm.twoSided

/-- One client adds a group; the other one adds a student who joins it and one who joins none; the first one starts again and
drops the second student on the group. -/
theorem twoSided_of_turns_two : ∃ s : Turns Bool, (∃ d, s.env.get? .groups 0 = some d ∧ d.members = [2, 4]) ∧
    ∀ i, TwoSided (Client.of (s.conf i)).world := by
  have hplay : (Turns.play [(false, .slot .updateGroupsScrean), (false, .input (.groupName "group")),
      (false, .slot .addNewGroup), (true, .input (.type .student)), (true, .input (.group 1))]
        (Turns.start Database.empty fun _ => .fromJulianDay 0)).any (fun s₁ =>
          (Client.of (s₁.conf true)).world.Receives (s₁.mem true).1.accountDisp.editGroup.currentText ∧
      (Turns.play [(true, .slot .addNewAccount), (true, .input (.group 0))] s₁).any fun s₂ =>
          (Client.of (s₂.conf true)).world.Receives (s₂.mem true).1.accountDisp.editGroup.currentText ∧
      (Turns.play [(true, .slot .addNewAccount), (false, .restart (.fromJulianDay 0)), (false, .slot .updateGroupsScrean),
        (false, .slot (.setGroup (some 4)))] s₂).any fun s₃ =>
          (s₃.mem false).1.group = some 4 ∧ (Client.of (s₃.conf false)).world.Takes 4 1 ∧
      (Turns.play [(false, .slot (.addAccToGroup 1))] s₃).any fun s =>
          (s.env.get? .groups 0).any fun d => d.members = [2, 4]) = true := by decide +kernel
  obtain ⟨s₁, h₁, hplay⟩ := Option.any_eq_true .. |>.mp hplay
  obtain ⟨hrec₁, hplay⟩ := of_decide_eq_true hplay
  obtain ⟨s₂, h₂, hplay⟩ := Option.any_eq_true .. |>.mp hplay
  obtain ⟨hrec₂, hplay⟩ := of_decide_eq_true hplay
  obtain ⟨s₃, h₃, hplay⟩ := Option.any_eq_true .. |>.mp hplay
  obtain ⟨hgroup, htakes, hplay⟩ := of_decide_eq_true hplay
  obtain ⟨s, h₄, hplay⟩ := Option.any_eq_true .. |>.mp hplay
  obtain ⟨d, hd, hmem⟩ := Option.any_eq_true .. |>.mp hplay
  refine ⟨s, ⟨d, hd, of_decide_eq_true hmem⟩, twoSided_of_turns (fun _ => rfl) (fun _ => rfl) (Lib.Run.append
    (Turns.run_of_play ?_ h₁) (Lib.Run.append (Turns.run_of_cons ?_ h₂ fun _ => Turns.run_of_play ?_)
    (Lib.Run.append (Turns.run_of_cons ?_ h₃ fun _ => Turns.run_of_play ?_)
    (Turns.run_of_cons ?_ h₄ fun _ => Turns.run_of_play ?_))))⟩
  · simp [Event.KeepsMembership]
  · exact fun _ => hrec₁
  · simp [Event.KeepsMembership]
  · exact fun _ => hrec₂
  · simp [Event.KeepsMembership]
  · -- the student is taken: the group's object finds the members that are stored, and no group has the student
    intro group hg
    obtain rfl : 4 = group := Option.some.inj (hgroup.symm.trans hg)
    exact .inr htakes
  · simp

end Cbt
