import Cbt.Groups.Clients
import Cbt.Startup.Adding
import Cbt.Startup.Opening

/-! Starting again after other processes. Every event but a sign-up, the deletion and the
update of an account leaves the accounts listable, so whatever the processes do in turn
without these, the next one starts. -/

namespace Cbt

open Lib (Shared)
open Lib.Command (run_bind_iff run_pure_iff)

variable {ι : Type} [DecidableEq ι] {κ : Names} {db : Database} {w w' : Lib.Conf Database (AdminWindow × Process)} {e : Event}

/-- All but a sign-up, the deletion and the update of an account, and single operations that write to accounts or infos. -/
def Event.KeepsListed : Event → Prop
  | .slot .deleteAccount | .slot .updateAccount | .logIn .signup _ _ _ => False
  | .call a => ¬ a.writes .accounts ∧ ¬ a.writes .infos
  | _ => True

/-! ### One event -/

/-- The only event that stores an account is the form's. -/
theorem Safe.step {c c' : Client} (hs : e.Step c c') (hg : e.KeepsListed) (hne : e ≠ .slot .addNewAccount)
    (hw : Sound c.world) : Safe c.world c'.world := by
  have beside (ha : ¬ e.writes .accounts) (hi : ¬ e.writes .infos) : Safe c.world c'.world := by
    rcases acts_of_step hs with hacts | ⟨date, rfl, rfl⟩
    · exact of_acts hacts hw ha hi
    · exact ⟨.of_env rfl, fun _ => rfl⟩
  cases e with
  | slot s =>
    cases s with
    | addNewAccount => exact absurd rfl hne
    | deleteAccount | updateAccount => exact hg.elim
    | addClass text =>
      obtain ⟨_, _, hr, hr'⟩ := (run_bind_iff _).mp hs
      exact (run_pure_iff _).mp hr' |>.2 ▸ addClass hw hr
    | deleteClass text =>
      obtain ⟨_, _, hr, hr'⟩ := (run_bind_iff _).mp hs
      exact (run_pure_iff _).mp hr' |>.2 ▸ deleteClass hw hr
    | addAccToGroup acc => exact addAccToGroup hw hs
    | deleteAccFromGroup acc => exact deleteAccFromGroup hw hs
    | _ => exact beside (by simp [Event.writes, Slot.writes]) (by simp [Event.writes, Slot.writes])
  | logIn state login password date =>
    cases state with
    | login => exact beside id id
    | signup => exact hg.elim
  | call a => exact beside hg.1 hg.2
  | input | restart => exact beside id id

/-- The calls of an event leave every document and every object of the class of its id. -/
theorem Event.Turn.named (h : e.Turn w w') (hdb : Named κ w.env) (hp : ∃ Γ, Owns κ Γ w.mem.2) :
    ∃ κ', κ ≤ κ' ∧ Named κ' w'.env ∧ ∃ Γ, Owns κ' Γ w'.mem.2 := by
  have hcalls : ∀ v, Relation.ReflTransGen (Lib.Program.Next Database.serve) ((Client.of w).begun e) v →
      ∃ κ', κ ≤ κ' ∧ Named κ' v.env ∧ Rest.Keeps (fun _ => True) κ' v.mem := by
    intro v hv
    induction hv with
    | refl => exact ⟨κ, le_rfl, hdb, keeps_event (fun _ _ => trivial) w.mem.1 hp⟩
    | tail _ hn ih =>
      obtain ⟨κ₁, hκ₁, h₁, hm₁⟩ := ih
      obtain ⟨⟨κ₂, hκ₂, h₂, hm₂⟩, -⟩ := Lib.Program.Upholds.next hm₁ h₁ hn
      exact ⟨κ₂, hκ₁.trans hκ₂, h₂, hm₂⟩
  exact hcalls _ (Event.step_iff_next.mp h)

theorem Owns.issued {Γ : Classes} {w : World} (h : Owns κ Γ w.mem) (hdb : Named κ w.env) : Issued w := by
  intro p b x hp
  refine ⟨?_, .inr (.inl trivial)⟩
  rcases (h.known p _ hp).admits b rfl with hc | ⟨-, c, hc, -⟩ <;> exact hdb.given _ _ hc

/-- One turn of one process. -/
theorem Event.Turn.presentable (h : e.Turn w w') (hg : e.KeepsListed) (hw : Sound (Client.of w).world) (hdb : Named κ w.env)
    (ho : ∃ Γ, Owns κ Γ w.mem.2) (hp : w.env.Presentable) : Sound (Client.of w').world ∧
      ∃ κ', κ ≤ κ' ∧ (Named κ' w'.env ∧ w'.env.Presentable) ∧ ∃ Γ, Owns κ' Γ w'.mem.2 := by
  obtain ⟨κ', hκ, hdb', ho'⟩ := h.named hdb ho
  refine ⟨?_, κ', hκ, ⟨hdb', ?_⟩, ho'⟩
  · rcases acts_of_step h with hacts | ⟨date, -, hc⟩
    · exact hacts.sound hw
    · rw [hc]
      exact sound_start _
  · by_cases hne : e = .slot .addNewAccount
    · subst hne
      obtain ⟨Γ, ho⟩ := ho
      have hi : Issued (Client.of w).world := Owns.issued ho hdb
      obtain ⟨hk, hl⟩ := listable_of_addNewAccount hw hi h
      exact hp.keep hdb hdb' hκ hk hl
    · obtain ⟨hk, ha⟩ := Safe.step h hg hne hw
      exact hp.keep hdb hdb' hκ hk fun i d hd => .inl ((ha i).symm.trans hd)

/-! ### Every turn -/

/-- From a database whose accounts can be listed, another process starts after any turns of any number of processes that
sign nobody up and delete and update no account. -/
theorem starts_of_turns {date : ι → QDate} {es : List (ι × Event)} {s : Turns ι} (hdb : Named κ db) (hp : db.Presentable)
    (hr : Turns.Run Event.KeepsListed (Turns.start db date) es s) (today : QDate) :
    ∃ win w', run (StartWindow.construct today) (World.start s.env) = .ok (win, w') := by
  have h₀ : Shared.At (fun κ db => Named κ db ∧ db.Presentable)
      (fun κ r => (∃ Γ, Owns κ Γ r.2) ∧ Sound ⟨Database.empty, r.2⟩) κ (Turns.start db date) :=
    ⟨⟨hdb, hp⟩, fun _ => ⟨owns_init, sound_start _⟩⟩
  have hmono : ∀ (κ κ' : Names) (r : AdminWindow × Process), κ ≤ κ' → (∃ Γ, Owns κ Γ r.2) ∧ Sound ⟨Database.empty, r.2⟩ →
      (∃ Γ, Owns κ' Γ r.2) ∧ Sound ⟨Database.empty, r.2⟩ := by
    rintro κ κ' r hκ ⟨⟨Γ, ho⟩, hw⟩
    exact ⟨⟨Γ, ho.mono hκ⟩, hw⟩
  have hstep : ∀ (e : Event) (κ : Names) (w w' : Lib.Conf Database (AdminWindow × Process)), Named κ w.env ∧ w.env.Presentable →
      (∃ Γ, Owns κ Γ w.mem.2) ∧ Sound ⟨Database.empty, w.mem.2⟩ → e.KeepsListed → e.Turn w w' →
      ∃ κ', κ ≤ κ' ∧ (Named κ' w'.env ∧ w'.env.Presentable) ∧ (∃ Γ, Owns κ' Γ w'.mem.2) ∧ Sound ⟨Database.empty, w'.mem.2⟩ := by
    intro e κ w w' hw hm hg ht
    obtain ⟨hs, κ', hκ, hdb', ho⟩ := ht.presentable hg ⟨hm.2.entry, hm.2.nodup⟩ hw.1 hm.1 hw.2
    exact ⟨κ', hκ, hdb', ho, hs.entry, hs.nodup⟩
  obtain ⟨κ', -, h⟩ := h₀.after hmono hstep hr
  exact exists_construct h.env.1 h.env.2 today

/-- Two administrators add a teacher and a student. -/
theorem starts_of_turns_two : ∃ s : Turns Bool, (s.env.get? .accounts 0).bind Doc.infoClass = some .teacherInfoDB ∧
    (s.env.get? .accounts 2).bind Doc.infoClass = some .studentInfoDB ∧
      ∀ today, ∃ win w', run (StartWindow.construct today) (World.start s.env) = .ok (win, w') := by
  have hplay : (Turns.play [(false, .input (.type .teacher)), (true, .input (.type .student)), (false, .slot .addNewAccount),
      (true, .slot .addNewAccount)] (Turns.start Database.empty fun _ => .fromJulianDay 0)).any
        (fun s => (s.env.get? .accounts 0).bind Doc.infoClass = some .teacherInfoDB ∧
          (s.env.get? .accounts 2).bind Doc.infoClass = some .studentInfoDB) = true := by decide +kernel
  obtain ⟨s, hs, hp⟩ := Option.any_eq_true .. |>.mp hplay
  obtain ⟨h₀, h₂⟩ := of_decide_eq_true hp
  refine ⟨s, h₀, h₂, starts_of_turns named_empty (fun i d hd => ?_) (Turns.run_of_play ?_ hs)⟩
  · cases hd
  · simp [Event.KeepsListed]

end Cbt
