import Cbt.Accounts.Logins
import Cbt.Sharing.Turns
import Cbt.Startup.Opening

/-! What a sign-up does to the next start. It stores a student's account without an info,
which no table can list, so no process starts until somebody writes to the accounts. -/

namespace Cbt

open Lib.Command (run_bind_iff run_pure_iff)

variable {κ : Names} {db : Database} {w w' : World} {d : Doc} {i : Oid}

/-- An account that has no info cannot be listed. -/
theorem not_presentable {c : DBClass} (hd : db.get? .accounts i = some d) (hc : d.infoClass = some c)
    (hi : db.follow d .additionalInfo = none) : ¬ db.Presentable := by
  intro hp
  obtain ⟨d', x, hd', -⟩ := hp i d hd c hc
  cases hi.symm.trans hd'

/-- A sign-up that finds no account with the login and the password stores one without an info. -/
theorem signedUp {l : LogPass} {wStud : StudentWindow} {o : StartWindow.Opened} (hnew : w.account? l = none)
    (h : run (StartWindow.logIn .signup wStud l.login l.password) w = .ok (o, w')) :
    ∃ i d, w'.env.get? .accounts i = some d ∧ d.infoClass = some .studentInfoDB ∧ d.get? "AdditionalInfo" = some nullValue := by
  obtain ⟨b, w₁, h₁, h₂⟩ := (run_bind_iff _).mp h
  obtain ⟨hb, rfl⟩ := run_isAccountExist_iff.mp h₁
  rw [show (⟨l.login, l.password⟩ : LogPass) = l from rfl, hnew] at hb
  subst hb
  simp only [Option.isSome_none, Bool.false_eq_true, if_false] at h₂
  obtain ⟨ac, w₂, h₃, h₄⟩ := (run_bind_iff _).mp h₂
  obtain ⟨rfl, rfl⟩ := run_newObj_iff.mp h₃
  obtain ⟨r, w₃, h₅, h₆⟩ := (run_bind_iff _).mp h₄
  obtain ⟨-, rfl⟩ := (run_pure_iff _).mp h₆
  obtain ⟨x, d, o', hx, -, hd, -, -, -, rfl⟩ := run_add_iff.mp h₅
  obtain ⟨-, rfl⟩ := Obj.mk.inj (Option.some.inj ((Lib.Heap.get_push_next w.heap _).symm.trans hx))
  obtain ⟨ref, m, hw, rfl⟩ := toDoc_eq_ok.mp hd
  have href : ref .additionalInfo = nullValue := (Except.ok.inj (hw.ref .additionalInfo .null rfl)).symm
  refine ⟨w.env.nextOid, _, stored_post_new (e := w.heap.next), ?_, ?_⟩
  · rw [Doc.infoClass, Collection.withId, show DBClass.accountDB.fields _ = _ from fields_written (.account _) ref m _]
    rfl
  · rw [Collection.withId, Doc.get?_cons, if_neg (by decide), ← href]
    exact get?_written (f := .additionalInfo) (by simp [Fields.cls, DBClass.refs])

/-- Once a client that nobody interrupted signed a user up, no process starts, whatever the clients do that does not
write to the accounts. -/
theorem no_start_after_signup {ι : Type} [DecidableEq ι] {date : ι → QDate} {as bs : List (ι × Move)} {s s' : Clients ι} {j : ι}
    {c c' : Client} {login password : String} {day : QDate} (hdb : Named κ db)
    (hr : Clients.Run (fun _ => True) (Clients.start db date) as s) (hidle : ∀ j, ∃ win p, s.mem j = .idle win p)
    (hj : s.conf j = c.resting) (hnew : ∀ i d, s.env.get? .accounts i = some d → ¬ d.HasLogPass { login, password })
    (hsign : (Event.logIn .signup login password day).Step c c')
    (hr' : Clients.Run (fun e => ¬ e.writes .accounts) (s.moved j c'.resting) bs s') (today : QDate) :
    ¬ ∃ win w', run (StartWindow.construct today) (World.start s'.env) = .ok (win, w') := by
  rintro ⟨win, w', hstart⟩
  have henv : s.env = c.world.env := congrArg Lib.Conf.env hj
  have hnone : c.world.account? { login, password } = none := by
    rw [← Option.not_isSome_iff_eq_none, account?_isSome]
    rintro ⟨i, d, hd, hl⟩
    exact hnew i d (by rw [henv]; exact hd) hl
  obtain ⟨-, o, hrun⟩ := id hsign
  obtain ⟨i, d, hd, hc, hinfo⟩ := signedUp hnone hrun
  obtain ⟨as', -, hr₁⟩ := Clients.run_event (e := .logIn .signup login password day) hj (fun _ => True) trivial hsign
  obtain ⟨κ', -, h⟩ := (Clients.named_start hdb date).run (hr.append hr₁)
  have hidle' : ∀ k, ∃ win p, (s.moved j c'.resting).mem k = .idle win p := by
    intro k
    by_cases hk : k = j
    · subst hk
      exact ⟨c'.win, c'.world.mem, by simp [Lib.Shared.moved, Client.resting]⟩
    · simpa [Lib.Shared.moved, hk] using hidle k
  have hwithin : Clients.RunWithin (· ≠ .accounts) (s.moved j c'.resting) bs s' :=
    hr'.mono fun a t ha e he k hk hacc => ha e he (hacc ▸ hk)
  have hd' : s'.env.get? .accounts i = some d := (h.untouched hidle' hwithin (by simp) i).trans hd
  refine not_presentable hd' hc ?_ (presentable_of_construct hstart)
  simp [Database.follow, RefField.key, hinfo, nullValue, Bson.oid?]

/-- One client signs a user up, and the other stores a group. -/
theorem no_start_after_signup_two : ∃ s' : Clients Bool, (s'.env.get? .accounts 0).isSome ∧ (s'.env.get? .groups 1).isSome ∧
    ∀ today, ¬ ∃ win w', run (StartWindow.construct today) (World.start s'.env) = .ok (win, w') := by
  have hplay : ((Event.logIn .signup "login" "password" (.fromJulianDay 0)).next?
      (.start Database.empty (.fromJulianDay 0))).any (fun c => (Clients.play
        [(true, .begin (.call (.new (.group "group")))), (true, .begin (.call (.add .groups 0 .admin))), (true, .next), (true, .next)]
          (twoStart.moved false c.resting)).any (fun s' =>
          (s'.env.get? .accounts 0).isSome ∧ (s'.env.get? .groups 1).isSome)) = true := by decide +kernel
  obtain ⟨c, hc, hp⟩ := Option.any_eq_true .. |>.mp hplay
  obtain ⟨s', hs', hp'⟩ := Option.any_eq_true .. |>.mp hp
  obtain ⟨h₀, h₁⟩ := of_decide_eq_true hp'
  have hrun : Clients.Run (fun e => ¬ e.writes .accounts) (twoStart.moved false c.resting) _ s' := Clients.run_of_play ?_ hs'
  · refine ⟨s', h₀, h₁, no_start_after_signup named_empty .nil (fun j => ⟨_, _, rfl⟩) rfl (fun i d hd => ?_)
      (Event.step_of_next? hc) hrun⟩
    cases hd
  intro a ha e he
  simp only [List.mem_cons, List.not_mem_nil, or_false] at ha
  rcases ha with rfl | rfl | rfl | rfl <;> simp only [Move.begin.injEq, reduceCtorEq] at he <;> subst he <;>
    simp [Event.writes, Action.writes]

end Cbt
