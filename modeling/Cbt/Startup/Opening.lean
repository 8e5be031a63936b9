import Cbt.Model.Startup
import Cbt.Sharing.Interleavings
import Cbt.Startup.Tables

/-! The start of the program. A process fills the administrator's tables before anybody
has logged in, so it starts exactly when every stored account can be listed. -/

namespace Cbt

open Lib.Command (Returns run_bind_iff run_pure_iff)

variable {κ : Names} {db : Database} {w w' : World}

namespace Reader

/-- The accounts that are listed can be, when all can. -/
theorem replies_accounts (h : Reader db w) (hn : Named κ db) (hp : db.Presentable) :
    Replies db (Controller.getAll .accounts) w fun r w' => db.Roll w' r :=
  (h.replies_getAll hn (by decide)).mono fun _ _ _ _ hr p hp' => by
    obtain ⟨i, d, hd, hh⟩ := hr p hp'
    exact ⟨d, hh, hp i d hd⟩

theorem replies_updateTable_roll {accs : List ℕ} (h : Reader db w) (hn : Named κ db) (hp : db.Roll w accs) :
    Replies db (AccountsTable.updateTable (accs.map some)) w fun _ _ => True := by
  refine h.replies_updateTable hn fun p hp' => hp p ?_
  obtain ⟨q, hq, he⟩ := List.mem_map.mp hp'
  exact Option.some.inj he ▸ hq

theorem replies_updateAccountsTable (h : Reader db w) (hn : Named κ db) (hp : db.Presentable) :
    Replies db AdminWindow.updateAccountsTable w fun _ _ => True := by
  have hacc : Replies db AccountsTable.getAccounts w fun r w' => ∃ accs : List ℕ, r = accs.map some ∧ db.Roll w' accs :=
    (h.replies_accounts hn hp).bind fun accs _ h₁ _ hr => Replies.pure h₁ ⟨accs, rfl, hr⟩
  refine hacc.bind fun r w₁ h₁ _ hr => ?_
  obtain ⟨accs, rfl, hr⟩ := hr
  exact (h₁.replies_updateTable_roll hn hr).bind fun _ _ h₂ _ _ => Replies.pure h₂ trivial

theorem replies_setGroup (win : AdminWindow) (h : Reader db w) (hn : Named κ db) (hp : db.Presentable) :
    Replies db (win.setGroup none) w fun win' _ => win'.schGroupDB = win.schGroupDB ∧ win'.teacher = win.teacher := by
  refine .seq rfl (.seq rfl ?_)
  refine (h.replies_accounts hn hp).bind fun accs w₁ h₁ _ hr => ?_
  refine (h₁.replies_curators hn hr).bind fun curs w₂ h₂ _ hc => ?_
  exact (h₂.replies_curatorNames hc).bind fun _ _ h₃ _ _ => Replies.pure h₃ ⟨rfl, rfl⟩

theorem replies_ungroupedAccounts (h : Reader db w) (hn : Named κ db) (hp : db.Presentable) :
    Replies db UngroupedAccountsTable.getAccounts w fun r w' =>
      ∀ p, some p ∈ r → ∃ d, w'.Holds p .accountDB d ∧ db.Listable d := by
  refine (h.replies_accounts hn hp).bind fun accs w₁ h₁ _ hr => ?_
  exact (h₁.replies_ungrouped hn hr).mono fun r w₂ _ hl hr' p hp' => hr.mono hl p (hr' p hp')

theorem replies_updateGroupsScrean (win : AdminWindow) (h : Reader db w) (hn : Named κ db) (hp : db.Presentable) :
    Replies db (win.updateGroupsScrean none) w fun win' _ => win'.schGroupDB = win.schGroupDB ∧ win'.teacher = win.teacher := by
  refine (h.replies_setGroup win hn hp).bind fun win' w₁ h₁ _ hw => ?_
  refine .seq rfl (.seq rfl ?_)
  refine (h₁.replies_ungroupedAccounts hn hp).bind fun accs w₂ h₂ _ hr => ?_
  refine (h₂.replies_updateTable hn hr).bind fun _ w₃ h₃ _ _ => ?_
  exact (h₃.replies_groupsTable hn).bind fun _ _ h₄ _ _ => Replies.pure h₄ hw

theorem replies_updateScheduleScrean {win : AdminWindow} (hw : win.schGroupDB = none ∧ win.teacher = none) (h : Reader db w)
    (hn : Named κ db) (hp : db.Presentable) :
    Replies db (win.updateScheduleScrean none) w fun win' _ => win'.schGroupDB = none ∧ win'.teacher = none := by
  have hacc : Replies db TeachersTable.getAccounts w fun r w' => ∃ accs : List ℕ, r = accs.map some ∧ db.Roll w' accs := by
    refine (h.replies_getAllTeachers hn).bind fun accs _ h₁ _ hr => Replies.pure h₁ ⟨accs, rfl, fun p hp' => ?_⟩
    obtain ⟨i, d, hd, hh⟩ := hr p hp'
    exact ⟨d, hh, hp i d hd⟩
  refine hacc.bind fun r w₁ h₁ _ hr => ?_
  obtain ⟨accs, rfl, hr⟩ := hr
  refine (h₁.replies_updateTable_roll hn hr).bind fun _ w₂ h₂ _ _ => ?_
  refine (h₂.replies_groupsTable hn).bind fun _ w₃ h₃ _ _ => ?_
  obtain ⟨hg, ht⟩ := hw
  rw [ht]
  refine .seq rfl ?_
  simp only [hg, Option.none_or]
  exact Replies.pure h₃ ⟨rfl, rfl⟩

/-- The windows are built from any database whose accounts can be listed. -/
theorem replies_construct (h : Reader db w) (hn : Named κ db) (hp : db.Presentable) (today : QDate) :
    Replies db (AdminWindow.construct today) w fun _ _ => True := by
  refine (h.replies_updateAccountsTable hn hp).bind fun _ w₁ h₁ _ _ => ?_
  refine .seq rfl ?_
  refine (h₁.replies_updateGroupsScrean _ hn hp).bind fun win w₂ h₂ _ hw => ?_
  refine (h₂.replies_updateScheduleScrean hw hn hp).bind fun win w₃ h₃ _ _ => ?_
  exact (h₃.replies_setGroup win hn hp).mono fun _ _ _ _ _ => trivial

end Reader

/-- A process that started listed every account. -/
theorem presentable_of_construct {today : QDate} {win : StartWindow}
    (h : run (StartWindow.construct today) (World.start db) = .ok (win, w')) : db.Presentable := by
  obtain ⟨admin, w₁, h₁, -⟩ := (run_bind_iff _).mp h
  obtain ⟨u, w₂, h₂, -⟩ := (run_bind_iff _).mp h₁
  obtain ⟨r, w₃, h₃, h₂⟩ := (run_bind_iff _).mp h₂
  obtain ⟨rows, w₄, h₄, -⟩ := (run_bind_iff _).mp h₂
  obtain ⟨accs, w₅, h₅, h₃⟩ := (run_bind_iff _).mp h₃
  obtain ⟨rfl, rfl⟩ := (run_pure_iff _).mp h₃
  obtain ⟨hr, hall, hin⟩ := (reader_start db).listed (by decide) h₅
  have hholds : ∀ p ∈ accs, ∃ d, w₅.Holds p .accountDB d := by
    intro p hp
    obtain ⟨i, d, -, hd⟩ := hall p hp
    exact ⟨d, hd⟩
  obtain ⟨-, hlist⟩ := hr.listable_of_updateTable hholds h₄
  intro i d hd
  obtain ⟨p, hp, hh⟩ := hin rfl i d hd
  exact hlist p hp d hh

theorem exists_construct (hn : Named κ db) (hp : db.Presentable) (today : QDate) :
    ∃ win w', run (StartWindow.construct today) (World.start db) = .ok (win, w') := by
  obtain ⟨admin, w', hrun, -⟩ := (reader_start db).replies_construct hn hp today
  exact ⟨_, w', (run_bind_iff _).mpr ⟨admin, w', hrun, rfl⟩⟩

/-- Whatever the clients did, another process starts exactly if each stored account whose type has an info refers to a
stored one of the class of the type. -/
theorem starts_iff {ι : Type} [DecidableEq ι] {date : ι → QDate} {as : List (ι × Move)} {s : Clients ι} (hdb : Named κ db)
    (hr : Clients.Run (fun _ => True) (Clients.start db date) as s) (today : QDate) :
    (∃ win w', run (StartWindow.construct today) (World.start s.env) = .ok (win, w')) ↔ s.env.Presentable := by
  obtain ⟨κ', -, h⟩ := (Clients.named_start hdb date).run hr
  constructor
  · rintro ⟨win, w', hrun⟩
    exact presentable_of_construct hrun
  · exact fun hp => exists_construct h.env hp today

/-- The account stored with its info. -/
theorem starts_iff_two : ∃ s : Clients Bool, (s.env.get? .accounts 0).bind Doc.infoClass = some .studentInfoDB ∧
    s.env.Presentable := by
  have hplay : (Clients.play twoStore twoStart).any (fun s =>
      (s.env.get? .accounts 0).bind Doc.infoClass = some .studentInfoDB ∧
        (run (StartWindow.construct (.fromJulianDay 0)) (World.start s.env)).toBool) = true := by decide +kernel
  obtain ⟨s, hs, hp⟩ := Option.any_eq_true .. |>.mp hplay
  obtain ⟨h₀, h₁⟩ := of_decide_eq_true hp
  cases hrun : run (StartWindow.construct (.fromJulianDay 0)) (World.start s.env) with
  | error e => simp [hrun, Except.toBool] at h₁
  | ok r => exact ⟨s, h₀, (starts_iff named_empty (Clients.run_of_play (fun _ _ _ _ => trivial) hs) _).mp ⟨r.1, r.2, hrun⟩⟩

end Cbt
