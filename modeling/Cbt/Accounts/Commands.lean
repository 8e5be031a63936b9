import Cbt.Windows.Acts

/-! The account commands, step by step: what a run of adding, updating or deleting an
account is made of. What the screens and the forms ask for in between only looks. -/

namespace Cbt

open Lib.Command (run_bind_iff run_pure_iff run_fault_iff)

variable {w w' : World}

theorem Looks.push (w : World) (x : Fields) : Looks w (w.push ⟨none, x⟩) :=
  .of_quiet (L := never) (.single (.push rfl))

/-! ### The forms -/

/-- The form makes a new account, and an info with it unless it is an administrator's. -/
theorem run_getNewAccount {form : DisplayAccountWidget} {data : ℕ × Option ℕ} (hw : Sound w)
    (h : run form.getNewAccount w = .ok (data, w')) : data.1 = w.heap.next ∧
      Looks (w.push ⟨none, .account
        { login := form.editLogin, password := form.editPassword, accountType := form.editType }⟩) w' := by
  simp only [DisplayAccountWidget.getNewAccount, run_bind_iff, run_newObj_iff] at h
  obtain ⟨_, _, ⟨rfl, rfl⟩, h⟩ := h
  have hw₁ := sound_push hw ⟨none, .account
    { login := form.editLogin, password := form.editPassword, accountType := form.editType }⟩
  cases ht : form.editType with
  | student =>
    simp only [ht, run_bind_iff, run_newObj_iff] at h hw₁
    obtain ⟨_, _, ⟨rfl, rfl⟩, grp, w₃, h₃, h⟩ := h
    have l₂ : Looks _ _ := (Looks.push _ _).trans ((views_getGroupFromEdit form).looks (sound_push hw₁ _) h₃)
    cases hg : grp.isSome with
    | false =>
      simp only [hg, Bool.false_eq_true, if_false, run_pure_iff] at h
      obtain ⟨rfl, rfl⟩ := h
      exact ⟨rfl, l₂⟩
    | true =>
      simp only [hg, if_true, run_bind_iff, run_pure_iff] at h
      obtain ⟨grp', w₄, h₄, _, _, h₅, rfl, rfl⟩ := h
      have l₄ : Looks _ _ := l₂.trans ((views_getGroupFromEdit form).looks (Looks.sound l₂ hw₁) h₄)
      exact ⟨rfl, l₄.trans (Looks.of_quiet (quiet_setRef (Looks.sound l₄ hw₁) h₅))⟩
  | teacher =>
    simp only [ht, run_bind_iff, run_newObj_iff, run_pure_iff] at h
    obtain ⟨_, _, ⟨rfl, rfl⟩, rfl, rfl⟩ := h
    exact ⟨rfl, .push _ _⟩
  | admin =>
    simp only [ht, run_pure_iff] at h
    obtain ⟨rfl, rfl⟩ := h
    exact ⟨rfl, .refl⟩

/-- The form writes the account it shows, and makes a new info unless it becomes an administrator's. -/
theorem run_getAccountForDBUpdate {form : DisplayAccountWidget} {data : ℕ × Option ℕ × Option ℕ} (hw : Sound w)
    (h : run form.getAccountForDBUpdate w = .ok (data, w')) : ∃ c a, form.acc = some data.1 ∧
      w.heap.get data.1 = some ⟨c, .account a⟩ ∧ (data.2.2.isSome → form.editType ≠ .admin) ∧
      Looks (w.put data.1 ⟨c, .account
        { a with login := form.editLogin, password := form.editPassword, accountType := form.editType }⟩) w' := by
  unfold DisplayAccountWidget.getAccountForDBUpdate at h
  cases hacc : form.acc with
  | none => simp [hacc] at h
  | some acc =>
    simp only [hacc, run_bind_iff] at h
    obtain ⟨_, w₁, h₁, prev, w₂, h₂, h⟩ := h
    have hs₁ : Sound w₁ := Acts.sound (does_assignAccount (K := fun _ => True) acc _ _ _ _ _ _ h₁) hw
    simp only [DisplayAccountWidget.assignAccount, run_bind_iff, run_obj_iff] at h₁
    obtain ⟨⟨c, x⟩, _, ⟨hx, rfl⟩, h₁⟩ := h₁
    obtain ⟨a, rfl⟩ : ∃ a, x = .account a := by
      cases x <;> first | exact ⟨_, rfl⟩ | exact ((run_fault_iff _).mp h₁).elim
    obtain rfl := run_setObj_iff.mp h₁
    have l₂ := (views_getAdditionalInfo acc).looks hs₁ h₂
    cases ht : form.editType with
    | student =>
      simp only [ht, run_bind_iff, run_newObj_iff, run_pure_iff] at h l₂ hs₁
      obtain ⟨_, _, ⟨rfl, rfl⟩, grp, w₄, h₄, _, w₅, h₅, rfl, rfl⟩ := h
      have hs₃ := sound_push (Looks.sound l₂ hs₁)
      have l₄ : Looks _ _ := (l₂.trans (Looks.push _ _)).trans ((views_getGroupFromEdit form).looks (hs₃ _) h₄)
      exact ⟨c, a, rfl, hx, by simp, l₄.trans (Looks.of_quiet (quiet_setRef (Looks.sound l₄ hs₁) h₅))⟩
    | teacher =>
      simp only [ht, run_bind_iff, run_newObj_iff, run_pure_iff] at h l₂
      obtain ⟨_, _, ⟨rfl, rfl⟩, rfl, rfl⟩ := h
      exact ⟨c, a, rfl, hx, by simp, l₂.trans (Looks.push _ _)⟩
    | admin =>
      simp only [ht, run_pure_iff] at h l₂
      obtain ⟨rfl, rfl⟩ := h
      exact ⟨c, a, rfl, hx, by simp, l₂⟩

/-! ### The commands -/

/-- An info of a form is given to its account and added. -/
def InfoGiven (w : World) (info? : Option ℕ) (acc : ℕ) (w' : World) : Prop :=
  info? = none ∧ w' = w ∨ ∃ info t r w₁, info? = some info ∧ run (AdditionalInfo.setOwner info (some acc)) w = .ok ((), w₁) ∧
    run (accountType acc) w₁ = .ok (t, w₁) ∧ run (InfosController.add info t) w₁ = .ok (r, w')

theorem run_addNewAccount {win win' : AdminWindow} (h : run win.addNewAccount w = .ok (win', w')) :
    ∃ data w₁ acc w₂ w₃, run win.accountDisp.getNewAccount w = .ok (data, w₁) ∧
      run (Controller.add .accounts data.1) w₁ = .ok (some acc, w₂) ∧ InfoGiven w₂ data.2 acc w₃ ∧
        run (do AdminWindow.updateAccountsTable; win.updateGroupsScrean none) w₃ = .ok (win', w') := by
  simp only [AdminWindow.addNewAccount, run_bind_iff] at h
  obtain ⟨data, w₁, h₁, res, w₂, h₂, h⟩ := h
  obtain ⟨x, d, o, -, -, -, -, -, rfl, -⟩ := run_add_iff.mp h₂
  cases hd : data.2 with
  | none =>
    simp only [hd] at h
    exact ⟨data, w₁, _, w₂, w₂, h₁, h₂, .inl ⟨hd, rfl⟩, h⟩
  | some info =>
    simp only [hd, run_bind_iff] at h
    obtain ⟨_, w₃, h₃, t, w₄, h₄, r, w₅, h₅, h⟩ := h
    obtain ⟨-, rfl⟩ := run_accountType_iff.mp h₄
    exact ⟨data, w₁, _, w₂, w₅, h₁, h₂, .inr ⟨info, t, r, w₃, hd, h₃, h₄, h₅⟩, (run_bind_iff _).mpr h⟩

/-- An info that is there is deleted. -/
def InfoDeleted (w : World) (info? : Option ℕ) (w' : World) : Prop :=
  info? = none ∧ w' = w ∨ ∃ info b r, info? = some info ∧ header w.heap info = .ok b ∧
    run (Controller.delete .infos b.id) w = .ok (r, w')

theorem run_updateAccount {win win' : AdminWindow} (h : run win.updateAccount w = .ok (win', w')) :
    ∃ data w₁ r w₂ w₃ w₄, run win.accountDisp.getAccountForDBUpdate w = .ok (data, w₁) ∧
      run (Controller.update .accounts data.1) w₁ = .ok (r, w₂) ∧ InfoDeleted w₂ data.2.1 w₃ ∧
        InfoGiven w₃ data.2.2 data.1 w₄ ∧ run AdminWindow.updateAccountsTable w₄ = .ok ((), w') := by
  obtain ⟨⟨acc, prev, new⟩, w₁, h₁, h⟩ := (run_bind_iff _).mp h
  obtain ⟨r, w₂, h₂, h⟩ := (run_bind_iff _).mp h
  have filled {w₃ : World} (h : run (do
      AdminWindow.updateAccountsTable
      return win) w₃ = .ok (win', w')) : run AdminWindow.updateAccountsTable w₃ = .ok ((), w') := by
    simp only [run_bind_iff, run_pure_iff] at h
    obtain ⟨_, _, htable, -, rfl⟩ := h
    exact htable
  have given {info : ℕ} {w₃ : World} (h : run (do
      AdditionalInfo.setOwner info (some acc)
      let _ ← InfosController.add info (← accountType acc)
      AdminWindow.updateAccountsTable
      return win) w₃ = .ok (win', w')) :
      ∃ w₄, InfoGiven w₃ (some info) acc w₄ ∧ run AdminWindow.updateAccountsTable w₄ = .ok ((), w') := by
    obtain ⟨_, w₄, h₄, h⟩ := (run_bind_iff _).mp h
    obtain ⟨t, w₅, h₅, h⟩ := (run_bind_iff _).mp h
    obtain ⟨-, rfl⟩ := run_accountType_iff.mp h₅
    obtain ⟨r, w₆, h₆, h⟩ := (run_bind_iff _).mp h
    exact ⟨w₆, .inr ⟨info, t, r, w₄, rfl, h₄, h₅, h₆⟩, filled h⟩
  cases prev with
  | none =>
    cases new with
    | none => exact ⟨_, w₁, r, w₂, w₂, w₂, h₁, h₂, .inl ⟨rfl, rfl⟩, .inl ⟨rfl, rfl⟩, filled h⟩
    | some info =>
      obtain ⟨w₄, h₄, h₅⟩ := given h
      exact ⟨_, w₁, r, w₂, w₂, w₄, h₁, h₂, .inl ⟨rfl, rfl⟩, h₄, h₅⟩
  | some prev =>
    obtain ⟨b, w₃, h₀, h⟩ := (run_bind_iff _).mp h
    obtain ⟨hb, rfl⟩ := run_fromDB_iff.mp h₀
    obtain ⟨r', w₄, h₃, h⟩ := (run_bind_iff _).mp h
    cases new with
    | none => exact ⟨_, w₁, r, w₂, w₄, w₄, h₁, h₂, .inr ⟨prev, b, r', rfl, hb, h₃⟩, .inl ⟨rfl, rfl⟩, filled h⟩
    | some info =>
      obtain ⟨w₅, h₄, h₅⟩ := given h
      exact ⟨_, w₁, r, w₂, w₄, w₅, h₁, h₂, .inr ⟨prev, b, r', rfl, hb, h₃⟩, h₄, h₅⟩

theorem run_deleteAccount {win win' : AdminWindow} (hw : Sound w) (h : run win.deleteAccount w = .ok (win', w')) :
    w' = w ∨ ∃ data info? b r w₁ w₂ w₃, win.accountDisp.getAccountForDelete = some data ∧
      Looks w w₁ ∧ InfoDeleted w₁ info? w₂ ∧ header w₂.heap data = .ok b ∧
        run (Controller.delete .accounts b.id) w₂ = .ok (r, w₃) ∧
          run (do AdminWindow.updateAccountsTable; win.setAccountToDisplayWidget none) w₃ = .ok (win', w') := by
  unfold AdminWindow.deleteAccount at h
  cases hd : win.accountDisp.getAccountForDelete with
  | none =>
    simp only [hd, run_pure_iff] at h
    exact .inl h.2.symm
  | some data =>
    simp only [hd, run_bind_iff] at h
    obtain ⟨info?, w₁, h₁, h⟩ := h
    have l₁ := (views_getAdditionalInfo data).looks hw h₁
    cases hi : info?.isSome with
    | false =>
      simp only [hi, Bool.false_eq_true, if_false, run_bind_iff, run_fromDB_iff] at h
      obtain ⟨b, _, ⟨hb, rfl⟩, r, w₃, h₃, h⟩ := h
      exact .inr ⟨data, none, b, r, w₁, w₁, w₃, rfl, l₁, .inl ⟨rfl, rfl⟩, hb, h₃, (run_bind_iff _).mpr h⟩
    | true =>
      simp only [hi, if_true, run_bind_iff] at h
      obtain ⟨again?, w₂, h₂, h⟩ := h
      have l₂ := l₁.trans ((views_getAdditionalInfo data).looks (Looks.sound l₁ hw) h₂)
      cases again? with
      | none => simp [run_bind_iff] at h
      | some info =>
        simp only [run_bind_iff, run_fromDB_iff] at h
        obtain ⟨b, _, ⟨hb, rfl⟩, r, w₃, h₃, b', _, ⟨hb', rfl⟩, r', w₄, h₄, h⟩ := h
        exact .inr ⟨data, some info, b', r', w₂, w₃, w₄, rfl, l₂, .inr ⟨info, b, r, rfl, hb, h₃⟩, hb', h₄,
          (run_bind_iff _).mpr h⟩

end Cbt
