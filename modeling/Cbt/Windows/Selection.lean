import Cbt.Caches.Identity
import Cbt.Effects.Storing
import Cbt.Windows.Acts

/-! The group the administrator's window remembers. Addresses are never given back,
and a slot that selects a group has asked for it; so the remembered group is at an
address that was given out, whether or not it still exists. -/

namespace Cbt

open Lib.Command (run_bind_iff run_pure_iff run_fault_iff)

variable {w w' : World} {K : Kind → Prop}

/-! ### Addresses -/

theorem Attached.next {acc res : ℕ} (h : Attached w acc res w') : w'.heap.next = w.heap.next := by
  obtain ⟨ba, br, a, x, -, -, -, hg⟩ := h.given
  exact hg.next

theorem Enrolled.next {this stud : ℕ} (h : Enrolled w this stud w') : w'.heap.next = w.heap.next := by
  obtain ⟨bg, bs, g, s, -, -, hm⟩ := h.moved
  exact hm.next

theorem Grouped.next_le {temp : ℕ} (h : Grouped w temp w') (hw : Sound w) : w.heap.next ≤ w'.heap.next := by
  cases h with
  | none h => exact (quiet_getGroup hw h).next_le
  | some h h' he =>
    have q₁ := quiet_getGroup hw h
    have q₂ := quiet_getGroup (q₁.sound hw) h'
    rw [he.next]
    exact q₁.next_le.trans q₂.next_le

theorem InfoAdded.next_le {id : Oid} {t : AccountType} {r : Option ℕ} (h : InfoAdded w id t r w') (hw : Sound w) :
    w.heap.next ≤ w'.heap.next := by
  have hpush : ∀ o, w.heap.next ≤ (w.push o).heap.next := by simp
  cases h with
  | admin => exact le_rfl
  | student hs ho hg he ha =>
    rename_i d o acc w₁ w₂
    have q₁ := quiet_getOwner (g := .getStudentOwner) rfl (sound_push hw o) hg
    rw [ha.next]
    exact (hpush o).trans (q₁.next_le.trans (he.next_le (q₁.sound (sound_push hw o))))
  | teacher hs ho hg ha =>
    rename_i d o acc w₁
    have q₁ := quiet_getOwner (g := .getTeacherOwner) rfl (sound_push hw o) hg
    rw [ha.next]
    exact (hpush o).trans q₁.next_le

/-- No operation gives an address back. -/
theorem Outcome.next_le {a : Action} (h : Outcome w a w') (hw : Sound w) : w.heap.next ≤ w'.heap.next := by
  cases h with
  | quiet h => exact h.next_le
  | listed hc hl hq => exact hq.next_le
  | loggedIn hd ho => simp
  | added hk he hx hd ho => simp
  | infoAdded he hx hd h =>
    refine le_trans ?_ (h.next_le (hw.post he _))
    simp
  | deleted h =>
    obtain ⟨p, b, x, db, -, -, rfl, -⟩ := h.effect
    simp
  | updated h =>
    obtain ⟨b, x, d, -, -, -, -, hh, -⟩ := update_effect h
    simp [hh]
  | enrolled h => exact h.next.ge
  | expelled h =>
    obtain ⟨bg, bs, g, s, l₁, p, l₂, -, -, -, -, -, hm⟩ := h.moved
    exact hm.next.ge

theorem Acts.next_le (h : Acts K w w') (hw : Sound w) : w.heap.next ≤ w'.heap.next := by
  induction h with
  | refl => exact le_rfl
  | tail h h' ih =>
    refine ih.trans ?_
    cases h' with
    | act a ha hs =>
      have hw' := Acts.sound h hw
      exact (outcome_of_step hw' hs).next_le hw'
    | assigned hs =>
      cases hs
      simp

/-! ### The selected group -/

/-- The window a command leaves has selected no other group than before, but one it asked for. -/
def Selects (win : AdminWindow) (m : Cmd AdminWindow) : Prop :=
  ∀ w win' w', Sound w → run m w = .ok (win', w') →
    ∀ g, win'.group = some g → win.group = some g ∨ g < w'.heap.next

namespace Selects

variable {α : Type} {win : AdminWindow}

theorem bind {m : Cmd α} {f : α → Cmd AdminWindow} (hm : Does (fun _ => True) m) (hf : ∀ a, Selects win (f a)) :
    Selects win (m >>= f) := by
  intro w win' w' hw h
  obtain ⟨a, w₁, h₁, h₂⟩ := (run_bind_iff _).mp h
  exact hf a w₁ win' w' ((hm _ _ _ h₁).sound hw) h₂

theorem views {m : Cmd α} {f : α → Cmd AdminWindow} (hm : Views m) (hf : ∀ a, Selects win (f a)) :
    Selects win (m >>= f) := bind (.of_views hm) hf

theorem pure {win₁ : AdminWindow} (h : win₁.group = win.group) : Selects win (Pure.pure win₁) := by
  intro w win' w' hw hr g hg
  obtain ⟨rfl, rfl⟩ := (run_pure_iff _).mp hr
  exact .inl (h ▸ hg)

theorem fault (e : Fault) : Selects win (Lib.Command.fault e) := fun _ _ _ _ h => ((run_fault_iff _).mp h).elim

theorem ite {c : Prop} [Decidable c] {m m' : Cmd AdminWindow} (hm : Selects win m) (hm' : Selects win m') :
    Selects win (if c then m else m') := by
  split_ifs
  · exact hm
  · exact hm'

end Selects

/-- Showing a group asks for it. -/
theorem group_of_setGroup {win win' : AdminWindow} {grp : Option ℕ} (hw : Sound w)
    (h : run (win.setGroup grp) w = .ok (win', w')) : win'.group = grp ∧ ∀ g, grp = some g → g < w'.heap.next := by
  have hl := (views_setGroup win grp).looks hw h
  simp only [AdminWindow.setGroup, run_bind_iff] at h
  obtain ⟨accs, w₁, h₁, rows, w₂, -, all, w₃, -, curs, w₄, -, names, w₅, -, h⟩ := h
  constructor
  · cases grp with
    | none =>
      obtain ⟨rfl, -⟩ := (run_pure_iff _).mp h
      rfl
    | some g =>
      simp only [AdminWindow.showGroup, run_bind_iff, run_pure_iff] at h
      obtain ⟨_, _, -, _, _, -, rfl, -⟩ := h
      rfl
  · rintro g rfl
    simp only [GroupedAccountsTable.getAccounts, run_bind_iff, run_fromDB_iff] at h₁
    obtain ⟨b, _, ⟨hb, rfl⟩, -⟩ := h₁
    obtain ⟨x, hx⟩ := header_eq_ok.mp hb
    exact (Lib.Heap.lt_next hx).trans_le hl.next_le

variable (win : AdminWindow)

theorem selects_setGroup (win₁ : AdminWindow) (grp : Option ℕ) : Selects win (win₁.setGroup grp) := by
  intro w win' w' hw h g hg
  obtain ⟨hgrp, hlt⟩ := group_of_setGroup hw h
  exact .inr (hlt g (hgrp.symm.trans hg))

theorem selects_updateGroupsScrean (win₁ : AdminWindow) (grp : Option ℕ) : Selects win (win₁.updateGroupsScrean grp) := by
  intro w win' w' hw h g hg
  simp only [AdminWindow.updateGroupsScrean, run_bind_iff, run_pure_iff] at h
  obtain ⟨win₂, w₁, h₁, accs, w₂, h₂, _, w₃, h₃, accs', w₄, h₄, _, w₅, h₅, _, w₆, h₆, rfl, rfl⟩ := h
  obtain ⟨hgrp, hlt⟩ := group_of_setGroup hw h₁
  have hw₁ := (views_setGroup win₁ grp).looks hw h₁ |>.sound hw
  have hrest : Watches w₁ w₆ := (((((views_groupedAccounts grp _ _ _ h₂).trans (views_updateTable accs _ _ _ h₃)).trans
    (views_ungroupedAccounts _ _ _ h₄)).trans (views_updateTable accs' _ _ _ h₅))).trans (views_groupsTable _ _ _ h₆)
  exact .inr ((hlt g (hgrp.symm.trans hg)).trans_le (Watches.looks hrest hw₁).next_le)

variable {win}

theorem selects_updateScheduleScrean {win₁ : AdminWindow} (hg : win₁.group = win.group) (grp : Option ℕ) :
    Selects win (win₁.updateScheduleScrean grp) := by
  have hteach : Views TeachersTable.getAccounts := .bind views_getAllTeachers fun _ => .pure _
  refine .views hteach fun accs => .views (views_updateTable accs) fun _ => .views views_groupsTable fun _ =>
    .views (views_getLessonsTypes _) fun _ => ?_
  cases grp.or win₁.schGroupDB with
  | none => exact .pure hg
  | some group => exact .views (views_getAllSchedulesinDate _ _) fun _ => .views (views_setSchedules _) fun _ => .pure hg

theorem selects_setAccountToDisplayWidget (acc : Option ℕ) : Selects win (win.setAccountToDisplayWidget acc) :=
  .views (views_setAccountDB _ acc) fun _ => .pure rfl

theorem selects_addNewAccount : Selects win win.addNewAccount := by
  refine .bind (does_getNewAccount _) fun data => .bind (does_add (by simp) trivial _) fun res => ?_
  have hrest : Selects win (do
      AdminWindow.updateAccountsTable
      win.updateGroupsScrean none) :=
    .views views_updateAccountsTable fun _ => selects_updateGroupsScrean win win none
  cases data.2 with
  | none => exact hrest
  | some info =>
    refine .bind (does_setRef _ _ _) fun _ => ?_
    cases res with
    | none => exact .fault _
    | some res =>
      exact .views (views_accountType res) fun t => .bind (does_infosAdd trivial trivial trivial info t) fun _ => hrest

theorem selects_deleteAccount : Selects win win.deleteAccount := by
  unfold AdminWindow.deleteAccount
  cases win.accountDisp.getAccountForDelete with
  | none => exact .pure rfl
  | some data =>
    have hrest : Selects win (do
        let _ ← Controller.delete .accounts (← fromDB data).id
        AdminWindow.updateAccountsTable
        win.setAccountToDisplayWidget none) :=
      .views (views_fromDB data) fun _ => .bind (does_delete trivial _) fun _ =>
        .views views_updateAccountsTable fun _ => selects_setAccountToDisplayWidget none
    refine .views (views_getAdditionalInfo data) fun _ => .ite ?_ hrest
    refine .views (views_getAdditionalInfo data) fun info? => ?_
    cases info? with
    | none => exact .fault _
    | some info => exact .views (views_fromDB info) fun _ => .bind (does_delete trivial _) fun _ => hrest

theorem selects_updateAccount : Selects win win.updateAccount := by
  refine .bind (does_getAccountForDBUpdate _) fun data => .bind (does_update trivial _) fun _ => ?_
  have hrest : Selects win (do
      AdminWindow.updateAccountsTable
      return win) := .views views_updateAccountsTable fun _ => .pure rfl
  obtain ⟨acc, prev, new⟩ := data
  have hadd (info : ℕ) : Selects win (do
      AdditionalInfo.setOwner info (some acc)
      let _ ← InfosController.add info (← accountType acc)
      AdminWindow.updateAccountsTable
      return win) :=
    .bind (does_setRef _ _ _) fun _ => .views (views_accountType _) fun t =>
      .bind (does_infosAdd trivial trivial trivial info t) fun _ => hrest
  cases prev with
  | none =>
    cases new with
    | none => exact hrest
    | some info => exact hadd info
  | some prev =>
    refine .views (views_fromDB prev) fun _ => .bind (does_delete trivial _) fun _ => ?_
    cases new with
    | none => exact hrest
    | some info => exact hadd info

theorem selects_addNewGroup : Selects win win.addNewGroup := by
  refine .bind (does_new (.group win.groupNameEdit)) fun grp => ?_
  have hrest : Selects win (do win.updateGroupsScrean (← Controller.add .groups grp)) :=
    .bind (does_add (by simp) trivial grp) fun r => selects_updateGroupsScrean win win r
  refine .ite (.views (views_curatorAt win) fun cur => ?_) hrest
  cases win.group with
  | none => exact .fault _
  | some group => exact .bind (does_setRef _ _ _) fun _ => hrest

theorem selects_deleteGroup : Selects win win.deleteGroup := by
  unfold AdminWindow.deleteGroup
  cases win.group with
  | none => exact selects_updateGroupsScrean _ _ _
  | some group =>
    exact .views (views_fromDB group) fun b => .bind (does_delete trivial _) fun _ => selects_updateGroupsScrean _ _ _

theorem selects_updateGroup : Selects win win.updateGroup := by
  unfold AdminWindow.updateGroup
  cases win.group with
  | none => exact selects_updateGroupsScrean _ _ _
  | some group =>
    refine .bind (does_assignScalar _ _) fun _ => .ite ?_ ?_
    · exact .views (views_curatorAt win) fun cur => .bind (does_setRef _ _ _) fun _ => selects_updateGroupsScrean _ _ _
    · exact .bind (does_setRef _ _ _) fun _ => selects_updateGroupsScrean _ _ _

theorem selects_addAccToGroup (acc : ℕ) : Selects win (win.addAccToGroup acc) := by
  unfold AdminWindow.addAccToGroup
  cases win.group with
  | none => exact .pure rfl
  | some group =>
    refine .views (views_getStudents group) fun studs => .views (views_hasAccount acc studs) fun b => .ite (.pure rfl) ?_
    exact .views (views_studentInfoOf acc) fun stud => .bind (does_addStudent trivial trivial group stud) fun _ =>
      selects_updateGroupsScrean _ _ _

theorem selects_deleteAccFromGroup (acc : ℕ) : Selects win (win.deleteAccFromGroup acc) := by
  unfold AdminWindow.deleteAccFromGroup
  cases win.group with
  | none => exact selects_updateGroupsScrean _ _ _
  | some group =>
    exact .views (views_studentInfoOf acc) fun stud => .bind (does_deleteStudent trivial trivial group stud) fun _ =>
      selects_updateGroupsScrean _ _ _

theorem selects_setAccToSchedule (acc : ℕ) : Selects win (win.setAccToSchedule acc) :=
  .views (views_getAdditionalInfo acc) fun _ => .views (views_cast _ _) fun _ =>
    .views (views_getAdditionalInfo acc) fun _ => .views (views_cast _ _) fun _ =>
      .views (views_getLessonsTypes _) fun _ => selects_updateScheduleScrean rfl none

theorem selects_addSchedule (str : String) (rowIndex : Int32) : Selects win (win.addSchedule str rowIndex) := by
  refine .views (views_usable _) fun _ => .ite (.pure rfl) (.views (views_usable _) fun _ => .ite (.pure rfl) ?_)
  exact .bind (does_new (.schedule win.selectedDate str rowIndex)) fun write => .bind (does_setRef _ _ _) fun _ =>
    .bind (does_setRef _ _ _) fun _ => .bind (does_add (by simp) trivial write) fun _ =>
      selects_updateScheduleScrean rfl none

theorem selects_deleteSchedule (acc : Option ℕ) : Selects win (win.deleteSchedule acc) := by
  cases acc with
  | none => exact .pure rfl
  | some acc =>
    exact .views (views_fromDB acc) fun _ => .bind (does_delete trivial _) fun _ => selects_updateScheduleScrean rfl none

theorem selects_slot (s : Slot) : Selects win (s.cmd win) := by
  cases s with
  | setAccountToDisplayWidget acc => exact selects_setAccountToDisplayWidget acc
  | setGroup grp => exact selects_setGroup win win grp
  | setGroupSch grp => exact selects_updateScheduleScrean rfl grp
  | setAccToSchedule acc => exact selects_setAccToSchedule acc
  | dataChanged date => exact selects_updateScheduleScrean rfl none
  | addNewAccount => exact selects_addNewAccount
  | deleteAccount => exact selects_deleteAccount
  | updateAccount => exact selects_updateAccount
  | addNewGroup => exact selects_addNewGroup
  | deleteGroup => exact selects_deleteGroup
  | updateGroup => exact selects_updateGroup
  | addClass text => exact .bind (does_addClass (K := fun _ => True) trivial _ _) fun _ => .pure rfl
  | deleteClass text => exact .bind (does_deleteClass (K := fun _ => True) trivial _ _) fun _ => .pure rfl
  | addAccToGroup acc => exact selects_addAccToGroup acc
  | deleteAccFromGroup acc => exact selects_deleteAccFromGroup acc
  | addSchedule str rowIndex => exact selects_addSchedule str rowIndex
  | deleteSchedule acc => exact selects_deleteSchedule acc
  | updateGroupsScrean => exact selects_updateGroupsScrean win win none
  | updateScheduleScrean => exact selects_updateScheduleScrean rfl none

theorem selects_input (i : Input) : Selects win (i.cmd win) := by
  cases i with
  | type t => exact .views (views_setEditType _ t) fun _ => .pure rfl
  | _ => exact .pure rfl

/-- The remembered group is at an address that was given out. -/
def Client.GroupBelow (c : Client) : Prop := ∀ g, c.win.group = some g → g < c.world.heap.next

theorem Client.GroupBelow.start (db : Database) (date : QDate) : (Client.start db date).GroupBelow :=
  fun g hg => by cases hg

theorem Client.GroupBelow.step {e : Event} {c c' : Client} (hlt : c.GroupBelow) (hw : Sound c.world) (hs : e.Step c c') :
    c'.GroupBelow := by
  intro g hg
  rcases acts_of_step hs with h | ⟨date, -, rfl⟩
  · have hsel : c.win.group = some g ∨ g < c'.world.heap.next := by
      cases e with
      | slot s => exact selects_slot s _ _ _ hw hs g hg
      | input i => exact selects_input i _ _ _ hw hs g hg
      | logIn state login password date => exact .inl (hs.1 ▸ hg)
      | call a => exact .inl (hs.1 ▸ hg)
      | restart date => exact (by obtain rfl := hs; cases hg)
    exact hsel.elim (fun hsame => (hlt g hsame).trans_le (h.next_le hw)) id
  · cases hg

end Cbt
