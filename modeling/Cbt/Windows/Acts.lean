import Cbt.Effects.Types
import Cbt.Windows.Screens

/-! What the windows do to the entities. Every event is a sequence of operations
on entities and of assignments to public members, and each slot writes to its own
collections only. An invariant of the operations and the assignments therefore
holds in every state a client reaches, and a collection is unchanged by the slots
that do not write to it. -/

namespace Cbt

open Lib.Command (run_bind_iff run_pure_iff)

variable {w w' : World} {K : Kind → Prop}

/-- Some public members of an object are assigned; its references are not, and no schedule is. -/
inductive Assigned (w : World) : World → Prop
  | mk {p : ℕ} {o : Obj} {x : Fields} (ho : w.heap.get p = some o) (hk : o.fields.kind ≠ .schedules) (hc : x.cls = o.fields.cls)
      (hf : ∀ f, x.ref f = o.fields.ref f) (hr : x.refs = o.fields.refs) :
      Assigned w (w.put p { o with fields := x })

/-- The collections an operation may write to. -/
def Action.writes : Action → Kind → Prop
  | .add .infos _ _, k => k = .infos ∨ k = .accounts ∨ k = .groups
  | .add k' _ _, k => k = k'
  | .delete k' _, k => k = k'
  | .update k' _, k => k = k'
  | .addStudent _ _, k => k = .groups ∨ k = .infos
  | .deleteStudent _ _, k => k = .groups ∨ k = .infos
  | _, _ => False

/-- One operation that writes to collections of `K` only, or one assignment. -/
inductive Deed (K : Kind → Prop) (w w' : World) : Prop
  | act (a : Action) (ha : ∀ k, a.writes k → K k) (h : a.Step w w')
  | assigned (h : Assigned w w')

abbrev Acts (K : Kind → Prop) : World → World → Prop := Relation.ReflTransGen (Deed K)

/-- Every run is a sequence of such operations and assignments. -/
abbrev Does (K : Kind → Prop) {α : Type} (m : Cmd α) : Prop := Lib.Command.Keeps Database.serve (Acts K) m

theorem Action.Idle.writes {a : Action} (ha : a.Idle) (k : Kind) : ¬ a.writes k := by
  intro h
  cases a <;> first | exact ha | exact h

namespace Does

variable {α β : Type} {m : Cmd α}

theorem of_views (hm : Views m) : Does K m := by
  intro w a w' h
  have hq := hm _ _ _ h
  clear h
  induction hq with
  | refl => exact .refl
  | tail _ h ih =>
    obtain ⟨b, hb, -, hs⟩ := h
    exact ih.tail (.act b (fun k hk => (hb.writes k hk).elim) hs)

theorem pure (a : α) : Does K (Pure.pure a : Cmd α) := Lib.Command.Keeps.pure (fun _ => .refl) a

theorem fault (e : Fault) : Does K (Lib.Command.fault e : Cmd α) := Lib.Command.Keeps.fault e

theorem bind {f : α → Cmd β} (hm : Does K m) (hf : ∀ a, Does K (f a)) : Does K (m >>= f) :=
  Lib.Command.Keeps.bind (fun h h' => h.trans h') hm hf

theorem ite {c : Prop} [Decidable c] {m m' : Cmd α} (hm : Does K m) (hm' : Does K m') :
    Does K (if c then m else m') := by
  split_ifs
  · exact hm
  · exact hm'

end Does

theorem Action.Runs.does {α : Type} {a : Action} {m : Cmd α} (ha : a.Runs m) (hK : ∀ k, a.writes k → K k) : Does K m :=
  fun _ _ _ h => .single (.act a hK (ha.step h))

/-! ### The operations the windows use -/

theorem does_add {k : Kind} (hk : k ≠ .infos) (hK : K k) (e : ℕ) : Does K (Controller.add k e) := by
  refine Action.Runs.does (a := .add k e .admin) ?_ ?_
  · unfold Action.Runs
    simp only [Action.cmd, add, if_neg hk]
  · intro k' h
    cases k <;> first | exact (hk rfl).elim | (obtain rfl := h; exact hK)

theorem does_infosAdd (hi : K .infos) (ha : K .accounts) (hg : K .groups) (e : ℕ) (t : AccountType) :
    Does K (InfosController.add e t) := by
  refine Action.Runs.does (a := .add .infos e t) rfl ?_
  rintro k (rfl | rfl | rfl)
  · exact hi
  · exact ha
  · exact hg

theorem does_delete {k : Kind} (hK : K k) (oid : Oid) : Does K (Controller.delete k oid) := by
  refine Action.Runs.does (a := .delete k oid) rfl ?_
  rintro k' rfl
  exact hK

theorem does_update {k : Kind} (hK : K k) (el : ℕ) : Does K (Controller.update k el) := by
  refine Action.Runs.does (a := .update k el) rfl ?_
  rintro k' rfl
  exact hK

theorem does_addStudent (hg : K .groups) (hi : K .infos) (grp : ℕ) (stud : Option ℕ) :
    Does K (GroupDB.addStudent grp stud) := by
  cases stud with
  | none => exact .fault _
  | some s =>
    refine Action.Runs.does (a := .addStudent grp s) rfl ?_
    rintro k (rfl | rfl)
    · exact hg
    · exact hi

theorem does_deleteStudent (hg : K .groups) (hi : K .infos) (grp : ℕ) (stud : Option ℕ) :
    Does K (GroupDB.deleteStudent grp stud) := by
  cases stud with
  | some s =>
    refine Action.Runs.does (a := .deleteStudent grp s) rfl ?_
    rintro k (rfl | rfl)
    · exact hg
    · exact hi
  | none =>
    refine .bind (.of_views (views_groupOf grp)) fun g => ?_
    cases g.students with
    | nil => exact .pure _
    | cons p ps => exact .fault _

theorem does_setRef (f : RefField) (this : ℕ) (v : Option ℕ) : Does K (setRef f this v) := by
  refine Action.Runs.does (a := .setRef f this v) ?_ fun _ h => h.elim
  unfold Action.Runs
  exact (bind_pure (setRef f this v)).symm

theorem does_new (x : New) : Does K (newObj ⟨none, x.fields⟩) := Action.Runs.does (a := .new x) rfl fun _ h => h.elim

theorem does_assignScalar (s : Scalar) (this : ℕ) : Does K (assignScalar s this) := by
  intro w u w' h
  simp only [assignScalar, run_bind_iff, run_obj_iff] at h
  obtain ⟨o, _, ⟨ho, rfl⟩, h⟩ := h
  cases hx : s.set o.fields with
  | none =>
    rw [hx] at h
    exact ((Lib.Command.run_fault_iff _).mp h).elim
  | some x =>
    rw [hx] at h
    obtain rfl := run_setObj_iff.mp h
    refine .single (.assigned (.mk ho ?_ ?_ ?_ ?_)) <;>
      cases s <;> cases hf : o.fields <;> simp only [Scalar.set, hf, Option.some.injEq, reduceCtorEq] at hx <;>
        subst hx <;> first | rfl | (intro f; cases f <;> rfl)

theorem does_assignAccount (acc : ℕ) (login password : String) (type : AccountType) :
    Does K (DisplayAccountWidget.assignAccount acc login password type) := by
  intro w u w' h
  simp only [DisplayAccountWidget.assignAccount, run_bind_iff, run_obj_iff] at h
  obtain ⟨o, _, ⟨ho, rfl⟩, h⟩ := h
  split at h
  · rename_i a ha
    obtain rfl := run_setObj_iff.mp h
    refine .single (.assigned (.mk ho ?_ ?_ ?_ ?_))
    · simp [ha, Fields.kind]
    · rw [ha]
      rfl
    · intro f
      rw [ha]
      cases f <;> rfl
    · rw [ha]
      rfl
  · exact ((Lib.Command.run_fault_iff _).mp h).elim

/-! ### Groups -/

section Slots
variable (win : AdminWindow)

theorem views_curatorAt : Views win.curatorAt := by
  unfold AdminWindow.curatorAt
  split
  · exact .fault _
  · exact .pure _

theorem does_addNewGroup (hg : K .groups) : Does K win.addNewGroup := by
  refine .bind (does_new (.group win.groupNameEdit)) fun grp => ?_
  have hrest : Does K (do win.updateGroupsScrean (← Controller.add .groups grp)) :=
    .bind (does_add (by simp) hg grp) fun r => .of_views (views_updateGroupsScrean win r)
  refine .ite (.bind (.of_views (views_curatorAt win)) fun cur => ?_) hrest
  cases win.group with
  | none => exact .fault _
  | some group => exact .bind (does_setRef _ _ _) fun _ => hrest

theorem does_deleteGroup (hg : K .groups) : Does K win.deleteGroup := by
  unfold AdminWindow.deleteGroup
  cases win.group with
  | none => exact .of_views (views_updateGroupsScrean _ _)
  | some group =>
    exact .bind (.of_views (views_fromDB group)) fun b => .bind (does_delete hg _) fun _ =>
      .of_views (views_updateGroupsScrean _ _)

theorem does_updateGroup : Does K win.updateGroup := by
  unfold AdminWindow.updateGroup
  cases win.group with
  | none => exact .of_views (views_updateGroupsScrean _ _)
  | some group =>
    refine .bind (does_assignScalar _ _) fun _ => .ite ?_ ?_
    · exact .bind (.of_views (views_curatorAt win)) fun cur => .bind (does_setRef _ _ _) fun _ =>
        .of_views (views_updateGroupsScrean _ _)
    · exact .bind (does_setRef _ _ _) fun _ => .of_views (views_updateGroupsScrean _ _)

theorem views_hasAccount (acc : ℕ) (studs : List ℕ) : Views (AdminWindow.hasAccount acc studs) := by
  induction studs with
  | nil => exact .pure _
  | cons stud studs ih =>
    refine .bind (views_getStudentOwner stud) fun owner? => ?_
    cases owner? with
    | none => exact .fault _
    | some owner => exact .bind (views_fromDB owner) fun _ => .bind (views_fromDB acc) fun _ => .ite (.pure _) ih

theorem views_studentInfoOf (acc : ℕ) : Views (AdminWindow.studentInfoOf acc) :=
  .bind (views_getAdditionalInfo acc) fun _ => views_cast _ _

theorem does_addAccToGroup (hg : K .groups) (hi : K .infos) (acc : ℕ) : Does K (win.addAccToGroup acc) := by
  unfold AdminWindow.addAccToGroup
  cases win.group with
  | none => exact .pure _
  | some group =>
    refine .bind (.of_views (views_getStudents group)) fun studs =>
      .bind (.of_views (views_hasAccount acc studs)) fun b => .ite (.pure _) ?_
    exact .bind (.of_views (views_studentInfoOf acc)) fun stud => .bind (does_addStudent hg hi group stud) fun _ =>
      .of_views (views_updateGroupsScrean _ _)

theorem does_deleteAccFromGroup (hg : K .groups) (hi : K .infos) (acc : ℕ) : Does K (win.deleteAccFromGroup acc) := by
  unfold AdminWindow.deleteAccFromGroup
  cases win.group with
  | none => exact .of_views (views_updateGroupsScrean _ _)
  | some group =>
    exact .bind (.of_views (views_studentInfoOf acc)) fun stud => .bind (does_deleteStudent hg hi group stud) fun _ =>
      .of_views (views_updateGroupsScrean _ _)

/-! ### Accounts -/

theorem views_setAccountToDisplayWidget (acc : Option ℕ) : Views (win.setAccountToDisplayWidget acc) :=
  .bind (views_setAccountDB _ acc) fun _ => .pure _

theorem does_getNewAccount (form : DisplayAccountWidget) : Does K form.getNewAccount := by
  refine .bind (does_new (.account form.editLogin form.editPassword form.editType)) fun resAcc => ?_
  cases form.editType with
  | student =>
    refine .bind (does_new (.studentInfo form.editFirstName form.editSecondName (toInt form.editCurs))) fun s => ?_
    exact .bind (.of_views (views_getGroupFromEdit form)) fun _ => .ite
      (.bind (.of_views (views_getGroupFromEdit form)) fun _ => .bind (does_setRef _ _ _) fun _ => .pure _) (.pure _)
  | teacher =>
    exact .bind (does_new (.teacherInfo form.editFirstName form.editSecondName form.editFaculty)) fun _ => .pure _
  | admin => exact .pure _

theorem does_getAccountForDBUpdate (form : DisplayAccountWidget) : Does K form.getAccountForDBUpdate := by
  unfold DisplayAccountWidget.getAccountForDBUpdate
  cases form.acc with
  | none => exact .fault _
  | some acc =>
    refine .bind (does_assignAccount acc _ _ _) fun _ => .bind (.of_views (views_getAdditionalInfo acc)) fun prev => ?_
    cases form.editType with
    | student =>
      refine .bind (does_new (.studentInfo form.editFirstName form.editSecondName (toInt form.editCurs))) fun s => ?_
      exact .bind (.of_views (views_getGroupFromEdit form)) fun _ => .bind (does_setRef _ _ _) fun _ => .pure _
    | teacher =>
      exact .bind (does_new (.teacherInfo form.editFirstName form.editSecondName form.editFaculty)) fun _ => .pure _
    | admin => exact .pure _

variable (ha : K .accounts) (hi : K .infos) (hg : K .groups)
include ha hi

theorem does_deleteAccount : Does K win.deleteAccount := by
  unfold AdminWindow.deleteAccount
  cases win.accountDisp.getAccountForDelete with
  | none => exact .pure _
  | some data =>
    have hrest : Does K (do
        let _ ← Controller.delete .accounts (← fromDB data).id
        AdminWindow.updateAccountsTable
        win.setAccountToDisplayWidget none) :=
      .bind (.of_views (views_fromDB data)) fun _ => .bind (does_delete ha _) fun _ =>
        .bind (.of_views views_updateAccountsTable) fun _ => .of_views (views_setAccountToDisplayWidget win none)
    refine .bind (.of_views (views_getAdditionalInfo data)) fun _ => .ite ?_ hrest
    refine .bind (.of_views (views_getAdditionalInfo data)) fun info? => ?_
    cases info? with
    | none => exact .fault _
    | some info => exact .bind (.of_views (views_fromDB info)) fun _ => .bind (does_delete hi _) fun _ => hrest

include hg

theorem does_addNewAccount : Does K win.addNewAccount := by
  refine .bind (does_getNewAccount _) fun data => .bind (does_add (by simp) ha _) fun res => ?_
  have hrest : Does K (do
      AdminWindow.updateAccountsTable
      win.updateGroupsScrean none) :=
    .bind (.of_views views_updateAccountsTable) fun _ => .of_views (views_updateGroupsScrean win none)
  cases data.2 with
  | none => exact hrest
  | some info =>
    refine .bind (does_setRef _ _ _) fun _ => ?_
    cases res with
    | none => exact .fault _
    | some res =>
      exact .bind (.of_views (views_accountType res)) fun t => .bind (does_infosAdd hi ha hg info t) fun _ => hrest

theorem does_updateAccount : Does K win.updateAccount := by
  refine .bind (does_getAccountForDBUpdate _) fun data => .bind (does_update ha _) fun _ => ?_
  have hrest : Does K (do
      AdminWindow.updateAccountsTable
      return win) := .bind (.of_views views_updateAccountsTable) fun _ => .pure _
  obtain ⟨acc, prev, new⟩ := data
  have hadd (info : ℕ) : Does K (do
      AdditionalInfo.setOwner info (some acc)
      let _ ← InfosController.add info (← accountType acc)
      AdminWindow.updateAccountsTable
      return win) :=
    .bind (does_setRef _ _ _) fun _ => .bind (.of_views (views_accountType _)) fun t =>
      .bind (does_infosAdd hi ha hg info t) fun _ => hrest
  cases prev with
  | none =>
    cases new with
    | none => exact hrest
    | some info => exact hadd info
  | some prev =>
    refine .bind (.of_views (views_fromDB prev)) fun _ => .bind (does_delete hi _) fun _ => ?_
    cases new with
    | none => exact hrest
    | some info => exact hadd info

omit ha hi hg

/-! ### Schedules and lessons -/

theorem does_addClass (hi : K .infos) (teacher : Option ℕ) (text : String) : Does K (AdminWindow.addClass teacher text) := by
  cases teacher with
  | none => exact .pure _
  | some this =>
    exact .ite (.pure _) (.bind (.of_views (views_teacherOf this)) fun _ => .bind (does_assignScalar _ _) fun _ =>
      .bind (does_update hi _) fun _ => .bind (.of_views (views_getLessonsTypes _)) fun _ => .pure _)

theorem does_deleteClass (hi : K .infos) (teacher : Option ℕ) (text : String) :
    Does K (AdminWindow.deleteClass teacher text) := by
  cases teacher with
  | none => exact .pure _
  | some this =>
    exact .ite (.pure _) (.bind (.of_views (views_teacherOf this)) fun _ => .ite (.pure _)
      (.bind (does_assignScalar _ _) fun _ => .bind (does_update hi _) fun _ =>
        .bind (.of_views (views_getLessonsTypes _)) fun _ => .pure _))

theorem views_usable (p : Option ℕ) : Views (AdminWindow.usable p) := by
  cases p with
  | none => exact .pure _
  | some p => exact .bind (views_fromDB p) fun _ => .pure _

theorem views_setAccToSchedule (acc : ℕ) : Views (win.setAccToSchedule acc) :=
  .bind (views_getAdditionalInfo acc) fun _ => .bind (views_cast _ _) fun _ =>
    .bind (views_getAdditionalInfo acc) fun _ => .bind (views_cast _ _) fun _ =>
      .bind (views_getLessonsTypes _) fun _ => views_updateScheduleScrean _ _

theorem does_addSchedule (hs : K .schedules) (str : String) (rowIndex : Int32) : Does K (win.addSchedule str rowIndex) := by
  refine .bind (.of_views (views_usable _)) fun _ => .ite (.pure _) ?_
  refine .bind (.of_views (views_usable _)) fun _ => .ite (.pure _) ?_
  refine .bind (does_new (.schedule win.selectedDate str rowIndex)) fun write => ?_
  exact .bind (does_setRef _ _ _) fun _ => .bind (does_setRef _ _ _) fun _ =>
    .bind (does_add (by simp) hs write) fun _ => .of_views (views_updateScheduleScrean _ _)

theorem does_deleteSchedule (hs : K .schedules) (acc : Option ℕ) : Does K (win.deleteSchedule acc) := by
  cases acc with
  | none => exact .pure _
  | some acc =>
    exact .bind (.of_views (views_fromDB acc)) fun _ => .bind (does_delete hs _) fun _ =>
      .of_views (views_updateScheduleScrean _ _)

end Slots

/-! ### Events -/

/-- The collections a slot may write to. -/
def Slot.writes : Slot → Kind → Prop
  | .addNewAccount, k | .updateAccount, k => k ≠ .schedules
  | .deleteAccount, k => k = .accounts ∨ k = .infos
  | .addNewGroup, k | .deleteGroup, k => k = .groups
  | .addClass _, k | .deleteClass _, k => k = .infos
  | .addAccToGroup _, k | .deleteAccFromGroup _, k => k = .groups ∨ k = .infos
  | .addSchedule _ _, k | .deleteSchedule _, k => k = .schedules
  | _, _ => False

theorem does_slot (s : Slot) (win : AdminWindow) : Does s.writes (s.cmd win) := by
  cases s with
  | setAccountToDisplayWidget acc => exact .of_views (views_setAccountToDisplayWidget win acc)
  | setGroup grp => exact .of_views (views_setGroup win grp)
  | setGroupSch grp => exact .of_views (views_updateScheduleScrean win grp)
  | setAccToSchedule acc => exact .of_views (views_setAccToSchedule win acc)
  | dataChanged date => exact .of_views (views_updateScheduleScrean _ none)
  | addNewAccount => exact does_addNewAccount win (by simp [Slot.writes]) (by simp [Slot.writes]) (by simp [Slot.writes])
  | deleteAccount => exact does_deleteAccount win (.inl rfl) (.inr rfl)
  | updateAccount => exact does_updateAccount win (by simp [Slot.writes]) (by simp [Slot.writes]) (by simp [Slot.writes])
  | addNewGroup => exact does_addNewGroup win rfl
  | deleteGroup => exact does_deleteGroup win rfl
  | updateGroup => exact does_updateGroup win
  | addClass text => exact .bind (does_addClass (K := (· = Kind.infos)) rfl _ _) fun _ => .pure _
  | deleteClass text => exact .bind (does_deleteClass (K := (· = Kind.infos)) rfl _ _) fun _ => .pure _
  | addAccToGroup acc => exact does_addAccToGroup win (.inl rfl) (.inr rfl) acc
  | deleteAccFromGroup acc => exact does_deleteAccFromGroup win (.inl rfl) (.inr rfl) acc
  | addSchedule str rowIndex => exact does_addSchedule (K := (· = Kind.schedules)) win rfl str rowIndex
  | deleteSchedule acc => exact does_deleteSchedule (K := (· = Kind.schedules)) win rfl acc
  | updateGroupsScrean => exact .of_views (views_updateGroupsScrean win none)
  | updateScheduleScrean => exact .of_views (views_updateScheduleScrean win none)

theorem views_input (i : Input) (win : AdminWindow) : Views (i.cmd win) := by
  cases i with
  | type t => exact .bind (views_setEditType _ t) fun _ => .pure _
  | _ => exact .pure _

theorem views_updateWindow (win : StudentWindow) : Views win.updateWindow := by
  unfold StudentWindow.updateWindow
  cases win.acc with
  | none => exact .fault _
  | some acc =>
    exact .bind (views_getAdditionalInfo acc) fun _ => .bind (views_castDeref _ _) fun stud =>
      .bind (views_getStudentGroup stud) fun _ => .bind (views_getAllSchedulesinDate _ _) fun _ => views_setSchedules _

theorem views_setAccAndFill (win : StudentWindow) (acc : ℕ) : Views (win.setAccAndFill acc) := by
  refine .bind (views_updateWindow _) fun _ => .bind (views_accountOf acc) fun _ =>
    .bind (views_getAdditionalInfo acc) fun _ => .bind (views_cast _ _) fun addInf? => ?_
  cases addInf? with
  | none => exact .pure _
  | some addInf =>
    refine .bind (views_studentOf addInf) fun _ => .bind (views_getStudentGroup addInf) fun grp? => ?_
    cases grp? with
    | none => exact .pure _
    | some grp => exact .bind (views_groupOf grp) fun _ => .pure _

theorem still_isAccountExist (l : LogPass) : Still (AccountsController.isAccountExist l) := by
  intro w r w' h
  simp only [AccountsController.isAccountExist, run_bind_iff, run_findOne_iff, run_pure_iff] at h
  obtain ⟨_, _, ⟨-, rfl⟩, -, rfl⟩ := h
  rfl

/-- A log-in stores nothing; a sign-up stores an account. -/
theorem does_logIn (state : StartWindow.State) (ha : state = .signup → K .accounts) (wStud : StudentWindow)
    (login password : String) : Does K (StartWindow.logIn state wStud login password) := by
  cases state with
  | login =>
    refine .bind (.of_views (.still (still_isAccountExist _))) fun _ => .ite (.pure _) ?_
    refine .bind (Action.Runs.does (a := .findFullAccount ⟨login, password⟩) rfl fun _ h => h.elim) fun fullAcc =>
      .bind (.of_views (views_accountType fullAcc)) fun t => ?_
    cases t with
    | admin => exact .pure _
    | student => exact .bind (.of_views (views_setAccAndFill wStud fullAcc)) fun _ => .pure _
    | teacher => exact .bind (.of_views (views_setAccAndFill wStud fullAcc)) fun _ => .pure _
  | signup =>
    refine .bind (.of_views (.still (still_isAccountExist _))) fun _ => .ite (.pure _) ?_
    exact .bind (does_new (.account login password .student)) fun ac =>
      .bind (does_add (by simp) (ha rfl) ac) fun _ => .pure _

/-- The collections an event may write to. -/
def Event.writes : Event → Kind → Prop
  | .slot s, k => s.writes k
  | .logIn .signup _ _ _, k => k = .accounts
  | .call a, k => a.writes k
  | _, _ => False

/-- An event is a sequence of operations and assignments, or the start of a process. -/
theorem acts_of_step {e : Event} {c c' : Client} (h : e.Step c c') :
    Acts e.writes c.world c'.world ∨ ∃ date, e = .restart date ∧ c' = Client.start c.world.env date := by
  cases e with
  | slot s => exact .inl (does_slot s c.win _ _ _ h)
  | input i => exact .inl (Does.of_views (views_input i c.win) _ _ _ h)
  | logIn state login password date =>
    obtain ⟨-, o, h⟩ := h
    refine .inl (does_logIn state ?_ _ login password _ _ _ h)
    rintro rfl
    rfl
  | call a => exact .inl (.single (.act a (fun _ hk => hk) h.2))
  | restart date => exact .inr ⟨date, rfl, h⟩

/-! ### Invariants -/

/-- What operations and assignments keep, sequences of them keep. -/
theorem Acts.invariant {I : World → Prop} (hact : ∀ (a : Action) w w', (∀ k, a.writes k → K k) → a.Step w w' → I w → I w')
    (hassign : ∀ w w', Assigned w w' → I w → I w') (h : Acts K w w') (hw : I w) : I w' := by
  induction h with
  | refl => exact hw
  | tail _ h ih =>
    cases h with
    | act a ha h => exact hact a _ _ ha h ih
    | assigned h => exact hassign _ _ h ih

theorem Assigned.sound (h : Assigned w w') (hw : Sound w) : Sound w' := by
  cases h with
  | @mk p o x ho hk hc hf hr =>
    refine ⟨fun k q hq => ?_, hw.nodup⟩
    obtain ⟨b, y, hg, hb, hky⟩ := hw.entry k q hq
    by_cases hqp : q = p
    · subst hqp
      obtain rfl := Option.some.inj (ho.symm.trans hg)
      exact ⟨b, x, by rw [Lib.Conf.get_put ho, if_pos rfl], hb, (Fields.kind_of_cls hc).trans hky⟩
    · exact ⟨b, y, by rw [Lib.Conf.get_put ho, if_neg hqp, hg], hb, hky⟩

theorem Acts.sound (h : Acts K w w') (hw : Sound w) : Sound w' :=
  h.invariant (I := Sound) (fun _ _ _ _ hs hw => (outcome_of_step hw hs).sound hw) (fun _ _ h => h.sound) hw

/-- The caches are sound in every state a client reaches. -/
theorem Client.Reachable.sound {c : Client} (hc : c.Reachable) : Sound c.world := by
  obtain ⟨db, date, es, hr⟩ := hc
  refine hr.invariant (I := fun c => Sound c.world) (sound_start db) ?_
  intro e c c' hw _ hs
  rcases acts_of_step hs with h | ⟨date, -, rfl⟩
  · exact h.sound hw
  · exact sound_start _

/-- An assignment to a public member keeps the class and the pointers. -/
theorem Assigned.wellTyped {Γ : Classes} (h : Assigned w w') (hw : WellTyped Γ w) : WellTyped Γ w' := by
  cases h with
  | @mk p o x ho hk hc hf hr =>
    refine hw.put ho hc (fun f q hq => .inl ((hf f).symm.trans hq)) fun g hg q hq => .inl ?_
    obtain ⟨c, y⟩ := o
    obtain rfl : x = .group g := hg
    cases y <;> cases hc
    rename_i g₀
    refine ⟨g₀, rfl, ?_⟩
    have hcur : g.curator = g₀.curator := by simpa [Fields.ref] using hf .curator
    simp only [Fields.refs, hcur, List.append_cancel_left_eq] at hr
    exact hr ▸ hq

/-- Every pointer has its declared type in every state a client reaches. -/
theorem Client.Reachable.wellTyped {c : Client} (hc : c.Reachable) : ∃ Γ, WellTyped Γ c.world := by
  obtain ⟨db, date, es, hr⟩ := hc
  refine hr.invariant (I := fun c => ∃ Γ, WellTyped Γ c.world) ⟨_, wellTyped_start db⟩ ?_
  intro e c c' hw _ hs
  rcases acts_of_step hs with h | ⟨date, -, rfl⟩
  · refine h.invariant (I := fun w => ∃ Γ, WellTyped Γ w) (fun _ _ _ _ hs hw => wellTyped_step hs hw) ?_ hw
    exact fun _ _ h ⟨Γ, hw⟩ => ⟨Γ, h.wellTyped hw⟩
  · exact ⟨_, wellTyped_start _⟩

end Cbt
