import Cbt.Windows.Acts

/-! What the commands of the windows are composed of. The form of a command says more than
its runs do: between any two operations of a slot another client may do something, and
the slot is still the same sequence of operations. A property of commands that has a rule
for each construct and each operation is a property of every slot. -/

namespace Cbt

variable {α β : Type} {K : Kind → Prop} {S : RefField → Prop}

/-- Some public members of an object are assigned. -/
def amend (this : ℕ) (f : Fields → Option Fields) : Cmd Unit := do
  let o ← obj this
  match f o.fields with
  | none => Lib.Command.fault .badClass
  | some x => setObj this { o with fields := x }

/-- An assignment that leaves the references alone, and every schedule. -/
def Amends (f : Fields → Option Fields) : Prop :=
  ∀ x y, f x = some y → x.kind ≠ .schedules ∧ y.cls = x.cls ∧ (∀ r, y.ref r = x.ref r) ∧ y.refs = x.refs

/-- The member an operation sets. -/
def Action.sets : Action → RefField → Prop
  | .setRef f _ _, f' => f' = f
  | _, _ => False

theorem Action.Idle.sets {a : Action} (ha : a.Idle) (f : RefField) : ¬ a.sets f := by
  intro h
  cases a <;> first | exact ha | exact h

/-- A command composed of operations that write to collections of `K` only, of setters of members of `S`, of reads and
of assignments. -/
inductive Composed (K : Kind → Prop) (S : RefField → Prop) : {α : Type} → Cmd α → Prop
  | pure {α : Type} (a : α) : Composed K S (Pure.pure a : Cmd α)
  | fault {α : Type} (e : Fault) : Composed K S (Lib.Command.fault e : Cmd α)
  | bind {α β : Type} {m : Cmd α} {f : α → Cmd β} (hm : Composed K S m) (hf : ∀ a, Composed K S (f a)) :
    Composed K S (m >>= f)
  | obj (p : ℕ) : Composed K S (obj p)
  | fromDB (p : ℕ) : Composed K S (fromDB p)
  | findOne (k : Kind) (filter : Doc) : Composed K S (findOne k filter)
  | amend (p : ℕ) {f : Fields → Option Fields} (hf : Amends f) : Composed K S (amend p f)
  | act {α : Type} {a : Action} {m : Cmd α} (ha : a.Runs m) (hK : ∀ k, a.writes k → K k) (hS : ∀ f, a.sets f → S f) :
    Composed K S m

namespace Composed

theorem ite {c : Prop} [Decidable c] {m m' : Cmd α} (hm : Composed K S m) (hm' : Composed K S m') :
    Composed K S (if c then m else m') := by
  split_ifs
  · exact hm
  · exact hm'

theorem mono {K' : Kind → Prop} {S' : RefField → Prop} (hK : ∀ k, K k → K' k) (hS : ∀ f, S f → S' f) {m : Cmd α}
    (h : Composed K S m) : Composed K' S' m := by
  induction h with
  | pure a => exact .pure a
  | fault e => exact .fault e
  | bind _ _ ihm ihf => exact .bind ihm ihf
  | obj p => exact .obj p
  | fromDB p => exact .fromDB p
  | findOne k filter => exact .findOne k filter
  | amend p hf => exact .amend p hf
  | act ha h hs => exact .act ha (fun k hk => hK k (h k hk)) fun f hf => hS f (hs f hf)

theorem asks {a : Action} {m : Cmd α} (ha : a.Runs m) (hi : a.Idle) : Composed K S m :=
  .act ha (fun k hk => (hi.writes k hk).elim) fun f hf => (hi.sets f hf).elim

end Composed

/-! ### The operations the windows use -/

theorem composed_getAdditionalInfo (acc : ℕ) : Composed K S (AccountDB.getAdditionalInfo acc) :=
  .asks (a := .get .getAdditionalInfo acc) rfl trivial

theorem composed_getStudentGroup (stud : ℕ) : Composed K S (StudentInfoDB.getGroup stud) :=
  .asks (a := .get .getStudentGroup stud) rfl trivial

theorem composed_getStudentOwner (stud : ℕ) : Composed K S (StudentInfoDB.getOwner stud) :=
  .asks (a := .get .getStudentOwner stud) rfl trivial

theorem composed_getCurator (grp : ℕ) : Composed K S (GroupDB.getCurator grp) :=
  .asks (a := .get .getCurator grp) rfl trivial

theorem composed_getStudents (grp : ℕ) : Composed K S (GroupDB.getStudents grp) := .asks (a := .getStudents grp) rfl trivial

theorem composed_getAll (k : Kind) : Composed K S (Controller.getAll k) := .asks (a := .getAll k) rfl trivial

theorem composed_getAllSchedulesinDate (date : Int32) (group : Pointer) :
    Composed K S (ScheduleController.getAllSchedulesinDate date group) := by
  cases group with
  | «to» p => exact .asks (a := .getAllSchedulesinDate date p) rfl trivial
  | uninit => exact .fault _
  | null => exact .fault _

theorem composed_add {k : Kind} (hk : k ≠ .infos) (hK : K k) (e : ℕ) : Composed K S (Controller.add k e) := by
  refine .act (a := .add k e .admin) ?_ ?_ fun _ h => h.elim
  · unfold Action.Runs
    simp only [Action.cmd, add, if_neg hk]
  · intro k' h
    cases k <;> first | exact (hk rfl).elim | (obtain rfl := h; exact hK)

theorem composed_infosAdd (hi : K .infos) (ha : K .accounts) (hg : K .groups) (e : ℕ) (t : AccountType) :
    Composed K S (InfosController.add e t) := by
  refine .act (a := .add .infos e t) rfl ?_ fun _ h => h.elim
  rintro k (rfl | rfl | rfl)
  · exact hi
  · exact ha
  · exact hg

theorem composed_delete {k : Kind} (hK : K k) (oid : Oid) : Composed K S (Controller.delete k oid) := by
  refine .act (a := .delete k oid) rfl ?_ fun _ h => h.elim
  rintro k' rfl
  exact hK

theorem composed_update {k : Kind} (hK : K k) (el : ℕ) : Composed K S (Controller.update k el) := by
  refine .act (a := .update k el) rfl ?_ fun _ h => h.elim
  rintro k' rfl
  exact hK

theorem composed_setRef {f : RefField} (hf : S f) (this : ℕ) (v : Option ℕ) : Composed K S (setRef f this v) := by
  refine .act (a := .setRef f this v) (bind_pure (setRef f this v)).symm (fun _ h => h.elim) ?_
  rintro f' rfl
  exact hf

theorem composed_new (x : New) : Composed K S (newObj ⟨none, x.fields⟩) :=
  .act (a := .new x) rfl (fun _ h => h.elim) fun _ h => h.elim

theorem amends_scalar (s : Scalar) : Amends s.set := by
  intro x y hy
  cases s <;> cases x <;> simp only [Scalar.set, Option.some.injEq, reduceCtorEq] at hy <;> subst hy <;>
    exact ⟨by simp [Fields.kind], rfl, fun r => by cases r <;> rfl, rfl⟩

theorem composed_assignScalar (s : Scalar) (this : ℕ) : Composed K S (assignScalar s this) := .amend this (amends_scalar s)

/-- The assignments of `getAccountForDBUpdate` to an account. -/
def withAccount (login password : String) (type : AccountType) : Fields → Option Fields
  | .account a => some (.account { a with login := login, password := password, accountType := type })
  | _ => none

theorem composed_assignAccount (acc : ℕ) (login password : String) (type : AccountType) :
    Composed K S (DisplayAccountWidget.assignAccount acc login password type) := by
  have he : DisplayAccountWidget.assignAccount acc login password type = amend acc (withAccount login password type) := by
    unfold DisplayAccountWidget.assignAccount amend
    congr 1
    funext o
    cases o.fields <;> rfl
  rw [he]
  refine .amend acc fun x y hy => ?_
  cases x <;> simp only [withAccount, Option.some.injEq, reduceCtorEq] at hy
  subst hy
  exact ⟨by simp [Fields.kind], rfl, fun r => by cases r <;> rfl, rfl⟩

/-! ### Reads -/

theorem composed_groupOf (p : ℕ) : Composed K S (groupOf p) :=
  .bind (.obj p) fun o => by cases o.fields <;> first | exact .pure _ | exact .fault _

theorem composed_accountType (p : ℕ) : Composed K S (accountType p) :=
  .bind (.obj p) fun o => by cases o.fields <;> first | exact .pure _ | exact .fault _

theorem composed_accountOf (p : ℕ) : Composed K S (accountOf p) :=
  .bind (.obj p) fun o => by cases o.fields <;> first | exact .pure _ | exact .fault _

theorem composed_studentOf (p : ℕ) : Composed K S (studentOf p) :=
  .bind (.obj p) fun o => by cases o.fields <;> first | exact .pure _ | exact .fault _

theorem composed_teacherOf (p : ℕ) : Composed K S (teacherOf p) :=
  .bind (.obj p) fun o => by cases o.fields <;> first | exact .pure _ | exact .fault _

theorem composed_scheduleOf (p : ℕ) : Composed K S (scheduleOf p) :=
  .bind (.obj p) fun o => by cases o.fields <;> first | exact .pure _ | exact .fault _

theorem composed_cast (isClass : Fields → Bool) (r : Option ℕ) : Composed K S (cast isClass r) := by
  cases r with
  | none => exact .pure _
  | some p => exact .bind (.obj p) fun _ => .pure _

theorem composed_castDeref (isClass : Fields → Bool) (p : Option ℕ) : Composed K S (castDeref isClass p) :=
  .bind (composed_cast _ _) fun r => by cases r <;> first | exact .pure _ | exact .fault _

/-! ### Tables -/

theorem composed_row (acc : ℕ) : Composed K S (AccountsTable.row acc) := by
  refine .bind (composed_getAdditionalInfo acc) fun info => .bind (composed_accountType acc) fun t => ?_
  cases t with
  | student => exact .bind (composed_castDeref _ _) fun p => .bind (composed_studentOf p) fun _ => .pure _
  | teacher => exact .bind (composed_castDeref _ _) fun p => .bind (composed_teacherOf p) fun _ => .pure _
  | admin => exact .bind (.fromDB acc) fun _ => .pure _

theorem composed_updateTable (accs : List (Option ℕ)) : Composed K S (AccountsTable.updateTable accs) := by
  induction accs with
  | nil => exact .pure _
  | cons acc accs ih =>
    cases acc with
    | none => exact ih
    | some acc => exact .bind (composed_row acc) fun _ => .bind ih fun _ => .pure _

theorem composed_ungrouped (accs : List ℕ) : Composed K S (UngroupedAccountsTable.ungrouped accs) := by
  induction accs with
  | nil => exact .pure _
  | cons acc accs ih =>
    refine .bind (composed_getAdditionalInfo acc) fun info => .bind (composed_cast _ _) fun stud? => ?_
    cases stud? with
    | none => exact ih
    | some stud => exact .bind (composed_getStudentGroup stud) fun _ => .ite (.bind ih fun _ => .pure _) ih

theorem composed_owners (infos : List ℕ) : Composed K S (GroupedAccountsTable.owners infos) := by
  induction infos with
  | nil => exact .pure _
  | cons info infos ih => exact .bind (composed_getStudentOwner info) fun _ => .bind ih fun _ => .pure _

theorem composed_groupedAccounts (grp : Option ℕ) : Composed K S (GroupedAccountsTable.getAccounts grp) := by
  cases grp with
  | none => exact .pure _
  | some g => exact .bind (.fromDB g) fun _ => .ite (.pure _) (.bind (composed_getStudents g) composed_owners)

theorem composed_ungroupedAccounts : Composed K S UngroupedAccountsTable.getAccounts :=
  .bind (composed_getAll _) composed_ungrouped

theorem composed_groupNames (grps : List ℕ) : Composed K S (groupNames grps) := by
  induction grps with
  | nil => exact .pure _
  | cons grp grps ih => exact .bind (composed_groupOf grp) fun _ => .bind ih fun _ => .pure _

theorem composed_groupsTable : Composed K S GroupsDBTable.updateTable :=
  .bind (composed_getAll _) fun grps => .bind (composed_groupNames grps) fun _ => .pure _

theorem composed_getLessonsTypes (teacher : Option ℕ) : Composed K S (PosibleLessonsTable.getLessonsTypes teacher) := by
  cases teacher with
  | none => exact .pure _
  | some t => exact .bind (composed_teacherOf t) fun _ => .pure _

theorem composed_place (scheds : List ℕ) (schedules : ScheduleTable.Schedules) :
    Composed K S (ScheduleTable.place schedules scheds) := by
  induction scheds generalizing schedules with
  | nil => exact .pure _
  | cons sched scheds ih =>
    refine .bind (composed_scheduleOf sched) fun s => ?_
    dsimp only
    split_ifs
    · exact ih _
    · exact .fault _

theorem composed_scheduleRows (schedules : ScheduleTable.Schedules) (rows : List (Fin 8)) :
    Composed K S (ScheduleTable.updateTable schedules rows) := by
  induction rows with
  | nil => exact .pure _
  | cons i rows ih =>
    unfold ScheduleTable.updateTable
    cases schedules i with
    | none => exact .bind ih fun _ => .pure _
    | some sched => exact .bind (composed_scheduleOf sched) fun _ => .bind ih fun _ => .pure _

theorem composed_setSchedules (scheds : List ℕ) : Composed K S (ScheduleTable.setSchedules scheds) :=
  .bind (composed_place scheds _) fun _ => .bind (composed_scheduleRows _ _) fun _ => .pure _

theorem composed_updateAccountsTable : Composed K S AdminWindow.updateAccountsTable :=
  .bind (.bind (composed_getAll _) fun _ => .pure _) fun accs => .bind (composed_updateTable accs) fun _ => .pure _

/-! ### Groups -/

theorem composed_curators (accs : List ℕ) : Composed K S (AdminWindow.curators accs) := by
  induction accs with
  | nil => exact .pure _
  | cons acc accs ih =>
    refine .bind (composed_getAdditionalInfo acc) fun info => .ite ?_ ih
    refine .bind (composed_getAdditionalInfo acc) fun info => .bind (composed_cast _ _) fun teach? => ?_
    cases teach? with
    | none => exact ih
    | some teach => exact .bind ih fun _ => .pure _

theorem composed_curatorNames (curs : List ℕ) : Composed K S (AdminWindow.curatorNames curs) := by
  induction curs with
  | nil => exact .pure _
  | cons cur curs ih =>
    exact .bind (.bind (composed_teacherOf cur) fun _ => .pure _) fun _ => .bind ih fun _ => .pure _

theorem composed_chooseCurator (box : ComboBox) (grp : ℕ) : Composed K S (AdminWindow.chooseCurator box grp) := by
  refine .bind (composed_getCurator grp) fun r => .ite (.bind (composed_getCurator grp) fun first? => ?_) (.pure _)
  cases first? with
  | none => exact .fault _
  | some first =>
    refine .bind (composed_teacherOf first) fun _ => .bind (composed_getCurator grp) fun second? => ?_
    cases second? with
    | none => exact .fault _
    | some second => exact .bind (composed_teacherOf second) fun _ => .pure _

section Slots
variable (win : AdminWindow)

theorem composed_setGroup (grp : Option ℕ) : Composed K S (win.setGroup grp) := by
  refine .bind (composed_groupedAccounts grp) fun accs => .bind (composed_updateTable accs) fun _ =>
    .bind (composed_getAll _) fun all => .bind (composed_curators all) fun curs => .bind (composed_curatorNames curs) fun _ => ?_
  cases grp with
  | none => exact .pure _
  | some g => exact .bind (composed_chooseCurator _ g) fun _ => .bind (composed_groupOf g) fun _ => .pure _

theorem composed_updateGroupsScrean (grp : Option ℕ) : Composed K S (win.updateGroupsScrean grp) :=
  .bind (composed_setGroup win grp) fun _ => .bind (composed_groupedAccounts grp) fun accs =>
    .bind (composed_updateTable accs) fun _ => .bind composed_ungroupedAccounts fun accs' =>
      .bind (composed_updateTable accs') fun _ => .bind composed_groupsTable fun _ => .pure _

theorem composed_curatorAt : Composed K S win.curatorAt := by
  unfold AdminWindow.curatorAt
  split
  · exact .fault _
  · exact .pure _

theorem composed_addNewGroup (hg : K .groups) (hs : S .curator) : Composed K S win.addNewGroup := by
  refine .bind (composed_new (.group win.groupNameEdit)) fun grp => ?_
  have hrest : Composed K S (do win.updateGroupsScrean (← Controller.add .groups grp)) :=
    .bind (composed_add (by simp) hg grp) fun r => composed_updateGroupsScrean win r
  refine .ite (.bind (composed_curatorAt win) fun cur => ?_) hrest
  cases win.group with
  | none => exact .bind (.fault _) fun _ => hrest
  | some group => exact .bind (composed_setRef hs _ _) fun _ => hrest

theorem composed_deleteGroup (hg : K .groups) : Composed K S win.deleteGroup := by
  unfold AdminWindow.deleteGroup
  cases win.group with
  | none => exact composed_updateGroupsScrean _ _
  | some group =>
    exact .bind (.fromDB group) fun b => .bind (composed_delete hg _) fun _ => composed_updateGroupsScrean _ _

theorem composed_updateGroup (hs : S .curator) : Composed K S win.updateGroup := by
  unfold AdminWindow.updateGroup
  cases win.group with
  | none => exact composed_updateGroupsScrean _ _
  | some group =>
    refine .bind (composed_assignScalar _ _) fun _ => .ite ?_ ?_
    · exact .bind (composed_curatorAt win) fun cur => .bind (composed_setRef hs _ _) fun _ => composed_updateGroupsScrean _ _
    · exact .bind (composed_setRef hs _ _) fun _ => composed_updateGroupsScrean _ _

theorem composed_hasAccount (acc : ℕ) (studs : List ℕ) : Composed K S (AdminWindow.hasAccount acc studs) := by
  induction studs with
  | nil => exact .pure _
  | cons stud studs ih =>
    refine .bind (composed_getStudentOwner stud) fun owner? => ?_
    cases owner? with
    | none => exact .fault _
    | some owner => exact .bind (.fromDB owner) fun _ => .bind (.fromDB acc) fun _ => .ite (.pure _) ih

theorem composed_studentInfoOf (acc : ℕ) : Composed K S (AdminWindow.studentInfoOf acc) :=
  .bind (composed_getAdditionalInfo acc) fun _ => composed_cast _ _

theorem composed_addStudent (hg : K .groups) (hi : K .infos) (grp : ℕ) (stud : Option ℕ) :
    Composed K S (GroupDB.addStudent grp stud) := by
  cases stud with
  | none => exact .fault _
  | some s =>
    refine .act (a := .addStudent grp s) rfl ?_ fun _ h => h.elim
    rintro k (rfl | rfl)
    · exact hg
    · exact hi

theorem composed_deleteStudent (hg : K .groups) (hi : K .infos) (grp : ℕ) (stud : Option ℕ) :
    Composed K S (GroupDB.deleteStudent grp stud) := by
  cases stud with
  | some s =>
    refine .act (a := .deleteStudent grp s) rfl ?_ fun _ h => h.elim
    rintro k (rfl | rfl)
    · exact hg
    · exact hi
  | none =>
    refine .bind (composed_groupOf grp) fun g => ?_
    cases g.students with
    | nil => exact .pure _
    | cons p ps => exact .fault _

theorem composed_addAccToGroup (hg : K .groups) (hi : K .infos) (acc : ℕ) : Composed K S (win.addAccToGroup acc) := by
  unfold AdminWindow.addAccToGroup
  cases win.group with
  | none => exact .pure _
  | some group =>
    refine .bind (composed_getStudents group) fun studs => .bind (composed_hasAccount acc studs) fun b => .ite (.pure _) ?_
    exact .bind (composed_studentInfoOf acc) fun stud => .bind (composed_addStudent hg hi group stud) fun _ =>
      composed_updateGroupsScrean _ _

theorem composed_deleteAccFromGroup (hg : K .groups) (hi : K .infos) (acc : ℕ) : Composed K S (win.deleteAccFromGroup acc) := by
  unfold AdminWindow.deleteAccFromGroup
  cases win.group with
  | none => exact composed_updateGroupsScrean _ _
  | some group =>
    exact .bind (composed_studentInfoOf acc) fun stud => .bind (composed_deleteStudent hg hi group stud) fun _ =>
      composed_updateGroupsScrean _ _

/-! ### Accounts -/

theorem composed_layStudent (form : DisplayAccountWidget) (filled : Bool) (addInf : Option ℕ) :
    Composed K S (form.layStudent filled addInf) := by
  refine .bind (composed_getAll _) fun grps => .bind (composed_groupNames grps) fun names => .ite ?_ (.pure _)
  refine .bind (composed_castDeref _ _) fun p => .bind (composed_studentOf p) fun s =>
    .bind (composed_getStudentGroup p) fun r => .ite (.bind (composed_getStudentGroup p) fun g? => ?_) (.pure _)
  cases g? with
  | none => exact .fault _
  | some g => exact .bind (composed_groupOf g) fun _ => .pure _

theorem composed_layTeacher (form : DisplayAccountWidget) (filled : Bool) (addInf : Option ℕ) :
    Composed K S (form.layTeacher filled addInf) :=
  .ite (.bind (composed_castDeref _ _) fun p => .bind (composed_teacherOf p) fun _ => .pure _) (.pure _)

theorem composed_setLayoutAcc (form : DisplayAccountWidget) : Composed K S form.setLayoutAcc := by
  unfold DisplayAccountWidget.setLayoutAcc
  cases form.acc with
  | none =>
    cases form.type with
    | student => exact composed_layStudent _ _ _
    | teacher => exact composed_layTeacher _ _ _
    | admin => exact .pure _
  | some acc =>
    refine .bind (composed_getAdditionalInfo acc) fun addInf => .bind (composed_accountOf acc) fun a => ?_
    dsimp only
    cases form.type with
    | student => exact composed_layStudent _ _ _
    | teacher => exact composed_layTeacher _ _ _
    | admin => exact .pure _

theorem composed_setEditType (form : DisplayAccountWidget) (type : AccountType) : Composed K S (form.setEditType type) :=
  .ite (.pure _) (composed_setLayoutAcc _)

theorem composed_setAccountDB (form : DisplayAccountWidget) (acc : Option ℕ) : Composed K S (form.setAccountDB acc) := by
  cases acc with
  | none => exact .bind (composed_setEditType _ _) fun _ => composed_setLayoutAcc _
  | some acc =>
    exact .bind (composed_accountType acc) fun t => .bind (composed_setEditType _ _) fun _ =>
      .bind (composed_accountType acc) fun _ => composed_setLayoutAcc _

theorem composed_setAccountToDisplayWidget (acc : Option ℕ) : Composed K S (win.setAccountToDisplayWidget acc) :=
  .bind (composed_setAccountDB _ acc) fun _ => .pure _

theorem composed_findName (text : String) (grps : List ℕ) : Composed K S (DisplayAccountWidget.findName text grps) := by
  induction grps with
  | nil => exact .pure _
  | cons grp grps ih => exact .bind (composed_groupOf grp) fun _ => .ite (.pure _) ih

theorem composed_getGroupFromEdit (form : DisplayAccountWidget) : Composed K S form.getGroupFromEdit :=
  .bind (composed_getAll _) fun grps => composed_findName _ grps

theorem composed_getNewAccount (form : DisplayAccountWidget) (hs : S .group) : Composed K S form.getNewAccount := by
  refine .bind (composed_new (.account form.editLogin form.editPassword form.editType)) fun resAcc => ?_
  cases form.editType with
  | student =>
    refine .bind (composed_new (.studentInfo form.editFirstName form.editSecondName (toInt form.editCurs))) fun s => ?_
    exact .bind (composed_getGroupFromEdit form) fun _ => .ite
      (.bind (composed_getGroupFromEdit form) fun _ => .bind (composed_setRef hs _ _) fun _ => .pure _) (.pure _)
  | teacher =>
    exact .bind (composed_new (.teacherInfo form.editFirstName form.editSecondName form.editFaculty)) fun _ => .pure _
  | admin => exact .pure _

theorem composed_getAccountForDBUpdate (form : DisplayAccountWidget) (hs : S .group) : Composed K S form.getAccountForDBUpdate := by
  unfold DisplayAccountWidget.getAccountForDBUpdate
  cases form.acc with
  | none => exact .fault _
  | some acc =>
    refine .bind (composed_assignAccount acc _ _ _) fun _ => .bind (composed_getAdditionalInfo acc) fun prev => ?_
    cases form.editType with
    | student =>
      refine .bind (composed_new (.studentInfo form.editFirstName form.editSecondName (toInt form.editCurs))) fun s => ?_
      exact .bind (composed_getGroupFromEdit form) fun _ => .bind (composed_setRef hs _ _) fun _ => .pure _
    | teacher =>
      exact .bind (composed_new (.teacherInfo form.editFirstName form.editSecondName form.editFaculty)) fun _ => .pure _
    | admin => exact .pure _

theorem composed_deleteAccount (ha : K .accounts) (hi : K .infos) : Composed K S win.deleteAccount := by
  unfold AdminWindow.deleteAccount
  cases win.accountDisp.getAccountForDelete with
  | none => exact .pure _
  | some data =>
    have hrest : Composed K S (do
        let _ ← Controller.delete .accounts (← fromDB data).id
        AdminWindow.updateAccountsTable
        win.setAccountToDisplayWidget none) :=
      .bind (.fromDB data) fun _ => .bind (composed_delete ha _) fun _ =>
        .bind composed_updateAccountsTable fun _ => composed_setAccountToDisplayWidget win none
    refine .bind (composed_getAdditionalInfo data) fun _ => .ite ?_ hrest
    refine .bind (composed_getAdditionalInfo data) fun info? => ?_
    cases info? with
    | none => exact .bind (.fault _) fun _ => hrest
    | some info => exact .bind (.fromDB info) fun _ => .bind (composed_delete hi _) fun _ => hrest

variable (ha : K .accounts) (hi : K .infos) (hg : K .groups) (hs : S .group) (ho : S .owner)
include ha hi hg hs ho

theorem composed_addNewAccount : Composed K S win.addNewAccount := by
  refine .bind (composed_getNewAccount _ hs) fun data => .bind (composed_add (by simp) ha _) fun res => ?_
  have hrest : Composed K S (do
      AdminWindow.updateAccountsTable
      win.updateGroupsScrean none) :=
    .bind composed_updateAccountsTable fun _ => composed_updateGroupsScrean win none
  cases data.2 with
  | none => exact hrest
  | some info =>
    refine .bind (composed_setRef ho _ _) fun _ => ?_
    cases res with
    | none => exact .bind (.fault _) fun _ => hrest
    | some res =>
      exact .bind (composed_accountType res) fun t => .bind (composed_infosAdd hi ha hg info t) fun _ => hrest

theorem composed_updateAccount : Composed K S win.updateAccount := by
  refine .bind (composed_getAccountForDBUpdate _ hs) fun data => .bind (composed_update ha _) fun _ => ?_
  have hrest : Composed K S (do
      AdminWindow.updateAccountsTable
      return win) := .bind composed_updateAccountsTable fun _ => .pure _
  obtain ⟨acc, prev, new⟩ := data
  have hadd (info : ℕ) : Composed K S (do
      AdditionalInfo.setOwner info (some acc)
      let _ ← InfosController.add info (← accountType acc)
      AdminWindow.updateAccountsTable
      return win) :=
    .bind (composed_setRef ho _ _) fun _ => .bind (composed_accountType _) fun t =>
      .bind (composed_infosAdd hi ha hg info t) fun _ => hrest
  cases prev with
  | none =>
    cases new with
    | none => exact hrest
    | some info => exact hadd info
  | some prev =>
    refine .bind (.fromDB prev) fun _ => .bind (composed_delete hi _) fun _ => ?_
    cases new with
    | none => exact hrest
    | some info => exact hadd info

omit ha hi hg hs ho

/-! ### Schedules and lessons -/

theorem composed_updateScheduleScrean (grp : Option ℕ) : Composed K S (win.updateScheduleScrean grp) := by
  refine .bind (.bind (.asks (a := .getAllTeachers) rfl trivial) fun _ => .pure _) fun accs =>
    .bind (composed_updateTable accs) fun _ => .bind composed_groupsTable fun _ => .bind (composed_getLessonsTypes _) fun _ => ?_
  cases grp.or win.schGroupDB with
  | none => exact .pure _
  | some group =>
    exact .bind (composed_getAllSchedulesinDate _ _) fun _ => .bind (composed_setSchedules _) fun _ => .pure _

theorem composed_addClass (hi : K .infos) (teacher : Option ℕ) (text : String) :
    Composed K S (AdminWindow.addClass teacher text) := by
  cases teacher with
  | none => exact .pure _
  | some this =>
    exact .ite (.pure _) (.bind (composed_teacherOf this) fun _ => .bind (composed_assignScalar _ _) fun _ =>
      .bind (composed_update hi _) fun _ => .bind (composed_getLessonsTypes _) fun _ => .pure _)

theorem composed_deleteClass (hi : K .infos) (teacher : Option ℕ) (text : String) :
    Composed K S (AdminWindow.deleteClass teacher text) := by
  cases teacher with
  | none => exact .pure _
  | some this =>
    exact .ite (.pure _) (.bind (composed_teacherOf this) fun _ => .ite (.pure _)
      (.bind (composed_assignScalar _ _) fun _ => .bind (composed_update hi _) fun _ =>
        .bind (composed_getLessonsTypes _) fun _ => .pure _))

theorem composed_usable (p : Option ℕ) : Composed K S (AdminWindow.usable p) := by
  cases p with
  | none => exact .pure _
  | some p => exact .bind (.fromDB p) fun _ => .pure _

theorem composed_setAccToSchedule (acc : ℕ) : Composed K S (win.setAccToSchedule acc) :=
  .bind (composed_getAdditionalInfo acc) fun _ => .bind (composed_cast _ _) fun _ =>
    .bind (composed_getAdditionalInfo acc) fun _ => .bind (composed_cast _ _) fun _ =>
      .bind (composed_getLessonsTypes _) fun _ => composed_updateScheduleScrean _ _

theorem composed_addSchedule (hs : K .schedules) (hg : S .group) (ht : S .teacher) (str : String) (rowIndex : Int32) :
    Composed K S (win.addSchedule str rowIndex) := by
  refine .bind (composed_usable _) fun _ => .ite (.pure _) ?_
  refine .bind (composed_usable _) fun _ => .ite (.pure _) ?_
  refine .bind (composed_new (.schedule win.selectedDate str rowIndex)) fun write => ?_
  exact .bind (composed_setRef hg _ _) fun _ => .bind (composed_setRef ht _ _) fun _ =>
    .bind (composed_add (by simp) hs write) fun _ => composed_updateScheduleScrean _ _

theorem composed_deleteSchedule (hs : K .schedules) (acc : Option ℕ) : Composed K S (win.deleteSchedule acc) := by
  cases acc with
  | none => exact .pure _
  | some acc => exact .bind (.fromDB acc) fun _ => .bind (composed_delete hs _) fun _ => composed_updateScheduleScrean _ _

end Slots

/-! ### Events -/

/-- The members a slot sets. -/
def Slot.sets : Slot → RefField → Prop
  | .addNewAccount, f | .updateAccount, f => f = .group ∨ f = .owner
  | .addNewGroup, f | .updateGroup, f => f = .curator
  | .addSchedule _ _, f => f = .group ∨ f = .teacher
  | _, _ => False

theorem composed_slot (s : Slot) (win : AdminWindow) : Composed s.writes s.sets (s.cmd win) := by
  cases s with
  | setAccountToDisplayWidget acc => exact composed_setAccountToDisplayWidget win acc
  | setGroup grp => exact composed_setGroup win grp
  | setGroupSch grp => exact composed_updateScheduleScrean win grp
  | setAccToSchedule acc => exact composed_setAccToSchedule win acc
  | dataChanged date => exact composed_updateScheduleScrean _ none
  | addNewAccount =>
    exact composed_addNewAccount win (by simp [Slot.writes]) (by simp [Slot.writes]) (by simp [Slot.writes]) (.inl rfl)
      (.inr rfl)
  | deleteAccount => exact composed_deleteAccount win (.inl rfl) (.inr rfl)
  | updateAccount =>
    exact composed_updateAccount win (by simp [Slot.writes]) (by simp [Slot.writes]) (by simp [Slot.writes]) (.inl rfl)
      (.inr rfl)
  | addNewGroup => exact composed_addNewGroup win rfl rfl
  | deleteGroup => exact composed_deleteGroup win rfl
  | updateGroup => exact composed_updateGroup win rfl
  | addClass text => exact .bind (composed_addClass (K := (· = Kind.infos)) rfl _ _) fun _ => .pure _
  | deleteClass text => exact .bind (composed_deleteClass (K := (· = Kind.infos)) rfl _ _) fun _ => .pure _
  | addAccToGroup acc => exact composed_addAccToGroup win (.inl rfl) (.inr rfl) acc
  | deleteAccFromGroup acc => exact composed_deleteAccFromGroup win (.inl rfl) (.inr rfl) acc
  | addSchedule str rowIndex => exact composed_addSchedule (K := (· = Kind.schedules)) win rfl (.inl rfl) (.inr rfl) str rowIndex
  | deleteSchedule acc => exact composed_deleteSchedule (K := (· = Kind.schedules)) win rfl acc
  | updateGroupsScrean => exact composed_updateGroupsScrean win none
  | updateScheduleScrean => exact composed_updateScheduleScrean win none

theorem composed_input (i : Input) (win : AdminWindow) : Composed K S (i.cmd win) := by
  cases i with
  | type t => exact .bind (composed_setEditType _ t) fun _ => .pure _
  | _ => exact .pure _

theorem composed_updateWindow (win : StudentWindow) : Composed K S win.updateWindow := by
  unfold StudentWindow.updateWindow
  cases win.acc with
  | none => exact .fault _
  | some acc =>
    exact .bind (composed_getAdditionalInfo acc) fun _ => .bind (composed_castDeref _ _) fun stud =>
      .bind (composed_getStudentGroup stud) fun _ => .bind (composed_getAllSchedulesinDate _ _) fun _ => composed_setSchedules _

theorem composed_setAccAndFill (win : StudentWindow) (acc : ℕ) : Composed K S (win.setAccAndFill acc) := by
  refine .bind (composed_updateWindow _) fun _ => .bind (composed_accountOf acc) fun _ =>
    .bind (composed_getAdditionalInfo acc) fun _ => .bind (composed_cast _ _) fun addInf? => ?_
  cases addInf? with
  | none => exact .pure _
  | some addInf =>
    refine .bind (composed_studentOf addInf) fun _ => .bind (composed_getStudentGroup addInf) fun grp? => ?_
    cases grp? with
    | none => exact .pure _
    | some grp => exact .bind (composed_groupOf grp) fun _ => .pure _

theorem composed_logIn (state : StartWindow.State) (ha : state = .signup → K .accounts) (wStud : StudentWindow)
    (login password : String) : Composed K S (StartWindow.logIn state wStud login password) := by
  have hexist (l : LogPass) : Composed K S (AccountsController.isAccountExist l) := .bind (.findOne _ _) fun _ => .pure _
  cases state with
  | login =>
    refine .bind (hexist _) fun _ => .ite (.pure _) ?_
    refine .bind (.act (a := .findFullAccount ⟨login, password⟩) rfl (fun _ h => h.elim) fun _ h => h.elim) fun fullAcc =>
      .bind (composed_accountType fullAcc) fun t => ?_
    cases t with
    | admin => exact .pure _
    | student => exact .bind (composed_setAccAndFill wStud fullAcc) fun _ => .pure _
    | teacher => exact .bind (composed_setAccAndFill wStud fullAcc) fun _ => .pure _
  | signup =>
    refine .bind (hexist _) fun _ => .ite (.pure _) ?_
    exact .bind (composed_new (.account login password .student)) fun ac =>
      .bind (composed_add (by simp) (ha rfl) ac) fun _ => .pure _

end Cbt
