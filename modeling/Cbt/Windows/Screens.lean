import Cbt.Effects.Sound
import Cbt.Model.Client

/-! What the windows show. Filling a table, refilling the account form and showing
a group ask entities for their references and change no stored document. All a
screen does is made of quiet steps, and of clearing the flag after a listing. -/

namespace Cbt

open Lib.Command (run_bind_iff run_pure_iff)

/-- Anything may be loaded. -/
def anything : Loads := fun _ _ => True

/-- One small step of a screen. -/
inductive Peek : World → World → Prop
  | quiet {w w' : World} (h : Micro anything w w') : Peek w w'
  | listed (w : World) (k : Kind) : Peek w (w.setChanged k false)

/-- What a screen does. -/
abbrev Looks : World → World → Prop := Relation.ReflTransGen Peek

namespace Peek

variable {w w' : World}

theorem env (h : Peek w w') : w'.env = w.env := by
  cases h with
  | quiet h => exact h.env
  | listed => rfl

theorem sound (h : Peek w w') (hw : Sound w) : Sound w' := by
  cases h with
  | quiet h => exact h.sound hw
  | listed => exact hw.setChanged false

theorem kept (h : Peek w w') {p : ℕ} {b : IFromDB} {x : Fields} (hp : w.heap.get p = some ⟨some b, x⟩)
    (hb : b.isExist = true) :
    ∃ b' x', w'.heap.get p = some ⟨some b', x'⟩ ∧ b'.core = b.core ∧ x'.bare = x.bare := by
  cases h with
  | quiet h => exact h.kept hp hb
  | listed => exact ⟨b, x, hp, rfl, rfl⟩

theorem plain (h : Peek w w') {p : ℕ} {x : Fields} (hp : w.heap.get p = some ⟨none, x⟩) :
    ∃ x', w'.heap.get p = some ⟨none, x'⟩ ∧ x'.bare = x.bare := by
  cases h with
  | quiet h => exact h.plain hp
  | listed => exact ⟨x, hp, rfl⟩

theorem mem_cash (h : Peek w w') {k : Kind} {p : ℕ} (hp : p ∈ w.cash k) : p ∈ w'.cash k := by
  cases h with
  | quiet h => exact Quiet.mem_cash (.single h) hp
  | listed => simpa using hp

end Peek

namespace Looks

variable {w w' : World}

theorem of_quiet {L : Loads} (h : Quiet L w w') : Looks w w' := by
  replace h : Quiet anything w w' := h.mono fun _ _ _ => trivial
  induction h with
  | refl => exact .refl
  | tail _ h ih => exact ih.tail (.quiet h)

theorem env (h : Looks w w') : w'.env = w.env := by
  induction h with
  | refl => rfl
  | tail _ h ih => exact h.env.trans ih

theorem stored (h : Looks w w') : w'.stored = w.stored := by
  unfold Lib.Conf.stored
  rw [h.env]

theorem sound (h : Looks w w') (hw : Sound w) : Sound w' := by
  induction h with
  | refl => exact hw
  | tail _ h ih => exact h.sound ih

/-- An object that exists goes on existing, with its document, its `_id` and its own values. -/
theorem kept (h : Looks w w') {p : ℕ} {b : IFromDB} {x : Fields} (hp : w.heap.get p = some ⟨some b, x⟩)
    (hb : b.isExist = true) :
    ∃ b' x', w'.heap.get p = some ⟨some b', x'⟩ ∧ b'.core = b.core ∧ x'.bare = x.bare := by
  induction h with
  | refl => exact ⟨b, x, hp, rfl, rfl⟩
  | tail _ h ih =>
    obtain ⟨b₁, x₁, h₁, hc₁, hx₁⟩ := ih
    have hb₁ : b₁.isExist = true := by
      simp only [IFromDB.core, Prod.mk.injEq] at hc₁
      rw [hc₁.2.2, hb]
    obtain ⟨b₂, x₂, h₂, hc₂, hx₂⟩ := h.kept h₁ hb₁
    exact ⟨b₂, x₂, h₂, hc₂.trans hc₁, hx₂.trans hx₁⟩

/-- A plain object stays plain, with its own values. -/
theorem plain (h : Looks w w') {p : ℕ} {x : Fields} (hp : w.heap.get p = some ⟨none, x⟩) :
    ∃ x', w'.heap.get p = some ⟨none, x'⟩ ∧ x'.bare = x.bare := by
  induction h with
  | refl => exact ⟨x, hp, rfl⟩
  | tail _ h ih =>
    obtain ⟨x₁, h₁, hx₁⟩ := ih
    obtain ⟨x₂, h₂, hx₂⟩ := h.plain h₁
    exact ⟨x₂, h₂, hx₂.trans hx₁⟩

/-- A cache keeps what it has. -/
theorem mem_cash (h : Looks w w') {k : Kind} {p : ℕ} (hp : p ∈ w.cash k) : p ∈ w'.cash k := by
  induction h with
  | refl => exact hp
  | tail _ h ih => exact h.mem_cash ih

/-- A flag that is clear stays clear. -/
theorem isChanged (h : Looks w w') {k : Kind} (hk : w.isChanged k = false) : w'.isChanged k = false := by
  induction h with
  | refl => exact hk
  | tail _ h ih =>
    cases h with
    | quiet h => rw [h.isChanged, ih]
    | listed k' =>
      rw [Lib.Conf.isChanged_setChanged]
      split_ifs
      · rfl
      · exact ih

theorem alive (h : Looks w w') {p : ℕ} (hp : w.Alive p) : w'.Alive p := by
  obtain ⟨b, x, hg, hb⟩ := hp
  obtain ⟨b', x', hg', hc, -⟩ := h.kept hg hb
  simp only [IFromDB.core, Prod.mk.injEq] at hc
  exact ⟨b', x', hg', hc.2.2.trans hb⟩

theorem next_le (h : Looks w w') : w.heap.next ≤ w'.heap.next := by
  induction h with
  | refl => exact le_rfl
  | tail _ h ih =>
    cases h with
    | quiet h => exact ih.trans h.next_le
    | listed => exact ih

/-- An address where no object exists stays one. -/
theorem dead (h : Looks w w') {p : ℕ} (hp : ¬ w.Alive p) (hlt : p < w.heap.next) : ¬ w'.Alive p := by
  induction h with
  | refl => exact hp
  | tail h h' ih =>
    cases h' with
    | quiet h' => exact h'.dead ih (hlt.trans_le (next_le h))
    | listed => exact ih

/-- An old object is the same as before, whether it exists or not. -/
theorem back (h : Looks w w') {p : ℕ} {o' : Obj} (hp : w'.heap.get p = some o') (hlt : p < w.heap.next) :
    ∃ o, w.heap.get p = some o ∧ o.Same o' := by
  induction h generalizing o' with
  | refl => exact ⟨o', hp, .refl o'⟩
  | tail h h' ih =>
    cases h' with
    | quiet h' =>
      obtain ⟨o₁, hp₁, hs₁⟩ := h'.back hp (hlt.trans_le (next_le h))
      obtain ⟨o, ho, hs⟩ := ih hp₁
      exact ⟨o, ho, hs.trans hs₁⟩
    | listed => exact ih hp

/-- What depends on an object's own values only is the same of an object that exists. -/
theorem view {α : Type} {f : Fields → α} (hf : ∀ x, f x.bare = f x) (h : Looks w w') {p : ℕ} (hp : w.Alive p) :
    (w'.heap.get p).map (fun o => f o.fields) = (w.heap.get p).map fun o => f o.fields := by
  obtain ⟨b, x, hg, hb⟩ := hp
  obtain ⟨b', x', hg', -, hx⟩ := h.kept hg hb
  rw [hg, hg', Option.map_some, Option.map_some, ← hf x', hx, hf]

end Looks

/-! ### Operations that only ask -/

/-- The operations that only ask: the look-ups, the listings and the getters. -/
def Action.Idle : Action → Prop
  | .getFromDB _ _ _ | .getAll _ | .getAllTeachers | .getAllSchedulesinDate _ _ | .get _ _ | .getStudents _ => True
  | _ => False

theorem Outcome.looks {w w' : World} {a : Action} (h : Outcome w a w') (ha : a.Idle) : Looks w w' := by
  cases h with
  | quiet h => exact .of_quiet h
  | listed hc hl hq => exact (Looks.of_quiet hq).tail (.listed _ _)
  | loggedIn hd ho => exact ha.elim
  | added hk he hx hd ho => exact ha.elim
  | infoAdded he hx hd h => exact ha.elim
  | deleted h => exact ha.elim
  | updated h => exact ha.elim
  | enrolled h => exact ha.elim
  | expelled h => exact ha.elim

/-- The group whose curator or students an operation asks for. -/
def Action.Opens : Action → ℕ → Prop
  | .get .getCurator this, p | .getStudents this, p => p = this
  | _, _ => False

variable {S : ℕ → Prop}

/-- A sequence of operations that only ask, and about no groups but those of `S`. -/
abbrev WatchesOf (S : ℕ → Prop) : World → World → Prop :=
  Relation.ReflTransGen fun w w' => ∃ a : Action, a.Idle ∧ (∀ p, a.Opens p → S p) ∧ a.Step w w'

abbrev Watches : World → World → Prop := WatchesOf fun _ => True

theorem Watches.looks {w w' : World} (h : WatchesOf S w w') (hw : Sound w) : Looks w w' := by
  induction h with
  | refl => exact .refl
  | tail _ h ih =>
    obtain ⟨a, ha, -, hs⟩ := h
    exact ih.trans ((outcome_of_step (ih.sound hw) hs).looks ha)

/-- What an operation runs, without its result. -/
def Action.Runs {α : Type} (a : Action) (m : Cmd α) : Prop := a.cmd = do let _ ← m

theorem Action.Runs.step {α : Type} {a : Action} {m : Cmd α} (ha : a.Runs m) {w w' : World} {r : α}
    (h : run m w = .ok (r, w')) : a.Step w w' := by
  unfold Action.Step
  rw [ha]
  exact (run_bind_iff _).mpr ⟨r, w', h, (run_pure_iff _).mpr ⟨rfl, rfl⟩⟩

/-- Every run is a sequence of operations that only ask, and about no groups but those of `S`. -/
abbrev ViewsOf (S : ℕ → Prop) {α : Type} (m : Cmd α) : Prop := Lib.Command.Keeps Database.serve (WatchesOf S) m

abbrev Views {α : Type} (m : Cmd α) : Prop := ViewsOf (fun _ => True) m

theorem Action.Runs.views {α : Type} {a : Action} {m : Cmd α} (ha : a.Runs m) (hi : a.Idle)
    (hS : ∀ p, a.Opens p → S p) : ViewsOf S m := fun _ _ _ h => .single ⟨a, hi, hS, ha.step h⟩

/-- Every run leaves the world as it is. -/
abbrev Still {α : Type} (m : Cmd α) : Prop := Lib.Command.Keeps Database.serve Eq m

namespace ViewsOf

variable {α β : Type}

theorem still {m : Cmd α} (hm : Still m) : ViewsOf S m := by
  intro w a w' h
  obtain rfl := hm _ _ _ h
  exact .refl

theorem pure (a : α) : ViewsOf S (Pure.pure a : Cmd α) := Lib.Command.Keeps.pure (fun _ => .refl) a

theorem fault (e : Fault) : ViewsOf S (Lib.Command.fault e : Cmd α) := Lib.Command.Keeps.fault e

theorem bind {m : Cmd α} {f : α → Cmd β} (hm : ViewsOf S m) (hf : ∀ a, ViewsOf S (f a)) : ViewsOf S (m >>= f) :=
  Lib.Command.Keeps.bind (fun h h' => h.trans h') hm hf

theorem ite {c : Prop} [Decidable c] {m m' : Cmd α} (hm : ViewsOf S m) (hm' : ViewsOf S m') :
    ViewsOf S (if c then m else m') := by
  split_ifs
  · exact hm
  · exact hm'

theorem looks {m : Cmd α} (hm : ViewsOf (fun _ => True) m) {w w' : World} {r : α} (hw : Sound w) (h : run m w = .ok (r, w')) :
    Looks w w' := Watches.looks (hm _ _ _ h) hw

end ViewsOf

/-! ### Getters and listings -/

theorem views_getAdditionalInfo (acc : ℕ) : ViewsOf S (AccountDB.getAdditionalInfo acc) :=
  Action.Runs.views (a := .get .getAdditionalInfo acc) rfl trivial fun _ h => h.elim

theorem views_getStudentGroup (stud : ℕ) : ViewsOf S (StudentInfoDB.getGroup stud) :=
  Action.Runs.views (a := .get .getStudentGroup stud) rfl trivial fun _ h => h.elim

theorem views_getStudentOwner (stud : ℕ) : ViewsOf S (StudentInfoDB.getOwner stud) :=
  Action.Runs.views (a := .get .getStudentOwner stud) rfl trivial fun _ h => h.elim

theorem viewsOf_getCurator {grp : ℕ} (hS : S grp) : ViewsOf S (GroupDB.getCurator grp) :=
  Action.Runs.views (a := .get .getCurator grp) rfl trivial fun _ h => h ▸ hS

theorem views_getCurator (grp : ℕ) : Views (GroupDB.getCurator grp) := viewsOf_getCurator trivial

theorem viewsOf_getStudents {grp : ℕ} (hS : S grp) : ViewsOf S (GroupDB.getStudents grp) :=
  Action.Runs.views (a := .getStudents grp) rfl trivial fun _ h => h ▸ hS

theorem views_getStudents (grp : ℕ) : Views (GroupDB.getStudents grp) := viewsOf_getStudents trivial

theorem views_getAll (k : Kind) : ViewsOf S (Controller.getAll k) :=
  Action.Runs.views (a := .getAll k) rfl trivial fun _ h => h.elim

theorem views_getAllTeachers : ViewsOf S AccountsController.getAllTeachers :=
  Action.Runs.views (a := .getAllTeachers) rfl trivial fun _ h => h.elim

theorem views_getAllSchedulesinDate (date : Int32) (group : Pointer) :
    ViewsOf S (ScheduleController.getAllSchedulesinDate date group) := by
  cases group with
  | «to» p => exact Action.Runs.views (a := .getAllSchedulesinDate date p) rfl trivial fun _ h => h.elim
  | uninit => exact .fault _
  | null => exact .fault _

theorem still_obj (p : ℕ) : Still (obj p) := fun _ _ _ h => (run_obj_iff.mp h).2

theorem still_fromDB (p : ℕ) : Still (fromDB p) := fun _ _ _ h => (run_fromDB_iff.mp h).2

theorem views_obj (p : ℕ) : ViewsOf S (obj p) := .still (still_obj p)

theorem views_fromDB (p : ℕ) : ViewsOf S (fromDB p) := .still (still_fromDB p)

theorem views_groupOf (p : ℕ) : ViewsOf S (groupOf p) :=
  .bind (views_obj p) fun o => by cases o.fields <;> first | exact .pure _ | exact .fault _

theorem views_accountType (p : ℕ) : ViewsOf S (accountType p) :=
  .bind (views_obj p) fun o => by cases o.fields <;> first | exact .pure _ | exact .fault _

theorem views_cast (isClass : Fields → Bool) (r : Option ℕ) : ViewsOf S (cast isClass r) := by
  cases r with
  | none => exact .pure _
  | some p => exact .bind (views_obj p) fun _ => .pure _

theorem views_accountOf (p : ℕ) : ViewsOf S (accountOf p) :=
  .bind (views_obj p) fun o => by cases o.fields <;> first | exact .pure _ | exact .fault _

theorem views_studentOf (p : ℕ) : ViewsOf S (studentOf p) :=
  .bind (views_obj p) fun o => by cases o.fields <;> first | exact .pure _ | exact .fault _

theorem views_teacherOf (p : ℕ) : ViewsOf S (teacherOf p) :=
  .bind (views_obj p) fun o => by cases o.fields <;> first | exact .pure _ | exact .fault _

theorem views_scheduleOf (p : ℕ) : ViewsOf S (scheduleOf p) :=
  .bind (views_obj p) fun o => by cases o.fields <;> first | exact .pure _ | exact .fault _

@[simp] theorem run_castDeref_iff {isClass : Fields → Bool} {r : Option ℕ} {p : ℕ} {w w' : World} :
    run (castDeref isClass r) w = .ok (p, w') ↔ r = some p ∧ (∃ o, w.heap.get p = some o ∧ isClass o.fields = true) ∧ w = w' := by
  simp only [castDeref, run_bind_iff, run_cast_iff]
  constructor
  · rintro ⟨r', _, ⟨rfl, ⟨rfl, rfl⟩ | ⟨q, o, rfl, ho, rfl⟩⟩, h⟩
    · simp at h
    · cases hc : isClass o.fields <;> simp [hc] at h
      obtain ⟨rfl, rfl⟩ := h
      exact ⟨rfl, ⟨o, ho, hc⟩, rfl⟩
  · rintro ⟨rfl, ⟨o, ho, hc⟩, rfl⟩
    exact ⟨some p, w, ⟨rfl, .inr ⟨p, o, rfl, ho, by simp [hc]⟩⟩, by simp⟩

theorem views_castDeref (isClass : Fields → Bool) (p : Option ℕ) : ViewsOf S (castDeref isClass p) :=
  .bind (views_cast _ _) fun r => by cases r <;> first | exact .pure _ | exact .fault _

/-! ### Tables -/

theorem views_row (acc : ℕ) : ViewsOf S (AccountsTable.row acc) := by
  refine .bind (views_getAdditionalInfo acc) fun info => .bind (views_accountType acc) fun t => ?_
  cases t with
  | student => exact .bind (views_castDeref _ _) fun p => .bind (views_studentOf p) fun _ => .pure _
  | teacher => exact .bind (views_castDeref _ _) fun p => .bind (views_teacherOf p) fun _ => .pure _
  | admin => exact .bind (views_fromDB acc) fun _ => .pure _

theorem views_updateTable (accs : List (Option ℕ)) : ViewsOf S (AccountsTable.updateTable accs) := by
  induction accs with
  | nil => exact .pure _
  | cons acc accs ih =>
    cases acc with
    | none => exact ih
    | some acc => exact .bind (views_row acc) fun _ => .bind ih fun _ => .pure _

theorem views_ungrouped (accs : List ℕ) : ViewsOf S (UngroupedAccountsTable.ungrouped accs) := by
  induction accs with
  | nil => exact .pure _
  | cons acc accs ih =>
    refine .bind (views_getAdditionalInfo acc) fun info => .bind (views_cast _ _) fun stud? => ?_
    cases stud? with
    | none => exact ih
    | some stud => exact .bind (views_getStudentGroup stud) fun _ => .ite (.bind ih fun _ => .pure _) ih

theorem views_owners (infos : List ℕ) : ViewsOf S (GroupedAccountsTable.owners infos) := by
  induction infos with
  | nil => exact .pure _
  | cons info infos ih => exact .bind (views_getStudentOwner info) fun _ => .bind ih fun _ => .pure _

theorem viewsOf_groupedAccounts {grp : Option ℕ} (hS : ∀ g, grp = some g → S g) :
    ViewsOf S (GroupedAccountsTable.getAccounts grp) := by
  cases grp with
  | none => exact .pure _
  | some g =>
    exact .bind (views_fromDB g) fun _ => .ite (.pure _) (.bind (viewsOf_getStudents (hS g rfl)) views_owners)

theorem views_groupedAccounts (grp : Option ℕ) : Views (GroupedAccountsTable.getAccounts grp) :=
  viewsOf_groupedAccounts fun _ _ => trivial

theorem views_ungroupedAccounts : ViewsOf S UngroupedAccountsTable.getAccounts := .bind (views_getAll _) views_ungrouped

theorem views_groupNames (grps : List ℕ) : ViewsOf S (groupNames grps) := by
  induction grps with
  | nil => exact .pure _
  | cons grp grps ih => exact .bind (views_groupOf grp) fun _ => .bind ih fun _ => .pure _

theorem views_groupsTable : ViewsOf S GroupsDBTable.updateTable :=
  .bind (views_getAll _) fun grps => .bind (views_groupNames grps) fun _ => .pure _

theorem views_getLessonsTypes (teacher : Option ℕ) : ViewsOf S (PosibleLessonsTable.getLessonsTypes teacher) := by
  cases teacher with
  | none => exact .pure _
  | some t => exact .bind (views_teacherOf t) fun _ => .pure _

theorem views_place (scheds : List ℕ) (schedules : ScheduleTable.Schedules) :
    ViewsOf S (ScheduleTable.place schedules scheds) := by
  induction scheds generalizing schedules with
  | nil => exact .pure _
  | cons sched scheds ih =>
    refine .bind (views_scheduleOf sched) fun s => ?_
    dsimp only
    split_ifs
    · exact ih _
    · exact .fault _

theorem views_scheduleRows (schedules : ScheduleTable.Schedules) (rows : List (Fin 8)) :
    ViewsOf S (ScheduleTable.updateTable schedules rows) := by
  induction rows with
  | nil => exact .pure _
  | cons i rows ih =>
    unfold ScheduleTable.updateTable
    cases schedules i with
    | none => exact .bind ih fun _ => .pure _
    | some sched => exact .bind (views_scheduleOf sched) fun _ => .bind ih fun _ => .pure _

theorem views_setSchedules (scheds : List ℕ) : ViewsOf S (ScheduleTable.setSchedules scheds) :=
  .bind (views_place scheds _) fun _ => .bind (views_scheduleRows _ _) fun _ => .pure _

theorem views_updateAccountsTable : ViewsOf S AdminWindow.updateAccountsTable :=
  .bind (.bind (views_getAll _) fun _ => .pure _) fun accs => .bind (views_updateTable accs) fun _ => .pure _

/-! ### Groups and schedules -/

theorem views_curators (accs : List ℕ) : ViewsOf S (AdminWindow.curators accs) := by
  induction accs with
  | nil => exact .pure _
  | cons acc accs ih =>
    refine .bind (views_getAdditionalInfo acc) fun info => .ite ?_ ih
    refine .bind (views_getAdditionalInfo acc) fun info => .bind (views_cast _ _) fun teach? => ?_
    cases teach? with
    | none => exact ih
    | some teach => exact .bind ih fun _ => .pure _

theorem views_curatorNames (curs : List ℕ) : ViewsOf S (AdminWindow.curatorNames curs) := by
  induction curs with
  | nil => exact .pure _
  | cons cur curs ih =>
    exact .bind (.bind (views_teacherOf cur) fun _ => .pure _) fun _ => .bind ih fun _ => .pure _

theorem viewsOf_chooseCurator (box : ComboBox) {grp : ℕ} (hS : S grp) :
    ViewsOf S (AdminWindow.chooseCurator box grp) := by
  have hget : ViewsOf S (GroupDB.getCurator grp) := viewsOf_getCurator hS
  refine .bind hget fun r => .ite (.bind hget fun first? => ?_) (.pure _)
  cases first? with
  | none => exact .fault _
  | some first =>
    refine .bind (views_teacherOf first) fun _ => .bind hget fun second? => ?_
    cases second? with
    | none => exact .fault _
    | some second => exact .bind (views_teacherOf second) fun _ => .pure _

theorem views_chooseCurator (box : ComboBox) (grp : ℕ) : Views (AdminWindow.chooseCurator box grp) :=
  viewsOf_chooseCurator box trivial

theorem viewsOf_setGroup (win : AdminWindow) {grp : Option ℕ} (hS : ∀ g, grp = some g → S g) :
    ViewsOf S (win.setGroup grp) := by
  refine .bind (viewsOf_groupedAccounts hS) fun accs => .bind (views_updateTable accs) fun _ =>
    .bind (views_getAll _) fun all => .bind (views_curators all) fun curs => .bind (views_curatorNames curs) fun _ => ?_
  cases grp with
  | none => exact .pure _
  | some g => exact .bind (viewsOf_chooseCurator _ (hS g rfl)) fun _ => .bind (views_groupOf g) fun _ => .pure _

theorem views_setGroup (win : AdminWindow) (grp : Option ℕ) : Views (win.setGroup grp) :=
  viewsOf_setGroup win fun _ _ => trivial

theorem viewsOf_updateGroupsScrean (win : AdminWindow) {grp : Option ℕ} (hS : ∀ g, grp = some g → S g) :
    ViewsOf S (win.updateGroupsScrean grp) :=
  .bind (viewsOf_setGroup win hS) fun _ => .bind (viewsOf_groupedAccounts hS) fun accs =>
    .bind (views_updateTable accs) fun _ => .bind views_ungroupedAccounts fun accs' =>
      .bind (views_updateTable accs') fun _ => .bind views_groupsTable fun _ => .pure _

theorem views_updateGroupsScrean (win : AdminWindow) (grp : Option ℕ) : Views (win.updateGroupsScrean grp) :=
  viewsOf_updateGroupsScrean win fun _ _ => trivial

theorem views_updateScheduleScrean (win : AdminWindow) (grp : Option ℕ) : ViewsOf S (win.updateScheduleScrean grp) := by
  refine .bind (.bind views_getAllTeachers fun _ => .pure _) fun accs => .bind (views_updateTable accs) fun _ =>
    .bind views_groupsTable fun _ => .bind (views_getLessonsTypes _) fun _ => ?_
  cases grp.or win.schGroupDB with
  | none => exact .pure _
  | some group =>
    exact .bind (views_getAllSchedulesinDate _ _) fun _ => .bind (views_setSchedules _) fun _ => .pure _

/-! ### The account form -/

theorem views_layStudent (form : DisplayAccountWidget) (filled : Bool) (addInf : Option ℕ) :
    ViewsOf S (form.layStudent filled addInf) := by
  refine .bind (views_getAll _) fun grps => .bind (views_groupNames grps) fun names => .ite ?_ (.pure _)
  refine .bind (views_castDeref _ _) fun p => .bind (views_studentOf p) fun s =>
    .bind (views_getStudentGroup p) fun r => .ite (.bind (views_getStudentGroup p) fun g? => ?_) (.pure _)
  cases g? with
  | none => exact .fault _
  | some g => exact .bind (views_groupOf g) fun _ => .pure _

theorem views_layTeacher (form : DisplayAccountWidget) (filled : Bool) (addInf : Option ℕ) :
    ViewsOf S (form.layTeacher filled addInf) :=
  .ite (.bind (views_castDeref _ _) fun p => .bind (views_teacherOf p) fun _ => .pure _) (.pure _)

theorem views_setLayoutAcc (form : DisplayAccountWidget) : ViewsOf S form.setLayoutAcc := by
  unfold DisplayAccountWidget.setLayoutAcc
  cases form.acc with
  | none =>
    cases form.type with
    | student => exact views_layStudent _ _ _
    | teacher => exact views_layTeacher _ _ _
    | admin => exact .pure _
  | some acc =>
    refine .bind (views_getAdditionalInfo acc) fun addInf => .bind (views_accountOf acc) fun a => ?_
    dsimp only
    cases form.type with
    | student => exact views_layStudent _ _ _
    | teacher => exact views_layTeacher _ _ _
    | admin => exact .pure _

theorem views_setEditType (form : DisplayAccountWidget) (type : AccountType) : ViewsOf S (form.setEditType type) :=
  .ite (.pure _) (views_setLayoutAcc _)

theorem views_setAccountDB (form : DisplayAccountWidget) (acc : Option ℕ) : ViewsOf S (form.setAccountDB acc) := by
  cases acc with
  | none => exact .bind (views_setEditType _ _) fun _ => views_setLayoutAcc _
  | some acc =>
    exact .bind (views_accountType acc) fun t => .bind (views_setEditType _ _) fun _ =>
      .bind (views_accountType acc) fun _ => views_setLayoutAcc _

theorem views_findName (text : String) (grps : List ℕ) : ViewsOf S (DisplayAccountWidget.findName text grps) := by
  induction grps with
  | nil => exact .pure _
  | cons grp grps ih => exact .bind (views_groupOf grp) fun _ => .ite (.pure _) ih

theorem views_getGroupFromEdit (form : DisplayAccountWidget) : ViewsOf S form.getGroupFromEdit :=
  .bind (views_getAll _) fun grps => views_findName _ grps

end Cbt
