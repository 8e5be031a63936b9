import Cbt.Owners.Entities
import Cbt.Sharing.Interleavings

/-! Whose an info is, for any number of clients. No event but a single assignment of an
owner or of an info gives an info away: the forms assign only the owner of an info that
is not stored yet. So the account that holds an info is the same in every state that the
calls of the clients reach, in whatever order they are made. -/

namespace Cbt

open Lib (Shared)
open Lib.Command (run_bind_iff)

variable {ι α : Type} [DecidableEq ι] {S : RefField → Prop} {κ : Names} {η : Holders} {Λ : Labels} {m : Cmd α}
  {db : Database} {date : ι → QDate} {s s' : Clients ι} {as bs : List (ι × Move)}

/-! ### The windows -/

/-- The setter of an owner or of an info, by itself. -/
def Action.Gives : Action → Prop
  | .setRef f _ _ => f = .owner ∨ f = .additionalInfo
  | _ => False

theorem heeds_action (a : Action) (ha : ¬ a.Gives) : Heeds η Λ loose a.cmd := by
  have quiet {α : Type} {ty : Holders → Labels → α → Prop} {m : Cmd α} (hm : Heeds η Λ ty m) : Heeds η Λ loose (do let _ ← m) :=
    .bind hm fun _ _ _ _ _ _ => Heeds.done _
  cases a with
  | getFromDB k oid t =>
    have hget : Heeds η Λ loose (Cbt.getFromDB k oid t) :=
      .ite (fun _ => Heeds.any (heeds_infosGetFromDB oid t)) fun _ => Heeds.any (heeds_getFromDB k oid)
    exact quiet hget
  | getAll k => exact quiet (heeds_getAll k)
  | getAllTeachers => exact quiet heeds_getAllTeachers
  | getAllSchedulesinDate date grp => exact quiet (heeds_getAllSchedulesinDate date _)
  | findFullAccount l => exact quiet (heeds_findFullAccount l)
  | new x => exact quiet (heeds_newObj x.bare_fields)
  | add k e t =>
    have hadd : Heeds η Λ loose (Cbt.add k e t) := .ite (fun _ => heeds_infosAdd e t) fun _ => heeds_add e
    exact quiet hadd
  | delete k oid => exact quiet (heeds_delete k oid)
  | update k el => exact quiet (heeds_update k el)
  | setRef f this v => exact heeds_setOther (fun h => ha (.inl h)) (fun h => ha (.inr h)) this v
  | setStudents this l => exact heeds_setStudents this l
  | get g this => exact quiet (heeds_getter g this)
  | getStudents this => exact quiet (heeds_getStudents this)
  | addStudent this stud => exact quiet (heeds_addStudent this (some stud))
  | deleteStudent this stud => exact quiet (heeds_deleteStudent this (some stud))

/-- An assignment that leaves the references alone. -/
theorem heeds_amend (p : ℕ) {f : Fields → Option Fields} (hf : Amends f) : Heeds η Λ loose (amend p f) := by
  refine heeds_local (local_amend p f) fun η₁ Λ₁ w _ w' _ _ hw hr => ⟨?_, trivial⟩
  obtain ⟨o, x, ho, hx, rfl⟩ := run_amend_iff.mp hr
  obtain ⟨-, -, href, -⟩ := hf _ _ hx
  have hg := hw.obj p o ho
  exact hw.put ho rfl ⟨hg.doc, fun f q hq => hg.ref f q ((href f).symm.trans hq)⟩

/-- What is composed of operations and setters of other members. -/
theorem heeds_of_composed {K : Kind → Prop} (ho : ¬ S .owner) (ha : ¬ S .additionalInfo) (h : Composed K S m) :
    Heeds η Λ loose m := by
  induction h generalizing η Λ with
  | pure a => exact Heeds.done a
  | fault e => exact .fault e
  | bind _ _ ihm ihf => exact .bind ihm fun a _ _ _ _ _ => ihf a
  | obj p => exact Heeds.any (heeds_obj p)
  | fromDB p => exact Heeds.any (heeds_fromDB p)
  | findOne k filter => exact Heeds.any (heeds_findOne k filter)
  | amend p hf => exact heeds_amend p hf
  | @act _ a m hm _ hS =>
    have hgives : ¬ a.Gives := by
      intro hg
      cases a with
      | setRef f this v =>
        rcases hg with rfl | rfl
        · exact ho (hS _ rfl)
        · exact ha (hS _ rfl)
      | _ => exact hg
    have hcmd : Heeds η Λ loose a.cmd := heeds_action a hgives
    rw [hm] at hcmd
    exact Lib.Command.Upholds.of_bind_pure hcmd

/-- What only reads, or sets no member. -/
theorem heeds_of_idle (h : Composed (fun _ => True) (fun _ => False) m) : Heeds η Λ loose m := heeds_of_composed id id h

/-! ### The forms of accounts -/

/-- The form's info is not stored yet. -/
theorem heeds_getNewAccount (form : DisplayAccountWidget) :
    Heeds η Λ (fun _ Λ r => ∀ info, r.2 = some info → Λ.label info = some none) form.getNewAccount := by
  refine .bind (heeds_newObj rfl) fun resAcc _ _ _ _ _ => ?_
  cases form.editType with
  | student =>
    refine .bind (heeds_newObj rfl) fun s _ _ _ _ hs => .bind (heeds_of_idle (composed_getGroupFromEdit form)) fun _ _ _ _ h₁ _ => ?_
    refine .ite (fun _ => ?_) fun _ => .pure fun _ _ _ h₂ info hi => ?_
    · refine .bind (heeds_of_idle (composed_getGroupFromEdit form)) fun g _ _ _ h₂ _ => .bind (heeds_setGroup s g) fun _ _ _ _ h₃ _ =>
        .pure fun _ _ _ h₄ info hi => ?_
      obtain rfl := Option.some.inj hi
      exact (h₁.trans (h₂.trans (h₃.trans h₄))) _ _ hs
    · obtain rfl := Option.some.inj hi
      exact (h₁.trans h₂) _ _ hs
  | teacher =>
    refine .bind (heeds_newObj rfl) fun t _ _ _ _ ht => .pure fun _ _ _ h₁ info hi => ?_
    obtain rfl := Option.some.inj hi
    exact h₁ _ _ ht
  | admin => exact .pure fun _ _ _ _ info hi => by cases hi

theorem heeds_getAccountForDBUpdate (form : DisplayAccountWidget) :
    Heeds η Λ (fun _ Λ r => ∀ info, r.2.2 = some info → Λ.label info = some none) form.getAccountForDBUpdate := by
  unfold DisplayAccountWidget.getAccountForDBUpdate
  cases form.acc with
  | none => exact .fault _
  | some acc =>
    refine .bind (heeds_of_idle (composed_assignAccount acc _ _ _)) fun _ _ _ _ _ _ =>
      .bind (heeds_getter .getAdditionalInfo acc) fun prev _ _ _ _ _ => ?_
    cases form.editType with
    | student =>
      refine .bind (heeds_newObj rfl) fun s _ _ _ _ hs => .bind (heeds_of_idle (composed_getGroupFromEdit form)) fun g _ _ _ h₁ _ =>
        .bind (heeds_setGroup s g) fun _ _ _ _ h₂ _ => .pure fun _ _ _ h₃ info hi => ?_
      obtain rfl := Option.some.inj hi
      exact (h₁.trans (h₂.trans h₃)) _ _ hs
    | teacher =>
      refine .bind (heeds_newObj rfl) fun t _ _ _ _ ht => .pure fun _ _ _ h₁ info hi => ?_
      obtain rfl := Option.some.inj hi
      exact h₁ _ _ ht
    | admin => exact .pure fun _ _ _ _ info hi => by cases hi

/-- The owner of the form's info is set before the info is stored. -/
theorem heeds_addNewAccount (win : AdminWindow) : Heeds η Λ loose win.addNewAccount := by
  refine .bind (heeds_getNewAccount _) fun data _ _ _ _ hd => .bind (heeds_add _) fun res _ _ _ h₁ _ => ?_
  have hrest {η : Holders} {Λ : Labels} : Heeds η Λ loose (do
      AdminWindow.updateAccountsTable
      win.updateGroupsScrean none) :=
    heeds_of_idle (.bind composed_updateAccountsTable fun _ => composed_updateGroupsScrean win none)
  cases hinfo : data.2 with
  | none => exact hrest
  | some info =>
    refine .bind (heeds_setOwner (h₁ _ _ (hd info hinfo)) _) fun _ _ _ _ _ _ => ?_
    cases res with
    | none => exact .bind (heeds_fault _) fun _ _ _ _ _ _ => hrest
    | some res =>
      exact .bind (heeds_accountType res) fun t _ _ _ _ _ => .bind (heeds_infosAdd info t) fun _ _ _ _ _ _ => hrest

theorem heeds_updateAccount (win : AdminWindow) : Heeds η Λ loose win.updateAccount := by
  refine .bind (heeds_getAccountForDBUpdate _) fun data _ _ _ _ hd => .bind (heeds_update .accounts _) fun _ _ _ _ h₁ _ => ?_
  have hrest {η : Holders} {Λ : Labels} : Heeds η Λ loose (do
      AdminWindow.updateAccountsTable
      return win) := heeds_of_idle (.bind composed_updateAccountsTable fun _ => .pure _)
  obtain ⟨acc, prev, new⟩ := data
  have hadd {η : Holders} {Λ : Labels} (info : ℕ) (hi : Λ.label info = some none) : Heeds η Λ loose (do
      AdditionalInfo.setOwner info (some acc)
      let _ ← InfosController.add info (← accountType acc)
      AdminWindow.updateAccountsTable
      return win) :=
    .bind (heeds_setOwner hi _) fun _ _ _ _ _ _ => .bind (heeds_accountType _) fun t _ _ _ _ _ =>
      .bind (heeds_infosAdd info t) fun _ _ _ _ _ _ => hrest
  cases prev with
  | none =>
    cases new with
    | none => exact hrest
    | some info => exact hadd info (h₁ _ _ (hd info rfl))
  | some prev =>
    refine .bind (heeds_fromDB prev) fun _ _ _ _ h₂ _ => .bind (heeds_delete .infos _) fun _ _ _ _ h₃ _ => ?_
    cases new with
    | none => exact hrest
    | some info => exact hadd info ((h₁.trans (h₂.trans h₃)) _ _ (hd info rfl))

theorem heeds_slot (slot : Slot) (win : AdminWindow) : Heeds η Λ loose (slot.cmd win) := by
  by_cases hs : slot.sets .owner
  · cases slot with
    | addNewAccount => exact heeds_addNewAccount win
    | updateAccount => exact heeds_updateAccount win
    | _ => simp [Slot.sets] at hs
  · exact heeds_of_composed hs (by cases slot <;> simp [Slot.sets]) (composed_slot slot win)

/-! ### Events -/

/-- A single setter of an owner or of an info. -/
def Event.Gives : Event → Prop
  | .call a => a.Gives
  | _ => False

/-- What is left of an event leaves to every account what it holds. -/
abbrev Rest.Heeds (η : Holders) (m : Rest) : Prop :=
  m.Upholds Database.serve (fun _ => True) Granted (fun η r => ∃ Λ, Linked η Λ r.2) η

theorem rest_of_heeds {m : Cmd AdminWindow} (hm : ∀ Λ, Heeds η Λ loose m) {p : Process} (hp : ∃ Λ, Linked η Λ p) :
    Rest.Heeds η (m p) := by
  obtain ⟨Λ, hp⟩ := hp
  exact (hm Λ η Λ p le_rfl le_rfl hp).imp fun _ _ _ ⟨Λ', _, h, _⟩ => ⟨Λ', h⟩

theorem heeds_event {e : Event} (he : ¬ e.Gives) (win : AdminWindow) {p : Process} (hp : ∃ Λ, Linked η Λ p) :
    Rest.Heeds η (e.cmd win p) := by
  cases e with
  | slot slot => exact rest_of_heeds (fun _ => heeds_slot slot win) hp
  | input i => exact rest_of_heeds (fun _ => heeds_of_idle (composed_input i win)) hp
  | logIn state login password date =>
    exact rest_of_heeds (fun _ => heeds_of_idle (.bind (composed_logIn state (fun _ => trivial) _ login password) fun _ => .pure _)) hp
  | call a => exact rest_of_heeds (fun _ => .bind (heeds_action a he) fun _ _ _ _ _ _ => Heeds.done _) hp
  | restart date => exact ⟨_, linked_init⟩

theorem Move.Step.granted {a : Move} {w w' : Lib.Conf Database Rest} (h : a.Step w w') (hdb : Granted η w.env)
    (hm : Rest.Heeds η w.mem) (ha : ∀ e, a = .begin e → ¬ e.Gives) : ∃ η', η ≤ η' ∧ Granted η' w'.env ∧ Rest.Heeds η' w'.mem := by
  cases h with
  | @begin e db win p => exact ⟨η, le_rfl, hdb, heeds_event (ha e rfl) win hm⟩
  | next h => exact (Lib.Program.Upholds.next hm hdb h).1
  | restart => exact ⟨η, le_rfl, hdb, _, linked_init⟩

/-! ### Every run -/

/-- Clients all of whose documents and objects agree about the accounts that hold infos. -/
abbrev Clients.Granted (η : Holders) (s : Clients ι) : Prop := Shared.At Cbt.Granted Rest.Heeds η s

theorem Clients.Granted.run (h : Clients.Granted η s) (hr : Clients.Run (fun e => ¬ e.Gives) s as s') :
    ∃ η', η ≤ η' ∧ Clients.Granted η' s' := by
  have hmono : ∀ (η η' : Holders) (m : Rest), η ≤ η' → Rest.Heeds η m → Rest.Heeds η' m := fun _ _ _ hη =>
    Lib.Program.Upholds.mono (fun _ _ _ hη ⟨Λ, hΛ⟩ => ⟨Λ, hΛ.mono hη⟩) hη
  exact h.after hmono (fun _ _ _ _ hdb hm ha hs => hs.granted hdb hm ha) hr

/-- No info is held by two accounts. -/
def Database.Parted (db : Database) : Prop := ∀ a a' i, db.Holds a i → db.Holds a' i → a' = a

theorem Granted.account {a i : Oid} (h : Granted η db) (ha : db.Holds a i) : η.account i = some a := by
  rcases ha with ⟨d, hd, hi⟩ | ⟨d, hd, ho⟩
  · exact h.agrees .accounts a d hd .additionalInfo i hi
  · exact h.agrees .infos i d hd .owner a ho

/-- In a database that names what its documents are, the accounts that hold infos are determined. -/
theorem Named.granted (h : Named κ db) (hp : db.Parted) : ∃ η, Granted η db := by
  classical
  refine ⟨⟨fun i => if ha : ∃ a, db.Holds a i then some ha.choose else none⟩, fun k i d hd f j hj => ?_, fun i a hi => ?_⟩
  · have haccount {a i : Oid} (ha : db.Holds a i) : (if ha : ∃ a, db.Holds a i then some ha.choose else none) = some a := by
      have hex : ∃ a, db.Holds a i := ⟨a, ha⟩
      rw [dif_pos hex, hp a hex.choose i ha hex.choose_spec]
    obtain ⟨⟨c, rfl, hf⟩, -⟩ := h.member_ref hd hj
    cases f with
    | additionalInfo =>
      obtain rfl : c = .accountDB := by cases c <;> simp [DBClass.refs] at hf ⊢
      exact haccount (.inl ⟨d, hd, hj⟩)
    | owner =>
      have hk : c.kind = .infos := by cases c <;> first | rfl | simp [DBClass.refs] at hf
      exact haccount (.inr ⟨d, hk ▸ hd, hj⟩)
    | curator | group | teacher => trivial
  · have hi : ∃ a, db.Holds a i := by
      by_contra hn
      rw [show (Holders.mk _).account i = _ from dif_neg hn] at hi
      cases hi
    obtain ⟨a', ⟨d, hd, hj⟩ | ⟨d, hd, -⟩⟩ := hi
    · obtain ⟨c, hc, -⟩ := h.ref (f := .additionalInfo) hd hj
      exact h.given i c hc
    · exact db.fresh .infos i d hd

/-- The account that holds an info holds it in every later state, and no other account does. -/
theorem holder_fixed {a a' i : Oid} (hdb : Named κ db) (hp : db.Parted)
    (hr : Clients.Run (fun e => ¬ e.Gives) (Clients.start db date) as s) (hr' : Clients.Run (fun e => ¬ e.Gives) s bs s')
    (ha : s.env.Holds a i) (ha' : s'.env.Holds a' i) : a' = a := by
  obtain ⟨η, hη⟩ := hdb.granted hp
  have h₀ : Clients.Granted η (Clients.start db date) := ⟨hη, fun _ => ⟨_, linked_init⟩⟩
  obtain ⟨η₁, -, h₁⟩ := h₀.run hr
  obtain ⟨η₂, hle, h₂⟩ := h₁.run hr'
  exact Option.some.inj ((h₂.env.account ha').symm.trans (hle i a (h₁.env.account ha)))

/-- A database without documents. -/
theorem parted_empty : Database.empty.Parted := by
  rintro a a' i (⟨d, hd, -⟩ | ⟨d, hd, -⟩) <;> cases hd

/-- Two administrators add an account each at the same time, and one of them ends before its account has taken the info. -/
theorem holder_fixed_two : ∃ s s' : Clients Bool, s.env.Holds 0 2 ∧ ¬ (∃ win p, s.mem true = .idle win p) ∧
    (s'.env.get? .infos 3).bind (fun d => d.get? "Owner") = some (.oid 1) ∧
      (s'.env.get? .accounts 0).bind (fun d => d.get? "AdditionalInfo") = some (.oid 2) ∧ ∀ a, s'.env.Holds a 2 → a = 0 := by
  have hplay : (Clients.play [(false, .begin (.input (.type .teacher))), (true, .begin (.input (.type .teacher))),
      (false, .begin (.slot .addNewAccount)), (true, .begin (.slot .addNewAccount)), (false, .next), (true, .next), (false, .next),
      (true, .next), (false, .next), (true, .next)] twoStart).any (fun s => (s.mem true).isIdle = false ∧
        (s.env.get? .infos 2).bind (fun d => d.get? "Owner") = some (.oid 0) ∧
          (Clients.play [(true, .restart (.fromJulianDay 0)), (false, .next), (false, .next)] s).any (fun s' =>
            (s'.env.get? .infos 3).bind (fun d => d.get? "Owner") = some (.oid 1) ∧
              (s'.env.get? .accounts 0).bind (fun d => d.get? "AdditionalInfo") = some (.oid 2))) = true := by decide +kernel
  obtain ⟨s, hs, hp⟩ := Option.any_eq_true .. |>.mp hplay
  obtain ⟨hbusy, h₀, hp'⟩ := of_decide_eq_true hp
  obtain ⟨s', hs', hp'⟩ := Option.any_eq_true .. |>.mp hp'
  obtain ⟨h₁, h₂⟩ := of_decide_eq_true hp'
  have hholds : s.env.Holds 0 2 := .inr (Option.bind_eq_some_iff.mp h₀)
  have hr : Clients.Run (fun e => ¬ e.Gives) twoStart _ s := Clients.run_of_play (by simp [Event.Gives]) hs
  have hr' : Clients.Run (fun e => ¬ e.Gives) s _ s' := Clients.run_of_play (by simp) hs'
  refine ⟨s, s', hholds, ?_, h₁, h₂, fun a ha => holder_fixed named_empty parted_empty hr hr' hholds ha⟩
  rw [← Rest.isIdle_iff, hbusy]
  exact Bool.false_ne_true

end Cbt
