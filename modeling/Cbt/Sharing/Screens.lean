import Cbt.Sharing.Entities
import Cbt.Windows.Composition

/-! Every event, call by call. An operation keeps what every id names, and so does an
assignment, which changes no class; what is composed of them therefore does. -/

namespace Cbt

open Lib.Command (Local run_bind_iff)

variable {α : Type} {K : Kind → Prop} {S : RefField → Prop} {κ : Names} {Γ : Classes}

/-- Every operation, where it writes only what it may. -/
theorem obeys_action (a : Action) (hK : ∀ k, a.writes k → K k) : Obeys K κ Γ free a.cmd := by
  have quiet {α : Type} {T : Names → Classes → α → Prop} {m : Cmd α} (hm : Obeys K κ Γ T m) :
      Obeys K κ Γ free (do let _ ← m) := .bind hm fun _ _ _ _ _ _ => Obeys.done _
  cases a with
  | getFromDB k oid t =>
    have hget : Obeys K κ Γ free (Cbt.getFromDB k oid t) :=
      .ite (fun _ => Obeys.free (obeys_infosGetFromDB oid t)) fun _ => Obeys.free (obeys_getFromDB k oid)
    exact quiet hget
  | getAll k => exact quiet (obeys_getAll k)
  | getAllTeachers => exact quiet obeys_getAllTeachers
  | getAllSchedulesinDate date grp => exact quiet (obeys_getAllSchedulesinDate date _)
  | findFullAccount l => exact quiet (obeys_findFullAccount l)
  | new x => exact quiet (obeys_newObj (by cases x <;> rfl) (by cases x <;> simp [New.fields, Fields.cls]))
  | add k e t =>
    refine quiet (T := free) (.ite (fun hk => ?_) fun hk => obeys_add (hK k ?_) e)
    · subst hk
      exact obeys_infosAdd (hK _ (.inl rfl)) (hK _ (.inr (.inl rfl))) (hK _ (.inr (.inr rfl))) e t
    · cases k <;> first | exact (hk rfl).elim | rfl
  | delete k oid => exact quiet (obeys_delete (hK k rfl) oid)
  | update k el => exact quiet (obeys_update (hK k rfl) el)
  | setRef f this v => exact obeys_setRef f this v
  | setStudents this l => exact obeys_setStudents this l
  | get g this => exact quiet (obeys_getter g this)
  | getStudents this => exact quiet (obeys_getStudents this)
  | addStudent this stud => exact quiet (obeys_addStudent (hK _ (.inl rfl)) (hK _ (.inr rfl)) this (some stud))
  | deleteStudent this stud => exact quiet (obeys_deleteStudent (hK _ (.inl rfl)) (hK _ (.inr rfl)) this (some stud))

/-- What follows a command does not matter for the calls it makes. -/
theorem obeys_of_runs {a : Action} {m : Cmd α} (ha : a.Runs m) (h : Obeys K κ Γ free a.cmd) : Obeys K κ Γ free m := by
  rw [ha] at h
  exact Lib.Command.Upholds.of_bind_pure h

theorem local_amend (p : ℕ) (f : Fields → Option Fields) : Local (amend p f) := .bind (local_obj p) fun o => by
  cases f o.fields with
  | none => exact .fault _
  | some x => exact local_setObj p _

theorem run_amend_iff {w w' : World} {p : ℕ} {f : Fields → Option Fields} {u : Unit} : run (amend p f) w = .ok (u, w') ↔
    ∃ o x, w.heap.get p = some o ∧ f o.fields = some x ∧ w.put p { o with fields := x } = w' := by
  simp only [amend, run_bind_iff, run_obj_iff]
  constructor
  · rintro ⟨o, _, ⟨ho, rfl⟩, h⟩
    cases hx : f o.fields with
    | none =>
      rw [hx] at h
      exact ((Lib.Command.run_fault_iff _).mp h).elim
    | some x =>
      rw [hx] at h
      exact ⟨o, x, ho, hx, run_setObj_iff.mp h⟩
  · rintro ⟨o, x, ho, hx, rfl⟩
    refine ⟨o, w, ⟨ho, rfl⟩, ?_⟩
    rw [hx]
    exact run_setObj_iff.mpr rfl

theorem obeys_amend (p : ℕ) {f : Fields → Option Fields} (hf : Amends f) : Obeys K κ Γ free (amend p f) := by
  refine .of_local (local_amend p f) fun κ₁ Γ₁ w u w' _ _ hw h => ?_
  obtain ⟨o, x, ho, hx, rfl⟩ := run_amend_iff.mp h
  obtain ⟨hk, hc, href, hrefs⟩ := hf _ _ hx
  have ht := (Assigned.mk ho hk hc href hrefs).wellTyped hw.wellTyped
  exact ⟨Γ₁, le_rfl, ⟨ht.of_heap rfl rfl, known_put ho rfl hc hw.known⟩, trivial⟩

theorem obeys_of_composed {m : Cmd α} (h : Composed K S m) : Obeys K κ Γ free m := by
  induction h generalizing κ Γ with
  | pure a => exact Obeys.done a
  | fault e => exact .fault e
  | bind hm hf ihm ihf => exact .bind ihm fun a _ _ _ _ _ => ihf a
  | obj p => exact Obeys.free (obeys_obj p)
  | fromDB p => exact obeys_fromDB p
  | findOne k filter => exact Obeys.free (obeys_findOne k filter)
  | amend p hf => exact obeys_amend p hf
  | act ha hK _ => exact obeys_of_runs ha (obeys_action _ hK)

/-! ### Events -/

/-- What is left of an event keeps what every id names, and writes to collections of `K` only. -/
abbrev Rest.Keeps (K : Kind → Prop) (κ : Names) (m : Rest) : Prop :=
  m.Upholds Database.serve (Call.Within K) Named (fun κ r => ∃ Γ, Owns κ Γ r.2) κ

theorem Rest.Keeps.mono {κ' : Names} {m : Rest} (hκ : κ ≤ κ') (h : Rest.Keeps K κ m) : Rest.Keeps K κ' m :=
  Lib.Program.Upholds.mono (fun _ _ _ hκ ⟨Γ, hΓ⟩ => ⟨Γ, hΓ.mono hκ⟩) hκ h

theorem keeps_idle {win : AdminWindow} {p : Process} (h : ∃ Γ, Owns κ Γ p) : Rest.Keeps K κ (.idle win p) := h

theorem keeps_fresh (date : QDate) : Rest.Keeps K κ (.fresh date) := owns_init

theorem keeps_of_obeys {m : Cmd AdminWindow} (hm : ∀ Γ, Obeys K κ Γ free m) {p : Process}
    (hp : ∃ Γ, Owns κ Γ p) : Rest.Keeps K κ (m p) := by
  obtain ⟨Γ, hp⟩ := hp
  exact (hm Γ κ Γ p le_rfl le_rfl hp).imp fun _ _ _ ⟨Γ', _, h, _⟩ => ⟨Γ', h⟩

/-- An event begins with nothing but the memory of its process. -/
theorem keeps_event {e : Event} (hK : ∀ k, e.writes k → K k) (win : AdminWindow) {p : Process} (hp : ∃ Γ, Owns κ Γ p) :
    Rest.Keeps K κ (e.cmd win p) := by
  cases e with
  | slot s => exact keeps_of_obeys (fun _ => obeys_of_composed ((composed_slot s win).mono hK fun _ h => h)) hp
  | input i => exact keeps_of_obeys (fun _ => obeys_of_composed (S := fun _ => False) (composed_input i win)) hp
  | logIn state login password date =>
    refine keeps_of_obeys (fun _ => obeys_of_composed (S := fun _ => False) (.bind (composed_logIn state ?_ _ login password) fun _ => .pure _)) hp
    rintro rfl
    exact hK _ rfl
  | call a => exact keeps_of_obeys (fun _ => .bind (obeys_action a hK) fun _ _ _ _ _ _ => Obeys.done _) hp
  | restart date => exact owns_init

end Cbt
