import Cbt.Sharing.Operations

/-! The operations that write, and those on references and students, call by call. A
new entity gets an id that names its class, an update writes what an object of the class
of its id describes, and a getter answers with what its member may designate. -/

namespace Cbt

open Lib.Command (Local run_bind_iff run_pure_iff)

variable {α : Type} {w w' : World} {k : Kind} {K : Kind → Prop} {κ : Names} {Γ : Classes}

/-! ### Writing -/

theorem obeys_anyValue (r : Option α) : Obeys K κ Γ free (value r) := obeys_value fun _ _ _ _ => trivial

theorem local_elementDoc (e : ℕ) : Local (Controller.elementDoc k e) :=
  .bind (local_obj e) fun _ => .ite (.bind (.fault _) fun _ => local_toDoc e) (local_toDoc e)

/-- A plain object describes an entity of its class, which is a concrete one. -/
theorem obeys_elementDoc (e : ℕ) :
    Obeys K κ Γ (fun κ _ d => ∃ c, c.kind = k ∧ c ≠ .additionalInfoDB ∧ κ.Describes c d) (Controller.elementDoc k e) := by
  refine .of_local (local_elementDoc e) fun κ₁ Γ₁ w d w' _ _ hw hr => ?_
  obtain ⟨x, he, hx, hd, rfl⟩ := run_elementDoc_iff.mp hr
  refine ⟨Γ₁, le_rfl, hw, x.cls, ?_, (hw.known e _ he).concrete rfl, hw.describes he hd⟩
  rw [Fields.kind_cls, hx]

theorem obeys_add (hK : K k) (e : ℕ) : Obeys K κ Γ free (Controller.add k e) := by
  refine .bind (obeys_setChanged k _) fun _ _ _ _ _ _ => .bind (obeys_elementDoc e) fun d κ₁ _ _ _ hd => ?_
  obtain ⟨c, rfl, hc, hd⟩ := hd
  refine .bind (obeys_insertOne hK hc hd) fun r _ _ _ _ _ => .bind (obeys_destroy e) fun _ _ _ _ _ _ => ?_
  cases r with
  | none => exact Obeys.done _
  | some i =>
    refine .bind (obeys_findOne c.kind _) fun r κ₂ Γ₂ _ _ hr => ?_
    have hv : Obeys K κ₂ Γ₂ (fun κ _ d => κ.Found c.kind d) (value r) := obeys_value fun d hd κ' hκ => (hr d hd).mono hκ
    refine .bind hv fun d _ _ _ _ hd => .bind (obeys_construct (Kind.kind_dbClass _ |>.symm ▸ hd)) fun p _ Γ₃ _ _ hp => ?_
    refine .bind (obeys_own p 1) fun _ _ Γ₄ _ h₄ _ => ?_
    exact .bind (obeys_pushBack ⟨_, h₄ _ _ hp, Kind.kind_dbClass _⟩) fun _ _ _ _ _ _ => Obeys.done _

theorem obeys_iterForDelete (oid : Oid) (first : ℕ) (l : List ℕ) : Obeys K κ Γ free (Controller.iterForDelete oid first l) := by
  induction l generalizing κ Γ with
  | nil => exact Obeys.done _
  | cons p rest ih => exact .bind (obeys_fromDB p) fun _ _ _ _ _ _ => .ite (fun _ => Obeys.done _) fun _ => ih

theorem obeys_delete (hK : K k) (oid : Oid) : Obeys K κ Γ free (Controller.delete k oid) := by
  refine .bind (obeys_setChanged k _) fun _ _ _ _ _ _ => .bind (obeys_cash k) fun l _ _ _ _ _ => ?_
  cases l with
  | nil => exact .fault _
  | cons first l =>
    refine .bind (obeys_iterForDelete oid first _) fun p _ _ _ _ _ => .bind (obeys_own p _) fun _ _ _ _ _ _ =>
      .bind (obeys_fromDB p) fun _ _ _ _ _ _ => ?_
    have hrest : ∀ {κ : Names} {Γ : Classes}, Obeys K κ Γ free (do
        Controller.remove k p
        return decide ((← value (← deleteOne k oid)) = 1)) :=
      .bind (obeys_remove p) fun _ _ _ _ _ _ => .bind (obeys_deleteOne hK oid) fun r _ _ _ _ _ => .bind (obeys_anyValue r) fun _ _ _ _ _ _ =>
        Obeys.done _
    exact .ite (fun _ => .bind (obeys_destroy p) fun _ _ _ _ _ _ => hrest) fun _ =>
      .bind (obeys_modifyFromDB p _ fun _ => rfl) fun _ _ _ _ _ _ => hrest

/-- The id under which `Update` writes, and what it writes. -/
def Controller.written (k : Kind) (el : ℕ) : Cmd (Oid × Doc) := do
  let o ← obj el
  if o.fields.kind ≠ k then Lib.Command.fault .badClass
  let d ← toDoc el
  return ((← fromDB el).id, d)

theorem Controller.update_eq (k : Kind) (el : ℕ) : Controller.update k el = (do
    let r ← Controller.written k el
    let a ← replaceOne k r.1 r.2
    let doc ← value (← findOne k (Doc.byId r.1))
    modifyFromDB el fun b => { b with doc := doc }
    return decide ((← value a) = 1)) := by
  simp only [Controller.update, Controller.written, bind_assoc]
  congr 1
  funext o
  split_ifs
  · rfl
  · simp only [bind_assoc, pure_bind]

theorem local_written (el : ℕ) : Local (Controller.written k el) := by
  have hrest : Local (do
      let d ← toDoc el
      return ((← fromDB el).id, d) : Cmd (Oid × Doc)) :=
    .bind (local_toDoc el) fun _ => .bind (local_fromDB el) fun _ => .pure _
  exact .bind (local_obj el) fun o => .ite (.bind (.fault _) fun _ => hrest) hrest

theorem run_written_iff {el : ℕ} {r : Oid × Doc} : run (Controller.written k el) w = .ok (r, w') ↔
    ∃ b x d, w.heap.get el = some ⟨some b, x⟩ ∧ x.kind = k ∧ x.toDoc w.heap = .ok d ∧ (b.id, ("_id", .oid b.id) :: d) = r ∧ w = w' := by
  simp only [Controller.written, run_bind_iff, run_obj_iff]
  constructor
  · rintro ⟨o, _, ⟨ho, rfl⟩, h⟩
    split_ifs at h with hk
    · simp [run_bind_iff, Lib.Command.run_fault_iff] at h
    simp only [run_bind_iff, run_toDoc_iff, run_fromDB_iff, run_pure_iff] at h
    obtain ⟨d, _, ⟨⟨o', ho', hd⟩, rfl⟩, b, _, ⟨hb, rfl⟩, rfl, rfl⟩ := h
    obtain ⟨x, hx⟩ := header_eq_ok.mp hb
    obtain rfl := Option.some.inj (ho.symm.trans ho')
    obtain rfl := Option.some.inj (ho.symm.trans hx)
    obtain ⟨d', hd', rfl⟩ := toDoc_db_iff.mp hd
    exact ⟨b, x, d', hx, not_not.mp hk, hd', rfl, rfl⟩
  · rintro ⟨b, x, d, hx, rfl, hd, rfl, rfl⟩
    refine ⟨_, w, ⟨hx, rfl⟩, ?_⟩
    simp only [ne_eq, not_true_eq_false, if_false, run_bind_iff, run_toDoc_iff, run_fromDB_iff, run_pure_iff]
    exact ⟨_, w, ⟨⟨_, hx, toDoc_db_iff.mpr ⟨d, hd, rfl⟩⟩, rfl⟩, b, w, ⟨header_eq_ok.mpr ⟨x, hx⟩, rfl⟩, rfl, rfl⟩

theorem obeys_written (el : ℕ) : Obeys K κ Γ (fun κ _ r => κ.Record k r.1 r.2) (Controller.written k el) := by
  refine .of_local (local_written el) fun κ₁ Γ₁ w r w' _ _ hw h => ?_
  obtain ⟨b, x, d, hx, hk, hd, rfl, rfl⟩ := run_written_iff.mp h
  refine ⟨Γ₁, le_rfl, hw, x.cls, d, ?_, (hw.known el _ hx).admits b rfl, hw.describes hx hd, rfl⟩
  rw [Fields.kind_cls]
  exact hk

theorem obeys_update (hK : K k) (el : ℕ) : Obeys K κ Γ free (Controller.update k el) := by
  rw [Controller.update_eq]
  refine .bind (obeys_written el) fun r _ _ _ _ hr => .bind (obeys_replaceOne hK hr) fun a _ _ _ _ _ => ?_
  refine .bind (obeys_findOne k _) fun d _ _ _ _ _ => .bind (obeys_anyValue d) fun _ _ _ _ _ _ => ?_
  exact .bind (obeys_modifyFromDB el _ fun _ => rfl) fun _ _ _ _ _ _ => .bind (obeys_anyValue a) fun _ _ _ _ _ _ => Obeys.done _

/-! ### References -/

theorem obeys_cast (isClass : Fields → Bool) (r : Option ℕ) :
    Obeys K κ Γ (plain (nullOr fun Γ p => r = some p ∧ ∃ x : Fields, Γ.cls p = some x.cls ∧ isClass x = true)) (cast isClass r) := by
  cases r with
  | none => exact obeys_null
  | some p =>
    refine .bind (obeys_obj p) fun o _ Γ₁ _ _ ho => .pure fun _ Γ₂ _ h₂ q hq => ?_
    split_ifs at hq with hc
    obtain rfl := Option.some.inj hq
    exact ⟨rfl, o.fields, h₂ _ _ ho.1, hc⟩

theorem obeys_settle (f : RefField) (this p : ℕ) : Obeys K κ Γ (plain (nullOr fun _ q => q = p)) (settle f this p) := by
  have hrest : ∀ {κ : Names} {Γ : Classes}, Obeys K κ Γ (plain (nullOr fun _ q => q = p)) (do
      assign f this .null
      return none) := .bind (obeys_assign (by simp)) fun _ _ _ _ _ _ => obeys_null
  refine .bind (obeys_fromDB p) fun _ _ _ _ _ _ => .ite (fun _ => .pure ?_) fun _ => ?_
  · exact fun _ _ _ _ q hq => (Option.some.inj hq).symm
  · exact .bind (obeys_own p _) fun _ _ _ _ _ _ => .bind (obeys_fromDB p) fun _ _ _ _ _ _ =>
      .ite (fun _ => .bind (obeys_destroy p) fun _ _ _ _ _ _ => hrest) fun _ => hrest

/-- A getter answers with what its member may designate. -/
theorem obeys_getRef {f : RefField} {key : String} {load : Oid → Cmd (Option ℕ)} (this : ℕ)
    (hl : ∀ oid κ Γ, Obeys K κ Γ (plain (nullOr fun Γ p => Γ.Fits f p)) (load oid)) :
    Obeys K κ Γ (plain (nullOr fun Γ p => Γ.Fits f p)) (getRef f key load this) := by
  have settled {κ : Names} {Γ : Classes} {p : ℕ} (hp : Γ.Fits f p) :
      Obeys K κ Γ (plain (nullOr fun Γ p => Γ.Fits f p)) (settle f this p) :=
    Lib.Command.Upholds.imp (obeys_settle f this p) fun _ _ _ _ hΓ h q hq => h q hq ▸ hp.mono hΓ
  refine .bind (obeys_obj this) fun o κ₁ Γ₁ _ _ ho => ?_
  cases hv : o.fields.ref f with
  | none => exact .fault _
  | some v =>
    cases v with
    | uninit => exact .fault _
    | «to» p => exact settled (ho.2 f p hv)
    | null =>
      refine .bind (obeys_fromDB this) fun b _ _ _ _ _ => .bind (obeys_ofExcept _) fun u κ₂ Γ₂ _ _ _ => ?_
      cases hu : u.oid? with
      | none => exact obeys_null
      | some oid =>
        refine .bind (hl oid κ₂ Γ₂) fun r κ₃ Γ₃ _ _ hr => ?_
        cases r with
        | none => exact obeys_null
        | some p =>
          have hp : Γ₃.Fits f p := hr p rfl
          exact .bind (obeys_assign fun q hq => Pointer.to.inj hq ▸ hp) fun _ _ _ _ h₄ _ => settled (hp.mono h₄)

theorem obeys_accountType (this : ℕ) : Obeys K κ Γ free (accountType this) :=
  .bind (obeys_obj this) fun o _ _ _ _ _ => by
    cases o.fields <;> first | exact Obeys.done _ | exact .fault _

theorem obeys_getterLoad (g : Getter) (this : ℕ) (oid : Oid) :
    Obeys K κ Γ (plain (nullOr fun Γ p => Γ.Fits g.field p)) (g.load this oid) := by
  have of_controller (k : Kind) (f : RefField) (hk : f.kind = k) (hf : f.kind ≠ .infos) :
      Obeys K κ Γ (plain (nullOr fun Γ p => Γ.Fits f p)) (Controller.getFromDB k oid) := by
    subst hk
    exact Lib.Command.Upholds.imp (obeys_getFromDB f.kind oid) fun _ _ _ _ _ h p hp => (h p hp).fits (.inl hf)
  have of_teachers (f : RefField) (hf : f.designates .teacherInfoDB = true) :
      Obeys K κ Γ (plain (nullOr fun Γ p => Γ.Fits f p)) (do cast Fields.isTeacher (← InfosController.getFromDB oid .teacher)) := by
    refine .bind (obeys_infosGetFromDB oid _) fun r _ _ _ _ _ => Lib.Command.Upholds.imp (obeys_cast _ r) fun _ _ _ _ _ h p hp => ?_
    obtain ⟨-, x, hx, ht⟩ := h p hp
    have hcls : x.cls = .teacherInfoDB := by cases x <;> first | rfl | cases ht
    exact ⟨.teacherInfoDB, hcls ▸ hx, hf⟩
  cases g with
  | getTeacherOwner | getStudentOwner => exact of_controller .accounts .owner rfl (by decide)
  | getStudentGroup | getScheduleGroup => exact of_controller .groups .group rfl (by decide)
  | getCurator => exact of_teachers .curator rfl
  | getTeacher => exact of_teachers .teacher rfl
  | getAdditionalInfo =>
    refine .bind (obeys_accountType this) fun t _ _ _ _ _ =>
      Lib.Command.Upholds.imp (obeys_infosGetFromDB oid t) fun _ _ _ _ _ h p hp => ?_
    exact (h p hp).fits (f := .additionalInfo) (.inr rfl)

theorem obeys_getter (g : Getter) (this : ℕ) : Obeys K κ Γ (plain (nullOr fun Γ p => Γ.Fits g.field p)) (g.call this) := by
  rw [g.call_eq]
  exact obeys_getRef this fun oid _ _ => obeys_getterLoad g this oid

/-! ### Students -/

theorem obeys_checkStudent (p : ℕ) : Obeys K κ Γ (plain fun Γ _ => Γ.cls p = some .studentInfoDB) (checkStudent p) := by
  refine .bind (obeys_obj p) fun o _ Γ₁ _ _ ho => ?_
  split_ifs with hc
  · exact .fault _
  · refine .pure fun _ Γ₂ _ h₂ => h₂ _ _ (ho.1.trans (congrArg some ?_))
    simp only [not_or, Bool.not_eq_false] at hc
    cases hx : o.fields <;> first | rfl | simp [hx, Fields.isStudent] at hc

theorem obeys_ownAll (l : List ℕ) : Obeys K κ Γ free (ownAll l) := by
  induction l generalizing κ Γ with
  | nil => exact Obeys.done _
  | cons p l ih => exact .bind (obeys_own p 1) fun _ _ _ _ _ _ => ih

theorem obeys_checkStudents (l : List ℕ) :
    Obeys K κ Γ (plain fun Γ _ => ∀ q ∈ l, Γ.cls q = some .studentInfoDB) (List.forM l checkStudent) := by
  induction l generalizing κ Γ with
  | nil => exact .pure fun _ _ _ _ q hq => by cases hq
  | cons p l ih =>
    refine .bind (obeys_checkStudent p) fun _ _ _ _ _ hp => Lib.Command.Upholds.imp ih fun _ _ _ _ hΓ hl q hq => ?_
    rcases List.mem_cons.mp hq with rfl | hq
    · exact hΓ _ _ hp
    · exact hl q hq

theorem obeys_setStudents (this : ℕ) (l : List ℕ) : Obeys K κ Γ free (Group.setStudents this l) :=
  .bind (obeys_checkStudents l) fun _ _ _ _ _ hl => .bind (obeys_assignStudents hl) fun _ _ _ _ _ _ => obeys_ownAll l

theorem obeys_addStudent (hg : K .groups) (hi : K .infos) (this : ℕ) (stud : Option ℕ) :
    Obeys K κ Γ free (GroupDB.addStudent this stud) := by
  cases stud with
  | none => exact .fault _
  | some stud =>
    refine .bind (obeys_checkStudent stud) fun _ _ Γ₁ _ _ hs => .bind (obeys_groupOf this) fun g _ Γ₂ _ h₂ hg' => ?_
    refine .bind (obeys_assignStudents fun q hq => ?_) fun _ _ _ _ _ _ => .bind (obeys_update hg this) fun _ _ _ _ _ _ =>
      .bind (obeys_setRef _ _ _) fun _ _ _ _ _ _ => .bind (obeys_update hi stud) fun _ _ _ _ _ _ =>
        .bind (obeys_own stud 1) fun _ _ _ _ _ _ => Obeys.done _
    rcases List.mem_append.mp hq with hq | hq
    · exact hg' q hq
    · exact List.mem_singleton.mp hq ▸ h₂ _ _ hs

theorem obeys_eraseFirst (id : Oid) (l : List ℕ) :
    Obeys K κ Γ (fun _ _ r => ∀ rest, r = some rest → rest ⊆ l) (GroupDB.eraseFirst id l) := by
  induction l generalizing κ Γ with
  | nil => exact .pure fun _ _ _ _ rest h => by cases h
  | cons p ps ih =>
    refine .bind (obeys_fromDB p) fun _ _ _ _ _ _ => .ite (fun _ => .pure fun _ _ _ _ rest h => ?_) fun _ => ?_
    · obtain rfl := Option.some.inj h
      exact List.subset_cons_self _ _
    · refine .bind ih fun r _ _ _ _ hr => .pure fun _ _ _ _ rest h => ?_
      obtain ⟨rest', hrest', rfl⟩ := Option.map_eq_some_iff.mp h
      exact List.cons_subset_cons _ (hr rest' hrest')

theorem obeys_deleteStudent (hg : K .groups) (hi : K .infos) (this : ℕ) (stud : Option ℕ) :
    Obeys K κ Γ free (GroupDB.deleteStudent this stud) := by
  refine .bind (obeys_groupOf this) fun g κ₁ Γ₁ _ _ hgr => ?_
  cases hl : g.students with
  | nil => exact Obeys.done _
  | cons p ps =>
    cases stud with
    | none => exact .fault _
    | some stud =>
      have hgr : ∀ q ∈ p :: ps, Γ₁.cls q = some .studentInfoDB := hl ▸ hgr
      refine .bind (obeys_checkStudent stud) fun _ _ Γ₂ _ h₂ _ => .bind (obeys_fromDB stud) fun b _ Γ₃ _ h₃ _ =>
        .bind (obeys_eraseFirst b.id (p :: ps)) fun r _ Γ₄ _ h₄ hr => ?_
      cases r with
      | none => exact Obeys.done _
      | some rest =>
        refine .bind (obeys_assignStudents fun q hq => ?_) fun _ _ _ _ _ _ => .bind (obeys_update hg this) fun _ _ _ _ _ _ =>
          .bind (obeys_setRef _ _ _) fun _ _ _ _ _ _ => .bind (obeys_update hi stud) fun _ _ _ _ _ _ =>
            .bind (obeys_own stud _) fun _ _ _ _ _ _ => Obeys.done _
        exact (h₂.trans (h₃.trans h₄)) _ _ (hgr q (hr rest rfl hq))

theorem obeys_loadStudents (this : ℕ) (vs : List Element) : Obeys K κ Γ free (GroupDB.loadStudents this vs) := by
  induction vs generalizing κ Γ with
  | nil => exact Obeys.done _
  | cons v vs ih =>
    refine .bind (obeys_ofExcept _) fun oid _ _ _ _ _ => .bind (obeys_infosGetFromDB oid _) fun r _ _ _ _ _ =>
      .bind (obeys_cast _ r) fun r' _ Γ₁ _ _ hr' => ?_
    cases r' with
    | none => exact ih
    | some res =>
      obtain ⟨-, x, hx, hs⟩ := hr' res rfl
      have hcls : x.cls = .studentInfoDB := by cases x <;> first | rfl | cases hs
      have hres : Γ₁.cls res = some .studentInfoDB := hcls ▸ hx
      refine .bind (obeys_fromDB res) fun _ _ Γ₂ _ h₂ _ => .ite (fun _ => ?_) fun _ => ih
      refine .bind (obeys_groupOf this) fun g _ Γ₃ _ h₃ hg => .bind (obeys_assignStudents fun q hq => ?_) fun _ _ _ _ _ _ => ih
      rcases List.mem_append.mp hq with hq | hq
      · exact hg q hq
      · exact List.mem_singleton.mp hq ▸ (h₂.trans h₃) _ _ hres

theorem obeys_getStudents (this : ℕ) : Obeys K κ Γ free (GroupDB.getStudents this) := by
  refine .bind (obeys_assignStudents (by simp)) fun _ _ _ _ _ _ => .bind (obeys_fromDB this) fun _ _ _ _ _ _ =>
    .bind (obeys_ofExcept _) fun v _ _ _ _ _ => ?_
  have hrest : ∀ {κ : Names} {Γ : Classes}, Obeys K κ Γ free (do return (← groupOf this).students) :=
    .bind (obeys_groupOf this) fun _ _ _ _ _ _ => Obeys.done _
  cases v with
  | array vs => exact .bind (obeys_loadStudents this vs) fun _ _ _ _ _ _ => hrest
  | _ => exact hrest

/-! ### Adding an info -/

theorem obeys_attach (ha : K .accounts) (acc : Option ℕ) {res : ℕ} (hr : Γ.In .infos res) :
    Obeys K κ Γ free (InfosController.attach acc res) := by
  cases acc with
  | none => exact .fault _
  | some acc =>
    refine .bind (obeys_setRef _ _ _) fun _ _ Γ₁ _ h₁ _ => .bind (obeys_update ha acc) fun _ _ Γ₂ _ h₂ _ => ?_
    exact .bind (obeys_pushBack (hr.mono (h₁.trans h₂))) fun _ _ _ _ _ _ => obeys_own res 1

theorem obeys_infosAdd (hi : K .infos) (ha : K .accounts) (hg : K .groups) (e : ℕ) (t : AccountType) :
    Obeys K κ Γ free (InfosController.add e t) := by
  refine .bind (obeys_setChanged _ _) fun _ _ _ _ _ _ => .bind (obeys_elementDoc e) fun d κ₁ Γ₁ _ _ hd => ?_
  obtain ⟨c, hk, hc, hd⟩ := hd
  refine .bind (obeys_destroy e) fun _ κ₂ _ hκ₂ _ _ => .bind (hk ▸ obeys_insertOne (hk.symm ▸ hi) hc (hd.mono hκ₂)) fun r _ _ _ _ _ => ?_
  cases r with
  | none => exact Obeys.done _
  | some id =>
    refine .bind (obeys_findOne .infos _) fun d' κ₃ Γ₃ _ _ hd' => ?_
    have hv : Obeys K κ₃ Γ₃ (fun κ _ d => κ.Found .infos d) (value d') := obeys_value fun d hd κ' hκ => (hd' d hd).mono hκ
    have hin {Γ Γ' : Classes} {c : DBClass} {p : ℕ} (hp : Γ.cls p = some c) (hc : c.kind = .infos) (hle : Γ ≤ Γ') :
        Γ'.In .infos p := ⟨c, hle _ _ hp, hc⟩
    cases t with
    | admin => exact Obeys.done _
    | student =>
      refine .bind hv fun d _ _ _ _ hd => .bind (obeys_construct (c := .studentInfoDB) hd) fun temp _ Γ₄ _ _ hp =>
        .bind (obeys_getter .getStudentOwner temp) fun acc _ Γ₅ _ h₅ _ => .bind (obeys_getter .getStudentGroup temp) fun r _ Γ₆ _ h₆ _ => ?_
      have hrest {κ' : Names} {Γ' : Classes} (hle : Γ₆ ≤ Γ') : Obeys K κ' Γ' free (do
          InfosController.attach acc temp
          return some temp) :=
        .bind (obeys_attach ha acc (hin hp rfl ((h₅.trans h₆).trans hle))) fun _ _ _ _ _ _ => Obeys.done _
      refine .ite (fun _ => ?_) fun _ => hrest le_rfl
      refine .bind (obeys_getter .getStudentGroup temp) fun grp _ Γ₇ _ h₇ _ => ?_
      cases grp with
      | none => exact .bind (obeys_fault _) fun _ _ _ _ h₈ _ => hrest (h₇.trans h₈)
      | some grp => exact .bind (obeys_addStudent hg hi grp _) fun _ _ _ _ h₈ _ => hrest (h₇.trans h₈)
    | teacher =>
      refine .bind hv fun d _ _ _ _ hd => .bind (obeys_construct (c := .teacherInfoDB) hd) fun temp _ Γ₄ _ _ hp =>
        .bind (obeys_getter .getTeacherOwner temp) fun acc _ Γ₅ _ h₅ _ => ?_
      exact .bind (obeys_attach ha acc (hin hp rfl h₅)) fun _ _ _ _ _ _ => Obeys.done _

end Cbt
