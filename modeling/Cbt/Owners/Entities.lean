import Cbt.Owners.Operations

/-! The operations that write, and those on references and students, as far as they say
whose an info is. A getter leads from an account to an info it holds and back; `Add` of
the infos gives a new info to the account that the stored document names as its owner. -/

namespace Cbt

open Lib.Command (run_bind_iff run_pure_iff)

variable {α : Type} {w w' : World} {k : Kind} {f : RefField} {i : Oid} {η : Holders} {Λ : Labels}

/-! ### Writing -/

/-- A plain object writes no `_id`, and no info. -/
theorem heeds_elementDoc (e : ℕ) : Heeds η Λ (fun _ _ d => d.Plain) (Controller.elementDoc k e) := by
  refine heeds_local (local_elementDoc e) fun η₁ Λ₁ w d w' _ _ hw hr => ?_
  obtain ⟨x, he, -, hd, rfl⟩ := run_elementDoc_iff.mp hr
  refine ⟨hw, ?_, fun i hi => ?_⟩
  · obtain ⟨ref, m, -, rfl⟩ := toDoc_eq_ok.mp hd
    cases x <;> simp [Fields.written]
  · exact absurd rfl (hw.names he hd hi)

theorem heeds_add (e : ℕ) : Heeds η Λ loose (Controller.add k e) := by
  refine .bind (heeds_setChanged k _) fun _ _ _ _ _ _ => .bind (heeds_elementDoc e) fun d _ _ _ _ hd => ?_
  refine .bind (heeds_insertOne hd) fun r _ _ _ _ _ => .bind (heeds_destroy e) fun _ _ _ _ _ _ => ?_
  cases r with
  | none => exact Heeds.done _
  | some id =>
    refine .bind (heeds_findById k id) fun r η₁ Λ₁ _ _ hr => ?_
    have hv : Heeds η₁ Λ₁ (fun η _ d => d.get? "_id" = some (.oid id) ∧ η.Agrees id d) (value r) :=
      heeds_value fun d hd _ hη => ⟨(hr d hd).1, (hr d hd).2.mono hη⟩
    refine .bind hv fun d _ _ _ _ hd => .bind (heeds_construct hd.1 hd.2) fun p _ _ _ _ _ => ?_
    exact .bind (heeds_own p 1) fun _ _ _ _ _ _ => .bind (heeds_pushBack p) fun _ _ _ _ _ _ => Heeds.done _

theorem heeds_iterForDelete (oid : Oid) (first : ℕ) (l : List ℕ) : Heeds η Λ loose (Controller.iterForDelete oid first l) := by
  induction l generalizing η Λ with
  | nil => exact Heeds.done _
  | cons p rest ih => exact .bind (heeds_fromDB p) fun _ _ _ _ _ _ => .ite (fun _ => Heeds.done _) fun _ => ih

theorem heeds_delete (k : Kind) (oid : Oid) : Heeds η Λ loose (Controller.delete k oid) := by
  refine .bind (heeds_setChanged k _) fun _ _ _ _ _ _ => .bind (heeds_cash k) fun l _ _ _ _ _ => ?_
  cases l with
  | nil => exact .fault _
  | cons first l =>
    refine .bind (heeds_iterForDelete oid first _) fun p _ _ _ _ _ => .bind (heeds_own p _) fun _ _ _ _ _ _ =>
      .bind (heeds_fromDB p) fun _ _ _ _ _ _ => ?_
    have hrest {η : Holders} {Λ : Labels} : Heeds η Λ loose (do
        Controller.remove k p
        return decide ((← value (← deleteOne k oid)) = 1)) :=
      .bind (heeds_remove p) fun _ _ _ _ _ _ => .bind (heeds_deleteOne k oid) fun r _ _ _ _ _ =>
        .bind (heeds_anyValue r) fun _ _ _ _ _ _ => Heeds.done _
    exact .ite (fun _ => .bind (heeds_destroy p) fun _ _ _ _ _ _ => hrest) fun _ =>
      .bind (heeds_modifyFromDB (fun _ => rfl) fun _ _ _ _ _ _ h => h) fun _ _ _ _ _ _ => hrest

/-- What `Update` writes agrees with the id it writes it under. -/
theorem heeds_written (el : ℕ) : Heeds η Λ (fun η Λ r => Λ.label el = some (some r.1) ∧ r.2.get? "_id" = some (.oid r.1) ∧
    η.Agrees r.1 r.2) (Controller.written k el) := by
  refine heeds_local (local_written el) fun η₁ Λ₁ w r w' _ _ hw hr => ?_
  obtain ⟨b, x, d, hx, -, hd, rfl, rfl⟩ := run_written_iff.mp hr
  refine ⟨hw, hw.label el _ hx, by simp, fun f j hj => ?_⟩
  rw [Doc.get?_cons, if_neg (by cases f <;> decide)] at hj
  exact hw.names hx hd hj

theorem heeds_update (k : Kind) (el : ℕ) : Heeds η Λ loose (Controller.update k el) := by
  rw [Controller.update_eq]
  refine .bind (heeds_written el) fun r _ _ _ _ hr => .bind (heeds_replaceOne hr.2.1 hr.2.2) fun a _ _ _ h₁ _ => ?_
  refine .bind (heeds_findById k r.1) fun d η₂ Λ₂ _ h₂ hd => ?_
  have hv : Heeds η₂ Λ₂ (fun η _ d => η.Agrees r.1 d) (value d) := heeds_value fun d' hd' _ hη => (hd d' hd').2.mono hη
  refine .bind hv fun d' _ _ _ h₃ hd' => .bind (heeds_refresh ?_ hd') fun _ _ _ _ _ _ => ?_
  · exact (h₁.trans (h₂.trans h₃)) _ _ hr.1
  · exact .bind (heeds_anyValue a) fun _ _ _ _ _ _ => Heeds.done _

/-! ### References -/

/-- A setter of a member that says nothing about infos and accounts. -/
theorem heeds_setOther (ho : f ≠ .owner) (ha : f ≠ .additionalInfo) (this : ℕ) (v : Option ℕ) :
    Heeds η Λ loose (setRef f this v) :=
  heeds_setRef fun _ _ _ l j _ _ _ _ _ => Holders.links_other ho ha l j

/-- The owner of an info that is not stored yet. -/
theorem heeds_setOwner {this : ℕ} (ht : Λ.label this = some none) (v : Option ℕ) :
    Heeds η Λ loose (AdditionalInfo.setOwner this v) := by
  refine heeds_setRef fun η₁ Λ₁ q l j _ hΛ _ hl _ => ?_
  obtain rfl : none = l := by simpa using (hΛ _ _ ht).symm.trans hl
  exact RefField.noConfusion

theorem heeds_cast (isClass : Fields → Bool) (r : Option ℕ) : Heeds η Λ (fun _ _ r' => ∀ p, r' = some p → r = some p) (cast isClass r) := by
  cases r with
  | none => exact .pure fun _ _ _ _ p hp => by cases hp
  | some p =>
    refine .bind (heeds_obj p) fun o _ _ _ _ _ => .pure fun _ _ _ _ q hq => ?_
    split_ifs at hq
    exact hq

theorem heeds_settle (f : RefField) (this p : ℕ) : Heeds η Λ (fun _ _ r => ∀ q, r = some q → q = p) (settle f this p) := by
  have hrest {η : Holders} {Λ : Labels} : Heeds η Λ (fun _ _ r => ∀ q, r = some q → q = p) (do
      assign f this .null
      return none) :=
    .bind (heeds_assign fun q hq => by cases hq) fun _ _ _ _ _ _ => .pure fun _ _ _ _ q hq => by cases hq
  refine .bind (heeds_fromDB p) fun _ _ _ _ _ _ => .ite (fun _ => .pure ?_) fun _ => ?_
  · exact fun _ _ _ _ q hq => (Option.some.inj hq).symm
  · exact .bind (heeds_own p _) fun _ _ _ _ _ _ => .bind (heeds_fromDB p) fun _ _ _ _ _ _ =>
      .ite (fun _ => .bind (heeds_destroy p) fun _ _ _ _ _ _ => hrest) fun _ => hrest

/-- Null, or the address of an object that a member of another object may point to. -/
abbrev ledBy (f : RefField) (this : ℕ) : Holders → Labels → Option ℕ → Prop :=
  fun η Λ r => ∀ p, r = some p → ∃ l, Λ.label this = some l ∧ η.Leads Λ f l p

/-- A getter answers with what its member may point to. -/
theorem heeds_getRef {key : String} {load : Oid → Cmd (Option ℕ)} (this : ℕ)
    (hkey : f = .owner ∨ f = .additionalInfo → key = f.key) (hl : ∀ oid η Λ, Heeds η Λ (ofEntity oid) (load oid)) :
    Heeds η Λ (ledBy f this) (getRef f key load this) := by
  have settled {η : Holders} {Λ : Labels} {p : ℕ} {l : Option Oid} (ht : Λ.label this = some l) (hp : η.Leads Λ f l p) :
      Heeds η Λ (ledBy f this) (settle f this p) :=
    Lib.Command.Upholds.imp (heeds_settle f this p) fun _ _ _ hη hΛ h q hq => ⟨l, hΛ _ _ ht, h q hq ▸ hp.mono hη hΛ⟩
  refine .bind (heeds_obj this) fun o _ _ _ _ ho => ?_
  obtain ⟨l, ht, href⟩ := ho
  cases hv : o.fields.ref f with
  | none => exact .fault _
  | some v =>
    cases v with
    | uninit => exact .fault _
    | «to» p => exact settled ht (href f p hv)
    | null =>
      refine .bind (heeds_fromDB this) fun b η₁ _ _ _ hb => .bind (heeds_ofExcept _) fun u _ _ h₂ h₂' hu => ?_
      cases hoid : u.oid? with
      | none => exact .pure fun _ _ _ _ p hp => by cases hp
      | some oid =>
        obtain rfl := Bson.oid?_eq_some.mp hoid
        -- the document of the object names the entity that is looked for
        have hlinks : η₁.Links f (some b.id) (some oid) := by
          by_cases hf : f = .owner ∨ f = .additionalInfo
          · exact hb.2 f oid (hkey hf ▸ Doc.elem_eq_ok.mp hu)
          · exact Holders.links_other (fun h => hf (.inl h)) (fun h => hf (.inr h)) _ _
        refine .bind (hl oid _ _) fun r _ _ h₃ h₃' hr => ?_
        cases r with
        | none => exact .pure fun _ _ _ _ p hp => by cases hp
        | some p =>
          have ht' := (h₂'.trans h₃') _ _ hb.1
          have hlead : Holders.Leads _ _ f (some b.id) p := ⟨_, hr p rfl, hlinks.mono (h₂.trans h₃)⟩
          refine .bind (heeds_assign fun q hq => ?_) fun _ _ _ h₄ h₄' _ => settled (h₄' _ _ ht') (hlead.mono h₄ h₄')
          obtain rfl := Pointer.to.inj hq
          exact ⟨_, ht', hlead⟩

theorem heeds_accountType (this : ℕ) : Heeds η Λ loose (accountType this) :=
  .bind (heeds_obj this) fun o _ _ _ _ _ => by
    cases o.fields <;> first | exact Heeds.done _ | exact .fault _

theorem heeds_getterLoad (g : Getter) (this : ℕ) (oid : Oid) : Heeds η Λ (ofEntity oid) (g.load this oid) := by
  have of_teachers : Heeds η Λ (ofEntity oid) (do cast Fields.isTeacher (← InfosController.getFromDB oid .teacher)) :=
    .bind (heeds_infosGetFromDB oid _) fun r _ _ _ _ hr =>
      Lib.Command.Upholds.imp (heeds_cast _ r) fun _ _ _ _ hΛ h p hp => hΛ _ _ (hr p (h p hp))
  cases g with
  | getTeacherOwner | getStudentOwner => exact heeds_getFromDB .accounts oid
  | getStudentGroup | getScheduleGroup => exact heeds_getFromDB .groups oid
  | getCurator | getTeacher => exact of_teachers
  | getAdditionalInfo => exact .bind (heeds_accountType this) fun t _ _ _ _ _ => heeds_infosGetFromDB oid t

theorem heeds_getter (g : Getter) (this : ℕ) : Heeds η Λ (ledBy g.field this) (g.call this) := by
  rw [g.call_eq]
  refine heeds_getRef this (fun hf => (Getter.field_key ?_).symm) fun oid _ _ => heeds_getterLoad g this oid
  rintro rfl
  exact hf.elim RefField.noConfusion RefField.noConfusion

/-! ### Students -/

theorem heeds_checkStudent (p : ℕ) : Heeds η Λ loose (checkStudent p) :=
  .bind (heeds_obj p) fun _ _ _ _ _ _ => .ite (fun _ => .fault _) fun _ => Heeds.done _

theorem heeds_ownAll (l : List ℕ) : Heeds η Λ loose (ownAll l) := by
  induction l generalizing η Λ with
  | nil => exact Heeds.done _
  | cons p l ih => exact .bind (heeds_own p 1) fun _ _ _ _ _ _ => ih

theorem heeds_checkStudents (l : List ℕ) : Heeds η Λ loose (List.forM l checkStudent) := by
  induction l generalizing η Λ with
  | nil => exact Heeds.done _
  | cons p l ih => exact .bind (heeds_checkStudent p) fun _ _ _ _ _ _ => ih

theorem heeds_setStudents (this : ℕ) (l : List ℕ) : Heeds η Λ loose (Group.setStudents this l) :=
  .bind (heeds_checkStudents l) fun _ _ _ _ _ _ => .bind (heeds_assignStudents this l) fun _ _ _ _ _ _ => heeds_ownAll l

theorem heeds_setGroup (stud : ℕ) (v : Option ℕ) : Heeds η Λ loose (StudentInfo.setGroup stud v) :=
  heeds_setOther RefField.noConfusion RefField.noConfusion stud v

theorem heeds_addStudent (this : ℕ) (stud : Option ℕ) : Heeds η Λ loose (GroupDB.addStudent this stud) := by
  cases stud with
  | none => exact .fault _
  | some stud =>
    refine .bind (heeds_checkStudent stud) fun _ _ _ _ _ _ => .bind (heeds_groupOf this) fun g _ _ _ _ _ => ?_
    exact .bind (heeds_assignStudents this _) fun _ _ _ _ _ _ => .bind (heeds_update .groups this) fun _ _ _ _ _ _ =>
      .bind (heeds_setGroup stud _) fun _ _ _ _ _ _ => .bind (heeds_update .infos stud) fun _ _ _ _ _ _ =>
        .bind (heeds_own stud 1) fun _ _ _ _ _ _ => Heeds.done _

theorem heeds_eraseFirst (id : Oid) (l : List ℕ) : Heeds η Λ loose (GroupDB.eraseFirst id l) := by
  induction l generalizing η Λ with
  | nil => exact Heeds.done _
  | cons p ps ih =>
    exact .bind (heeds_fromDB p) fun _ _ _ _ _ _ => .ite (fun _ => Heeds.done _) fun _ => .bind ih fun _ _ _ _ _ _ => Heeds.done _

theorem heeds_deleteStudent (this : ℕ) (stud : Option ℕ) : Heeds η Λ loose (GroupDB.deleteStudent this stud) := by
  refine .bind (heeds_groupOf this) fun g _ _ _ _ _ => ?_
  cases g.students with
  | nil => exact Heeds.done _
  | cons p ps =>
    cases stud with
    | none => exact .fault _
    | some stud =>
      refine .bind (heeds_checkStudent stud) fun _ _ _ _ _ _ => .bind (heeds_fromDB stud) fun b _ _ _ _ _ =>
        .bind (heeds_eraseFirst b.id (p :: ps)) fun r _ _ _ _ _ => ?_
      cases r with
      | none => exact Heeds.done _
      | some rest =>
        exact .bind (heeds_assignStudents this rest) fun _ _ _ _ _ _ => .bind (heeds_update .groups this) fun _ _ _ _ _ _ =>
          .bind (heeds_setGroup stud _) fun _ _ _ _ _ _ => .bind (heeds_update .infos stud) fun _ _ _ _ _ _ =>
            .bind (heeds_own stud _) fun _ _ _ _ _ _ => Heeds.done _

theorem heeds_loadStudents (this : ℕ) (vs : List Element) : Heeds η Λ loose (GroupDB.loadStudents this vs) := by
  induction vs generalizing η Λ with
  | nil => exact Heeds.done _
  | cons v vs ih =>
    refine .bind (heeds_ofExcept _) fun oid _ _ _ _ _ => .bind (heeds_infosGetFromDB oid _) fun r _ _ _ _ _ =>
      .bind (heeds_cast _ r) fun r' _ _ _ _ _ => ?_
    cases r' with
    | none => exact ih
    | some res =>
      refine .bind (heeds_fromDB res) fun _ _ _ _ _ _ => .ite (fun _ => ?_) fun _ => ih
      exact .bind (heeds_groupOf this) fun g _ _ _ _ _ => .bind (heeds_assignStudents this _) fun _ _ _ _ _ _ => ih

theorem heeds_getStudents (this : ℕ) : Heeds η Λ loose (GroupDB.getStudents this) := by
  refine .bind (heeds_assignStudents this []) fun _ _ _ _ _ _ => .bind (heeds_fromDB this) fun _ _ _ _ _ _ =>
    .bind (heeds_ofExcept _) fun v _ _ _ _ _ => ?_
  have hrest {η : Holders} {Λ : Labels} : Heeds η Λ loose (do return (← groupOf this).students) :=
    .bind (heeds_groupOf this) fun _ _ _ _ _ _ => Heeds.done _
  cases v with
  | array vs => exact .bind (heeds_loadStudents this vs) fun _ _ _ _ _ _ => hrest
  | _ => exact hrest

/-! ### Adding an info -/

/-- The owner takes an info that was given to it. -/
theorem heeds_attach {acc : Option ℕ} {res : ℕ} (hres : Λ.label res = some (some i)) (hacc : ledBy .owner res η Λ acc) :
    Heeds η Λ loose (InfosController.attach acc res) := by
  cases acc with
  | none => exact .fault _
  | some acc =>
    obtain ⟨l, hl, l', hl', hlinks⟩ := hacc acc rfl
    obtain rfl : some i = l := by simpa using hres.symm.trans hl
    cases l' with
    | none => exact hlinks.elim
    | some a =>
      refine .bind (heeds_setRef fun η₁ Λ₁ q l j hη hΛ hq hla hlq => ?_) fun _ _ _ _ _ _ => ?_
      · obtain rfl := Option.some.inj hq
        obtain rfl : some a = l := by simpa using (hΛ _ _ hl').symm.trans hla
        obtain rfl : i = j := by simpa using (hΛ _ _ hres).symm.trans hlq
        exact hη i a hlinks
      · exact .bind (heeds_update .accounts acc) fun _ _ _ _ _ _ => .bind (heeds_pushBack res) fun _ _ _ _ _ _ => heeds_own res 1

theorem ledBy_mono {η' : Holders} {Λ' : Labels} {this : ℕ} {r : Option ℕ} (hη : η ≤ η') (hΛ : Λ ≤ Λ') (h : ledBy f this η Λ r) :
    ledBy f this η' Λ' r := by
  intro p hp
  obtain ⟨l, hl, hlead⟩ := h p hp
  exact ⟨l, hΛ _ _ hl, hlead.mono hη hΛ⟩

theorem heeds_infosAdd (e : ℕ) (t : AccountType) : Heeds η Λ loose (InfosController.add e t) := by
  refine .bind (heeds_setChanged _ _) fun _ _ _ _ _ _ => .bind (heeds_elementDoc e) fun d _ _ _ _ hd => ?_
  refine .bind (heeds_destroy e) fun _ _ _ _ _ _ => .bind (heeds_insertOne hd) fun r _ _ _ _ _ => ?_
  cases r with
  | none => exact Heeds.done _
  | some id =>
    refine .bind (heeds_findById .infos id) fun d' η₁ Λ₁ _ _ hd' => ?_
    have hv : Heeds η₁ Λ₁ (fun η _ d => d.get? "_id" = some (.oid id) ∧ η.Agrees id d) (value d') :=
      heeds_value fun d hd _ hη => ⟨(hd' d hd).1, (hd' d hd).2.mono hη⟩
    cases t with
    | admin => exact Heeds.done _
    | student =>
      refine .bind hv fun d _ _ _ _ hd => .bind (heeds_construct hd.1 hd.2) fun temp _ _ _ _ hp =>
        .bind (heeds_getter .getStudentOwner temp) fun acc η₂ Λ₂ _ h₂ hacc =>
          .bind (heeds_getter .getStudentGroup temp) fun r _ _ h₃ h₃' _ => ?_
      have hrest {η' : Holders} {Λ' : Labels} (hη : η₂ ≤ η') (hΛ : Λ₂ ≤ Λ') : Heeds η' Λ' loose (do
          InfosController.attach acc temp
          return some temp) :=
        .bind (heeds_attach ((h₂.trans hΛ) _ _ hp) (ledBy_mono hη hΛ hacc)) fun _ _ _ _ _ _ => Heeds.done _
      refine .ite (fun _ => ?_) fun _ => hrest h₃ h₃'
      refine .bind (heeds_getter .getStudentGroup temp) fun grp _ _ h₄ h₄' _ => ?_
      cases grp with
      | none => exact .bind (heeds_fault _) fun _ _ _ h₅ h₅' _ => hrest (h₃.trans (h₄.trans h₅)) (h₃'.trans (h₄'.trans h₅'))
      | some grp =>
        exact .bind (heeds_addStudent grp _) fun _ _ _ h₅ h₅' _ => hrest (h₃.trans (h₄.trans h₅)) (h₃'.trans (h₄'.trans h₅'))
    | teacher =>
      refine .bind hv fun d _ _ _ _ hd => .bind (heeds_construct hd.1 hd.2) fun temp _ _ _ _ hp =>
        .bind (heeds_getter .getTeacherOwner temp) fun acc _ _ _ h₂ hacc => ?_
      exact .bind (heeds_attach (h₂ _ _ hp) hacc) fun _ _ _ _ _ _ => Heeds.done _

end Cbt
