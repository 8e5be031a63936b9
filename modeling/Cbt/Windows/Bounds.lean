import Cbt.Lib.Faults
import Cbt.Model.Client

/-! Where an index may leave its array. Only the table of schedules is filled by
index. What else the screens of schedules and a log-in run may fail in many ways,
and never in that one; so an index outside the array is the number of a schedule
that some query found. -/

namespace Cbt

/-- No run ends in an index outside an array. -/
abbrev Bounded {α : Type} (m : Cmd α) : Prop := Lib.Command.Avoids Database.serve .outOfRange m

namespace Bounded

variable {α β : Type}

theorem pure (a : α) : Bounded (Pure.pure a : Cmd α) := Lib.Command.Avoids.pure a

theorem fault {e : Fault} (he : e ≠ .outOfRange) : Bounded (Lib.Command.fault e : Cmd α) := Lib.Command.Avoids.fault he

theorem bind {m : Cmd α} {f : α → Cmd β} (hm : Bounded m) (hf : ∀ a, Bounded (f a)) : Bounded (m >>= f) :=
  Lib.Command.Avoids.bind hm hf

theorem ite {c : Prop} [Decidable c] {m m' : Cmd α} (hm : Bounded m) (hm' : Bounded m') :
    Bounded (if c then m else m') := Lib.Command.Avoids.ite hm hm'

end Bounded

open Lib.Command (pure_ne_error bind_ne_error map_ne_error)

/-! ### Documents -/

variable {h : Memory} {d : Doc} {key : String}

theorem Doc.elem_bounded : d.elem key ≠ .error .outOfRange := by
  unfold Doc.elem
  cases d.get? key <;> simp

theorem Doc.getOid_bounded : d.getOid key ≠ .error .outOfRange := by
  unfold Doc.getOid
  rcases d.get? key with _ | (_ | _ | _ | _ | _) <;> simp

theorem Doc.getString_bounded : d.getString key ≠ .error .outOfRange := by
  unfold Doc.getString
  rcases d.get? key with _ | (_ | _ | _ | _ | _) <;> simp

theorem Doc.getInt32_bounded : d.getInt32 key ≠ .error .outOfRange := by
  unfold Doc.getInt32
  rcases d.get? key with _ | (_ | _ | _ | _ | _) <;> simp

theorem Doc.getInt64_bounded : d.getInt64 key ≠ .error .outOfRange := by
  unfold Doc.getInt64
  rcases d.get? key with _ | (_ | _ | _ | _ | _) <;> simp

theorem AccountType.ofInt_bounded (n : Int32) : AccountType.ofInt n ≠ .error .outOfRange := by
  unfold AccountType.ofInt
  split_ifs <;> simp

theorem getStrings_bounded (es : List Element) : getStrings es ≠ .error .outOfRange := by
  induction es with
  | nil => simp [getStrings]
  | cons e es ih =>
    refine bind_ne_error ?_ fun _ => bind_ne_error ih fun _ => pure_ne_error _
    cases e <;> simp [Element.getString]

theorem lessonsTypesOf_bounded : lessonsTypesOf d ≠ .error .outOfRange := by
  unfold lessonsTypesOf
  rcases d.get? "LessonsTypes" with _ | (_ | _ | _ | _ | vs) <;> simp [getStrings_bounded]

theorem DBClass.fields_bounded (c : DBClass) : c.fields d ≠ .error .outOfRange := by
  cases c with
  | accountDB =>
    exact bind_ne_error Doc.getString_bounded fun _ => bind_ne_error Doc.getString_bounded fun _ =>
      bind_ne_error Doc.getInt32_bounded fun n => bind_ne_error (AccountType.ofInt_bounded n) fun _ => pure_ne_error _
  | groupDB => exact bind_ne_error Doc.getString_bounded fun _ => pure_ne_error _
  | additionalInfoDB => exact pure_ne_error _
  | studentInfoDB =>
    exact bind_ne_error Doc.getString_bounded fun _ => bind_ne_error Doc.getString_bounded fun _ =>
      bind_ne_error Doc.getInt32_bounded fun _ => pure_ne_error _
  | teacherInfoDB =>
    exact bind_ne_error Doc.getString_bounded fun _ => bind_ne_error Doc.getString_bounded fun _ =>
      bind_ne_error Doc.getString_bounded fun _ => bind_ne_error lessonsTypesOf_bounded fun _ => pure_ne_error _
  | scheduleDB =>
    exact bind_ne_error Doc.getInt64_bounded fun _ => bind_ne_error Doc.getString_bounded fun _ =>
      bind_ne_error Doc.getInt32_bounded fun _ => pure_ne_error _

theorem DBClass.ofDoc_bounded (c : DBClass) : c.ofDoc d ≠ .error .outOfRange :=
  bind_ne_error c.fields_bounded fun _ =>
    bind_ne_error (bind_ne_error Doc.getOid_bounded fun _ => pure_ne_error _) fun _ => pure_ne_error _

theorem header_bounded (p : ℕ) : header h p ≠ .error .outOfRange := by
  unfold header
  rcases h.get p with _ | ⟨_ | _, _⟩ <;> simp

theorem buildRef_bounded (v : Pointer) : buildRef h key v ≠ .error .outOfRange := by
  unfold buildRef
  cases v with
  | uninit => simp
  | null => simp
  | «to» p =>
    have hp := header_bounded (h := h) p
    cases hh : header h p with
    | error e => simpa [hh] using hp
    | ok b => simp [hh]

theorem existingIds_bounded (l : List ℕ) : existingIds h l ≠ .error .outOfRange := by
  induction l with
  | nil => simp [existingIds]
  | cons p l ih =>
    have hp := header_bounded (h := h) p
    unfold existingIds
    cases hh : header h p with
    | error e => simpa [hh] using hp
    | ok b =>
      cases hl : existingIds h l with
      | error e => simpa [hl] using ih
      | ok ids => simp

theorem Obj.toDoc_bounded (o : Obj) : o.toDoc h ≠ .error .outOfRange := by
  have hx : o.fields.toDoc h ≠ .error .outOfRange := by
    cases o.fields with
    | account a =>
      exact bind_ne_error (bind_ne_error (buildRef_bounded _) fun _ => pure_ne_error _) fun _ => pure_ne_error _
    | group g =>
      refine bind_ne_error (buildRef_bounded _) fun _ => ?_
      dsimp only
      split_ifs
      · exact pure_ne_error _
      · exact bind_ne_error (map_ne_error (existingIds_bounded _)) fun _ => pure_ne_error _
    | additionalInfo => exact pure_ne_error _
    | student s =>
      exact bind_ne_error (bind_ne_error (buildRef_bounded _) fun _ => pure_ne_error _) fun _ =>
        bind_ne_error (bind_ne_error (buildRef_bounded _) fun _ => pure_ne_error _) fun _ => pure_ne_error _
    | teacher t =>
      exact bind_ne_error (bind_ne_error (buildRef_bounded _) fun _ => pure_ne_error _) fun _ => pure_ne_error _
    | schedule s =>
      exact bind_ne_error (buildRef_bounded _) fun _ => bind_ne_error (buildRef_bounded _) fun _ => pure_ne_error _
  refine bind_ne_error hx fun _ => ?_
  cases o.fromDB <;> exact pure_ne_error _

/-! ### Memory and calls -/

variable {k : Kind}

theorem bounded_obj (p : ℕ) : Bounded (obj p) := by
  refine .bind .of_get fun m => ?_
  cases m.heap.get p with
  | none => exact .fault (by simp)
  | some o => exact .pure o

theorem bounded_deref (v : Pointer) : Bounded (deref v) := by
  cases v with
  | uninit => exact .fault (by simp)
  | null => exact .fault (by simp)
  | «to» p => exact .pure p

theorem bounded_setObj (p : ℕ) (o : Obj) : Bounded (setObj p o) := .of_modify _

theorem bounded_newObj (o : Obj) : Bounded (newObj o) :=
  .bind .of_get fun _ => .bind (.of_set _) fun _ => .pure _

theorem bounded_destroy (p : ℕ) : Bounded (destroy p) := .bind (bounded_obj p) fun _ => .of_modify _

theorem bounded_cash (k : Kind) : Bounded (cash k) := .bind .of_get fun _ => .pure _

theorem bounded_setCash (k : Kind) (l : List ℕ) : Bounded (setCash k l) := .of_modify _

theorem bounded_isChanged (k : Kind) : Bounded (isChanged k) := .bind .of_get fun _ => .pure _

theorem bounded_setChanged (k : Kind) (b : Bool) : Bounded (setChanged k b) := .of_modify _

theorem bounded_fromDB (p : ℕ) : Bounded (fromDB p) := .bind .of_get fun _ => .ofExcept (header_bounded p)

theorem bounded_modifyFromDB (p : ℕ) (f : IFromDB → IFromDB) : Bounded (modifyFromDB p f) :=
  .bind (bounded_obj p) fun _ => .bind (bounded_fromDB p) fun _ => bounded_setObj p _

theorem bounded_own (p : ℕ) (n : ℤ) : Bounded (own p n) := bounded_modifyFromDB p _

theorem bounded_toDoc (p : ℕ) : Bounded (toDoc p) :=
  .bind (bounded_obj p) fun o => .bind .of_get fun _ => .ofExcept o.toDoc_bounded

theorem bounded_construct (c : DBClass) (d : Doc) : Bounded (construct c d) :=
  .bind (.ofExcept c.ofDoc_bounded) fun o => bounded_newObj o

theorem bounded_value {α : Type} (x : Option α) : Bounded (value x) := by
  cases x with
  | none => exact .fault (by simp)
  | some a => exact .pure a

theorem bounded_call (c : Call) : Bounded (Lib.Command.call c : Cmd c.Answer) := by
  refine .of_call fun db => ?_
  cases c <;> simp only [Database.serve] <;> (try split) <;> (try split) <;> simp

/-! ### The controllers -/

theorem bounded_pushBack (p : ℕ) : Bounded (Controller.pushBack k p) :=
  .bind (bounded_cash k) fun _ => bounded_setCash k _

theorem bounded_remove (p : ℕ) : Bounded (Controller.remove k p) :=
  .bind (bounded_cash k) fun _ => bounded_setCash k _

theorem bounded_scan (oid : Oid) (l : List ℕ) : Bounded (Controller.scan k oid l) := by
  induction l with
  | nil => exact .pure _
  | cons p l ih =>
    refine .bind (bounded_fromDB p) fun b => .ite ?_ (.ite (.pure _) ih)
    exact .bind (bounded_own p _) fun _ => .bind (bounded_fromDB p) fun _ =>
      .ite (.bind (bounded_remove p) fun _ => .fault (by simp)) ih

theorem bounded_isAlredyInCash (oid : Oid) : Bounded (Controller.isAlredyInCash k oid) :=
  .bind (bounded_cash k) fun l => bounded_scan oid l

theorem bounded_lookUp {oid : Oid} {build : Doc → Cmd (Option ℕ)} (hb : ∀ d, Bounded (build d)) :
    Bounded (Controller.lookUp k oid build) := by
  refine .bind (bounded_isAlredyInCash oid) fun r => ?_
  cases r with
  | some p => exact .pure _
  | none =>
    refine .bind (bounded_call (.findOne k _)) fun d => ?_
    cases d with
    | none => exact .pure _
    | some d => exact hb d

theorem bounded_getFromDB (oid : Oid) : Bounded (Controller.getFromDB k oid) :=
  bounded_lookUp fun d => .bind (bounded_construct _ d) fun p => .bind (bounded_pushBack p) fun _ =>
    .bind (bounded_own p 1) fun _ => .pure _

theorem bounded_infosGetFromDB (oid : Oid) (t : AccountType) : Bounded (InfosController.getFromDB oid t) := by
  refine bounded_lookUp fun d => ?_
  cases InfosController.classOf t with
  | none => exact .pure _
  | some c =>
    exact .bind (bounded_construct c d) fun p => .bind (bounded_own p 1) fun _ =>
      .bind (bounded_pushBack p) fun _ => .pure _

theorem bounded_collect {keep : Doc → Except Fault Bool} (hk : ∀ d, keep d ≠ .error .outOfRange) (counted : Bool)
    (docs : List Doc) : Bounded (Controller.collect k keep counted docs) := by
  induction docs with
  | nil => exact .pure _
  | cons d docs ih =>
    refine .bind (.ofExcept (hk d)) fun b => .ite ?_ ih
    refine .bind (.ofExcept Doc.getOid_bounded) fun i => .bind (bounded_isAlredyInCash i) fun r => ?_
    cases r with
    | some p => exact .bind ih fun _ => .pure _
    | none =>
      exact .bind (bounded_construct _ d) fun p => .bind (bounded_pushBack p) fun _ =>
        .ite (.bind (bounded_own p 1) fun _ => .bind ih fun _ => .pure _) (.bind ih fun _ => .pure _)

theorem admits_bounded (k : Kind) (d : Doc) : Controller.admits k d ≠ .error .outOfRange := by
  cases k with
  | infos => exact bind_ne_error Doc.elem_bounded fun _ => pure_ne_error _
  | _ => simp [Controller.admits]

theorem bounded_getAll (k : Kind) : Bounded (Controller.getAll k) :=
  .bind (bounded_isChanged k) fun _ => .ite (bounded_cash k) <| .bind (bounded_call (.find k [])) fun docs =>
    .bind (bounded_collect (admits_bounded k) false docs) fun _ => .bind (bounded_setChanged k false) fun _ => .pure _

theorem bounded_getAllTeachers : Bounded AccountsController.getAllTeachers :=
  .bind (bounded_call (.find .accounts _)) fun docs => bounded_collect (by simp) true docs

theorem bounded_getAllSchedulesinDate (julianDate : Int32) (group : Pointer) :
    Bounded (ScheduleController.getAllSchedulesinDate julianDate group) :=
  .bind (bounded_deref group) fun g => .bind (bounded_fromDB g) fun _ =>
    .bind (bounded_call (.find .schedules _)) fun docs => bounded_collect (by simp) true docs

theorem bounded_add (e : ℕ) : Bounded (Controller.add k e) := by
  have hdoc : Bounded (Controller.elementDoc k e) :=
    .bind (bounded_obj e) fun _ => .ite (.bind (.fault (by simp)) fun _ => bounded_toDoc e) (bounded_toDoc e)
  refine .bind (bounded_setChanged k true) fun _ => .bind hdoc fun d => .bind (bounded_call (.insertOne k d)) fun r =>
    .bind (bounded_destroy e) fun _ => ?_
  cases r with
  | none => exact .pure _
  | some id =>
    exact .bind (bounded_call (.findOne k _)) fun d => .bind (bounded_value d) fun d =>
      .bind (bounded_construct _ d) fun p => .bind (bounded_own p 1) fun _ => .bind (bounded_pushBack p) fun _ => .pure _

theorem bounded_iterForDelete (oid : Oid) (first : ℕ) (l : List ℕ) : Bounded (Controller.iterForDelete oid first l) := by
  induction l with
  | nil => exact .pure _
  | cons p l ih => exact .bind (bounded_fromDB p) fun _ => .ite (.pure _) ih

theorem bounded_delete (oid : Oid) : Bounded (Controller.delete k oid) := by
  refine .bind (bounded_setChanged k true) fun _ => .bind (bounded_cash k) fun l => ?_
  cases l with
  | nil => exact .fault (by simp)
  | cons first l =>
    have hrest : ∀ p, Bounded (α := Bool) (do
        Controller.remove k p
        return (← value (← deleteOne k oid)) = 1) := fun p =>
      .bind (bounded_remove p) fun _ => .bind (bounded_call (.deleteOne k oid)) fun r => .bind (bounded_value r) fun _ => .pure _
    exact .bind (bounded_iterForDelete oid first _) fun p => .bind (bounded_own p _) fun _ =>
      .bind (bounded_fromDB p) fun _ => .ite (.bind (bounded_destroy p) fun _ => hrest p)
        (.bind (bounded_modifyFromDB p _) fun _ => hrest p)

/-! ### References -/

theorem bounded_assign (f : RefField) (this : ℕ) (v : Pointer) : Bounded (assign f this v) :=
  .bind (bounded_obj this) fun _ => bounded_setObj this _

theorem bounded_setRef (f : RefField) (this : ℕ) (v : Option ℕ) : Bounded (setRef f this v) := by
  refine .bind (bounded_obj this) fun _ => .ite (.bind (.fault (by simp)) fun _ => ?_) ?_ <;>
  · cases v with
    | none => exact bounded_assign f this _
    | some q =>
      have hrest : Bounded (do
          assign f this (.to q)
          own q 1) := .bind (bounded_assign f this _) fun _ => bounded_own q 1
      exact .bind (bounded_obj q) fun _ => .ite (.bind (.fault (by simp)) fun _ => hrest) hrest

theorem bounded_cast (isClass : Fields → Bool) (r : Option ℕ) : Bounded (cast isClass r) := by
  cases r with
  | none => exact .pure _
  | some p => exact .bind (bounded_obj p) fun _ => .pure _

theorem bounded_castDeref (isClass : Fields → Bool) (r : Option ℕ) : Bounded (castDeref isClass r) := by
  refine .bind (bounded_cast isClass r) fun r => ?_
  cases r with
  | none => exact .fault (by simp)
  | some p => exact .pure p

theorem bounded_settle (f : RefField) (this p : ℕ) : Bounded (settle f this p) := by
  have hrest : Bounded (do
      assign f this .null
      return (none : Option ℕ)) := .bind (bounded_assign f this _) fun _ => .pure _
  exact .bind (bounded_fromDB p) fun _ => .ite (.pure _) <| .bind (bounded_own p _) fun _ =>
    .bind (bounded_fromDB p) fun _ => .ite (.bind (bounded_destroy p) fun _ => hrest) hrest

theorem bounded_getRef {f : RefField} {load : Oid → Cmd (Option ℕ)} (this : ℕ) (hl : ∀ oid, Bounded (load oid)) :
    Bounded (getRef f key load this) := by
  refine .bind (bounded_obj this) fun o => ?_
  rcases o.fields.ref f with _ | _ | _ | p
  · exact .fault (by simp)
  · exact .fault (by simp)
  · refine .bind (bounded_fromDB this) fun _ => .bind (.ofExcept Doc.elem_bounded) fun v => ?_
    rcases v.oid? with _ | oid
    · exact .pure _
    · refine .bind (hl oid) fun r => ?_
      cases r with
      | none => exact .pure _
      | some p => exact .bind (bounded_assign f this _) fun _ => bounded_settle f this p
  · exact bounded_settle f this p

theorem bounded_accountType (p : ℕ) : Bounded (accountType p) :=
  .bind (bounded_obj p) fun o => by cases o.fields <;> first | exact .pure _ | exact .fault (by simp)

theorem bounded_groupOf (p : ℕ) : Bounded (groupOf p) :=
  .bind (bounded_obj p) fun o => by cases o.fields <;> first | exact .pure _ | exact .fault (by simp)

theorem bounded_accountOf (p : ℕ) : Bounded (accountOf p) :=
  .bind (bounded_obj p) fun o => by cases o.fields <;> first | exact .pure _ | exact .fault (by simp)

theorem bounded_studentOf (p : ℕ) : Bounded (studentOf p) :=
  .bind (bounded_obj p) fun o => by cases o.fields <;> first | exact .pure _ | exact .fault (by simp)

theorem bounded_teacherOf (p : ℕ) : Bounded (teacherOf p) :=
  .bind (bounded_obj p) fun o => by cases o.fields <;> first | exact .pure _ | exact .fault (by simp)

theorem bounded_getAdditionalInfo (acc : ℕ) : Bounded (AccountDB.getAdditionalInfo acc) :=
  bounded_getRef acc fun oid => .bind (bounded_accountType acc) fun t => bounded_infosGetFromDB oid t

theorem bounded_getStudentGroup (stud : ℕ) : Bounded (StudentInfoDB.getGroup stud) := bounded_getRef stud bounded_getFromDB

/-! ### Tables -/

theorem bounded_row (acc : ℕ) : Bounded (AccountsTable.row acc) := by
  refine .bind (bounded_getAdditionalInfo acc) fun info => .bind (bounded_accountType acc) fun t => ?_
  cases t with
  | student => exact .bind (bounded_castDeref _ _) fun p => .bind (bounded_studentOf p) fun _ => .pure _
  | teacher => exact .bind (bounded_castDeref _ _) fun p => .bind (bounded_teacherOf p) fun _ => .pure _
  | admin => exact .bind (bounded_fromDB acc) fun _ => .pure _

theorem bounded_updateTable (accs : List (Option ℕ)) : Bounded (AccountsTable.updateTable accs) := by
  induction accs with
  | nil => exact .pure _
  | cons acc accs ih =>
    cases acc with
    | none => exact ih
    | some acc => exact .bind (bounded_row acc) fun _ => .bind ih fun _ => .pure _

theorem bounded_groupsTable : Bounded GroupsDBTable.updateTable := by
  refine .bind (bounded_getAll .groups) fun grps => .bind ?_ fun _ => .pure _
  induction grps with
  | nil => exact .pure _
  | cons grp grps ih => exact .bind (bounded_groupOf grp) fun _ => .bind ih fun _ => .pure _

theorem bounded_getLessonsTypes (teacher : Option ℕ) : Bounded (PosibleLessonsTable.getLessonsTypes teacher) := by
  cases teacher with
  | none => exact .pure _
  | some t => exact .bind (bounded_teacherOf t) fun _ => .pure _

theorem bounded_usable (p : Option ℕ) : Bounded (AdminWindow.usable p) := by
  cases p with
  | none => exact .pure _
  | some p => exact .bind (bounded_fromDB p) fun _ => .pure _

end Cbt
