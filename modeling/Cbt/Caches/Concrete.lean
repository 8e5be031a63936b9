import Cbt.Caches.Answers

/-! The concrete class of an info. The listing of the infos makes objects of the
class without fields; nothing else does, and as long as it finds every info
cached no such object is ever in memory. Then each object of an info is of the
class of its stored record and has the values of it, whatever was called before. -/

namespace Cbt

open Lib.Command (run_bind_iff run_pure_iff)

variable {w w' : World} {k : Kind}

/-- No object in memory is of the class without fields. -/
def Concrete (w : World) : Prop := ∀ p o, w.heap.get p = some o → o.fields.cls ≠ .additionalInfoDB

/-- Every run makes objects of the other classes only. -/
abbrev MakesConcrete {α : Type} (m : Cmd α) : Prop :=
  Lib.Command.Keeps Database.serve (fun w w' => Concrete w → Concrete w') m

namespace MakesConcrete

variable {α β : Type}

theorem of_heap {m : Cmd α} (h : ∀ w a w', run m w = .ok (a, w') → w'.heap = w.heap) : MakesConcrete m := by
  intro w a w' hr hc p o hp
  rw [h w a w' hr] at hp
  exact hc p o hp

theorem pure (a : α) : MakesConcrete (Pure.pure a : Cmd α) := Lib.Command.Keeps.pure (fun _ h => h) a

theorem fault (e : Fault) : MakesConcrete (Lib.Command.fault e : Cmd α) := Lib.Command.Keeps.fault e

theorem ofExcept (x : Except Fault α) : MakesConcrete (Lib.Command.ofExcept x : Cmd α) :=
  Lib.Command.Keeps.ofExcept (fun _ h => h) x

theorem bind {m : Cmd α} {f : α → Cmd β} (hm : MakesConcrete m) (hf : ∀ a, MakesConcrete (f a)) :
    MakesConcrete (m >>= f) :=
  Lib.Command.Keeps.bind (fun h h' hc => h' (h hc)) hm hf

theorem ite {c : Prop} [Decidable c] {m m' : Cmd α} (hm : MakesConcrete m) (hm' : MakesConcrete m') :
    MakesConcrete (if c then m else m') := by
  split_ifs
  · exact hm
  · exact hm'

end MakesConcrete

/-! ### Commands that make concrete objects -/

theorem Concrete.push (h : Concrete w) {o : Obj} (ho : o.fields.cls ≠ .additionalInfoDB) : Concrete (w.push o) := by
  intro p o' hp
  rw [Lib.Conf.heap_push, Lib.Heap.get_push] at hp
  split_ifs at hp
  · exact Option.some.inj hp ▸ ho
  · exact h p o' hp

theorem Concrete.put (h : Concrete w) {p : ℕ} {o o' : Obj} (hp : w.heap.get p = some o)
    (hc : o'.fields.cls = o.fields.cls) : Concrete (w.put p o') := by
  intro q o₁ hq
  rw [Lib.Conf.get_put hp] at hq
  split_ifs at hq
  · rw [← Option.some.inj hq, hc]
    exact h p o hp
  · exact h q o₁ hq

theorem Concrete.free (h : Concrete w) (p : ℕ) : Concrete (w.free p) := by
  intro q o hq
  rw [Lib.Conf.heap_free, Lib.Heap.get_free] at hq
  split_ifs at hq
  exact h q o hq

theorem Concrete.post (h : Concrete w) {e : ℕ} (d : Doc) : Concrete (w.post k e d) := h.free e

theorem concrete_obj (p : ℕ) : MakesConcrete (obj p) :=
  .of_heap fun _ _ _ h => by rw [(run_obj_iff.mp h).2]

theorem concrete_deref (v : Pointer) : MakesConcrete (deref v) :=
  .of_heap fun _ _ _ h => by rw [(run_deref_iff.mp h).2]

theorem concrete_fromDB (p : ℕ) : MakesConcrete (fromDB p) :=
  .of_heap fun _ _ _ h => by rw [(run_fromDB_iff.mp h).2]

theorem concrete_cash (k : Kind) : MakesConcrete (cash k) :=
  .of_heap fun _ _ _ h => by rw [(run_cash_iff.mp h).2]

theorem concrete_isChanged (k : Kind) : MakesConcrete (isChanged k) :=
  .of_heap fun _ _ _ h => by rw [(run_isChanged_iff.mp h).2]

theorem concrete_value {α : Type} (x : Option α) : MakesConcrete (value x) :=
  .of_heap fun _ _ _ h => by rw [(run_value_iff.mp h).2]

theorem concrete_toDoc (p : ℕ) : MakesConcrete (toDoc p) :=
  .of_heap fun _ _ _ h => by rw [(run_toDoc_iff.mp h).2]

theorem concrete_setCash (k : Kind) (l : List ℕ) : MakesConcrete (setCash k l) :=
  .of_heap fun _ _ _ h => by rw [← run_setCash_iff.mp h, Lib.Conf.heap_setCash]

theorem concrete_setChanged (k : Kind) (b : Bool) : MakesConcrete (setChanged k b) :=
  .of_heap fun _ _ _ h => by rw [← run_setChanged_iff.mp h, Lib.Conf.heap_setChanged]

theorem concrete_call (c : Call) : MakesConcrete (Lib.Command.call c : Cmd c.Answer) := by
  refine .of_heap fun w r w' h => ?_
  obtain ⟨db, -, rfl⟩ := (Lib.Command.run_call_iff _).mp h
  rfl

theorem concrete_modifyFromDB (p : ℕ) (f : IFromDB → IFromDB) : MakesConcrete (modifyFromDB p f) := by
  intro w u w' h hc
  obtain ⟨b, x, hp, rfl⟩ := run_modifyFromDB_iff.mp h
  exact hc.put hp rfl

theorem concrete_own (p : ℕ) (n : ℤ) : MakesConcrete (own p n) := concrete_modifyFromDB p _

theorem concrete_newObj {o : Obj} (ho : o.fields.cls ≠ .additionalInfoDB) : MakesConcrete (newObj o) := by
  intro w p w' h hc
  obtain ⟨-, rfl⟩ := run_newObj_iff.mp h
  exact hc.push ho

theorem concrete_construct {c : DBClass} (hc : c ≠ .additionalInfoDB) (d : Doc) : MakesConcrete (construct c d) := by
  intro w p w' h hw
  obtain ⟨o, ho, -, rfl⟩ := run_construct_iff.mp h
  obtain ⟨x, i, hx, -, rfl⟩ := ofDoc_eq_ok.mp ho
  exact hw.push (DBClass.cls_fields hx ▸ hc)

theorem concrete_destroy (p : ℕ) : MakesConcrete (destroy p) := by
  intro w u w' h hc
  obtain ⟨-, rfl⟩ := run_destroy_iff.mp h
  exact hc.free p

theorem concrete_assign (f : RefField) (this : ℕ) (v : Pointer) : MakesConcrete (assign f this v) := by
  intro w u w' h hc
  obtain ⟨o, ho, rfl⟩ := run_assign_iff.mp h
  exact hc.put ho (Fields.cls_setRef _ _ _)

theorem concrete_groupOf (p : ℕ) : MakesConcrete (groupOf p) :=
  .of_heap fun _ _ _ h => by rw [(run_groupOf_iff.mp h).2]

theorem concrete_accountType (p : ℕ) : MakesConcrete (accountType p) :=
  .of_heap fun _ _ _ h => by rw [(run_accountType_iff.mp h).2]

theorem concrete_cast (isClass : Fields → Bool) (r : Option ℕ) : MakesConcrete (cast isClass r) :=
  .of_heap fun _ _ _ h => by rw [(run_cast_iff.mp h).1]

theorem concrete_checkStudent (p : ℕ) : MakesConcrete (checkStudent p) :=
  .of_heap fun _ _ _ h => by rw [(run_checkStudent_iff.mp h).2]

theorem concrete_assignStudents (this : ℕ) (l : List ℕ) : MakesConcrete (assignStudents this l) := by
  intro w u w' h hc
  obtain ⟨c, g, hg, rfl⟩ := run_assignStudents_iff.mp h
  exact hc.put hg rfl

/-! ### The controllers -/

theorem concrete_pushBack (p : ℕ) : MakesConcrete (Controller.pushBack k p) :=
  (concrete_cash k).bind fun _ => concrete_setCash k _

theorem concrete_remove (p : ℕ) : MakesConcrete (Controller.remove k p) :=
  (concrete_cash k).bind fun _ => concrete_setCash k _

theorem concrete_scan (oid : Oid) (l : List ℕ) : MakesConcrete (Controller.scan k oid l) := by
  induction l with
  | nil => exact .pure _
  | cons p l ih =>
    refine (concrete_fromDB p).bind fun b => .ite ?_ (.ite (.pure _) ih)
    exact (concrete_own p _).bind fun _ => (concrete_fromDB p).bind fun _ =>
      .ite ((concrete_remove p).bind fun _ => .fault _) ih

theorem concrete_isAlredyInCash (oid : Oid) : MakesConcrete (Controller.isAlredyInCash k oid) :=
  (concrete_cash k).bind fun l => concrete_scan oid l

theorem concrete_lookUp {oid : Oid} {build : Doc → Cmd (Option ℕ)} (hb : ∀ d, MakesConcrete (build d)) :
    MakesConcrete (Controller.lookUp k oid build) := by
  refine (concrete_isAlredyInCash oid).bind fun r => ?_
  cases r with
  | some p => exact .pure _
  | none =>
    refine (concrete_call _).bind fun d => ?_
    cases d with
    | none => exact .pure _
    | some d => exact hb d

theorem concrete_getFromDB (hk : k ≠ .infos) (oid : Oid) : MakesConcrete (Controller.getFromDB k oid) :=
  concrete_lookUp fun d => (concrete_construct (by cases k <;> simp [Kind.dbClass] at hk ⊢) d).bind fun p =>
    (concrete_pushBack p).bind fun _ => (concrete_own p 1).bind fun _ => .pure _

theorem concrete_infosGetFromDB (oid : Oid) (t : AccountType) : MakesConcrete (InfosController.getFromDB oid t) := by
  refine concrete_lookUp fun d => ?_
  cases t with
  | admin => exact .pure _
  | student =>
    exact (concrete_construct (by simp) d).bind fun p => (concrete_own p 1).bind fun _ =>
      (concrete_pushBack p).bind fun _ => .pure _
  | teacher =>
    exact (concrete_construct (by simp) d).bind fun p => (concrete_own p 1).bind fun _ =>
      (concrete_pushBack p).bind fun _ => .pure _

theorem concrete_collect (hk : k ≠ .infos) (keep : Doc → Except Fault Bool) (counted : Bool) (docs : List Doc) :
    MakesConcrete (Controller.collect k keep counted docs) := by
  induction docs with
  | nil => exact .pure _
  | cons d docs ih =>
    refine (MakesConcrete.ofExcept _).bind fun b => .ite ?_ ih
    refine (MakesConcrete.ofExcept _).bind fun i => (concrete_isAlredyInCash i).bind fun r => ?_
    cases r with
    | some p => exact ih.bind fun _ => .pure _
    | none =>
      refine (concrete_construct (by cases k <;> simp [Kind.dbClass] at hk ⊢) d).bind fun p =>
        (concrete_pushBack p).bind fun _ => ?_
      cases counted with
      | false => exact (MakesConcrete.pure _).bind fun _ => ih.bind fun _ => .pure _
      | true => exact (concrete_own p 1).bind fun _ => ih.bind fun _ => .pure _

theorem concrete_getAll (hk : k ≠ .infos) : MakesConcrete (Controller.getAll k) :=
  (concrete_isChanged k).bind fun _ => .ite (concrete_cash k) <|
    (concrete_call _).bind fun _ => (concrete_collect hk _ _ _).bind fun _ =>
      (concrete_setChanged k false).bind fun _ => .pure _

theorem concrete_elementDoc (e : ℕ) : MakesConcrete (Controller.elementDoc k e) :=
  (concrete_obj e).bind fun _ => .ite ((MakesConcrete.fault _).bind fun _ => concrete_toDoc e) (concrete_toDoc e)

theorem concrete_add (hk : k ≠ .infos) (e : ℕ) : MakesConcrete (Controller.add k e) := by
  refine (concrete_setChanged k true).bind fun _ => (concrete_elementDoc e).bind fun d =>
    (concrete_call _).bind fun r => (concrete_destroy e).bind fun _ => ?_
  cases r with
  | none => exact .pure _
  | some id =>
    exact (concrete_call _).bind fun d => (concrete_value d).bind fun d =>
      (concrete_construct (by cases k <;> simp [Kind.dbClass] at hk ⊢) d).bind fun p =>
        (concrete_own p 1).bind fun _ => (concrete_pushBack p).bind fun _ => .pure _

theorem concrete_iterForDelete (oid : Oid) (first : ℕ) (l : List ℕ) :
    MakesConcrete (Controller.iterForDelete oid first l) := by
  induction l with
  | nil => exact .pure _
  | cons p l ih => exact (concrete_fromDB p).bind fun _ => .ite (.pure _) ih

theorem concrete_delete (oid : Oid) : MakesConcrete (Controller.delete k oid) := by
  refine (concrete_setChanged k true).bind fun _ => (concrete_cash k).bind fun l => ?_
  cases l with
  | nil => exact .fault _
  | cons first l =>
    refine (concrete_iterForDelete oid first _).bind fun p => (concrete_own p _).bind fun _ =>
      (concrete_fromDB p).bind fun _ => .ite ((concrete_destroy p).bind fun _ => ?_)
        ((concrete_modifyFromDB p _).bind fun _ => ?_) <;>
    exact (concrete_remove p).bind fun _ => (concrete_call _).bind fun r => (concrete_value r).bind fun _ => .pure _

theorem concrete_update (el : ℕ) : MakesConcrete (Controller.update k el) := by
  refine (concrete_obj el).bind fun _ => .ite ((MakesConcrete.fault _).bind fun _ => ?_) ?_ <;>
  exact (concrete_toDoc el).bind fun _ => (concrete_fromDB el).bind fun _ => (concrete_call _).bind fun a =>
    (concrete_call _).bind fun d => (concrete_value d).bind fun _ => (concrete_modifyFromDB el _).bind fun _ =>
      (concrete_value a).bind fun _ => .pure _

/-! ### References and members -/

theorem concrete_setRef (f : RefField) (this : ℕ) (v : Option ℕ) : MakesConcrete (setRef f this v) := by
  cases v with
  | none =>
    refine (concrete_obj this).bind fun _ => .ite ((MakesConcrete.fault _).bind fun _ => ?_) ?_ <;>
    exact concrete_assign f this _
  | some q =>
    refine (concrete_obj this).bind fun _ => .ite ((MakesConcrete.fault _).bind fun _ => ?_) ?_ <;>
    refine (concrete_obj q).bind fun _ => .ite ((MakesConcrete.fault _).bind fun _ => ?_) ?_ <;>
    exact (concrete_assign f this _).bind fun _ => concrete_own q 1

theorem concrete_settle (f : RefField) (this p : ℕ) : MakesConcrete (settle f this p) := by
  refine (concrete_fromDB p).bind fun _ => .ite (.pure _) ?_
  refine (concrete_own p _).bind fun _ => (concrete_fromDB p).bind fun _ =>
    .ite ((concrete_destroy p).bind fun _ => ?_) ?_ <;>
  exact (concrete_assign f this _).bind fun _ => .pure _

theorem concrete_getRef {f : RefField} {key : String} {load : Oid → Cmd (Option ℕ)} (this : ℕ)
    (hl : ∀ oid, MakesConcrete (load oid)) : MakesConcrete (getRef f key load this) := by
  refine (concrete_obj this).bind fun o => ?_
  rcases o.fields.ref f with _ | _ | _ | p
  · exact .fault _
  · exact .fault _
  · refine (concrete_fromDB this).bind fun _ => (MakesConcrete.ofExcept _).bind fun v => ?_
    rcases v.oid? with _ | oid
    · exact .pure _
    · refine (hl oid).bind fun r => ?_
      cases r with
      | none => exact .pure _
      | some p => exact (concrete_assign f this _).bind fun _ => concrete_settle f this p
  · exact concrete_settle f this p

theorem concrete_getter (g : Getter) (this : ℕ) : MakesConcrete (g.call this) := by
  rw [g.call_eq]
  refine concrete_getRef this fun oid => ?_
  cases g with
  | getCurator => exact (concrete_infosGetFromDB oid _).bind fun _ => concrete_cast _ _
  | getTeacher => exact (concrete_infosGetFromDB oid _).bind fun _ => concrete_cast _ _
  | getTeacherOwner => exact concrete_getFromDB (by simp) oid
  | getStudentOwner => exact concrete_getFromDB (by simp) oid
  | getStudentGroup => exact concrete_getFromDB (by simp) oid
  | getScheduleGroup => exact concrete_getFromDB (by simp) oid
  | getAdditionalInfo => exact (concrete_accountType this).bind fun t => concrete_infosGetFromDB oid t

theorem concrete_forM {α : Type} {f : α → Cmd Unit} (hf : ∀ a, MakesConcrete (f a)) (l : List α) :
    MakesConcrete (l.forM f) := by
  induction l with
  | nil => exact .pure _
  | cons a l ih => exact (hf a).bind fun _ => ih

theorem concrete_ownAll (l : List ℕ) : MakesConcrete (ownAll l) := by
  induction l with
  | nil => exact .pure _
  | cons p l ih => exact (concrete_own p 1).bind fun _ => ih

theorem concrete_setStudents (this : ℕ) (l : List ℕ) : MakesConcrete (Group.setStudents this l) :=
  (concrete_forM concrete_checkStudent l).bind fun _ => (concrete_assignStudents this l).bind fun _ => concrete_ownAll l

theorem concrete_addStudent (this : ℕ) (stud : Option ℕ) : MakesConcrete (GroupDB.addStudent this stud) := by
  cases stud with
  | none => exact .fault _
  | some stud =>
    exact (concrete_checkStudent stud).bind fun _ => (concrete_groupOf this).bind fun _ =>
      (concrete_assignStudents this _).bind fun _ => (concrete_update this).bind fun _ =>
        (concrete_setRef _ _ _).bind fun _ => (concrete_update stud).bind fun _ => (concrete_own stud 1).bind fun _ => .pure _

theorem concrete_eraseFirst (id : Oid) (l : List ℕ) : MakesConcrete (GroupDB.eraseFirst id l) := by
  induction l with
  | nil => exact .pure _
  | cons p l ih => exact (concrete_fromDB p).bind fun _ => .ite (.pure _) (ih.bind fun _ => .pure _)

theorem concrete_deleteStudent (this : ℕ) (stud : Option ℕ) : MakesConcrete (GroupDB.deleteStudent this stud) := by
  refine (concrete_groupOf this).bind fun g => ?_
  rcases g.students with _ | ⟨p, l⟩
  · exact .pure _
  cases stud with
  | none => exact .fault _
  | some stud =>
    refine (concrete_checkStudent stud).bind fun _ => (concrete_fromDB stud).bind fun b =>
      (concrete_eraseFirst _ _).bind fun r => ?_
    cases r with
    | none => exact .pure _
    | some rest =>
      exact (concrete_assignStudents this _).bind fun _ => (concrete_update this).bind fun _ =>
        (concrete_setRef _ _ _).bind fun _ => (concrete_update stud).bind fun _ => (concrete_own stud _).bind fun _ => .pure _

theorem concrete_loadStudents (this : ℕ) (vs : List Element) : MakesConcrete (GroupDB.loadStudents this vs) := by
  induction vs with
  | nil => exact .pure _
  | cons v vs ih =>
    refine (MakesConcrete.ofExcept _).bind fun i => (concrete_infosGetFromDB i _).bind fun r =>
      (concrete_cast _ r).bind fun r => ?_
    cases r with
    | none => exact ih
    | some p =>
      refine (concrete_fromDB p).bind fun b => .ite ?_ ?_
      · exact (concrete_groupOf this).bind fun _ => (concrete_assignStudents this _).bind fun _ => ih
      · exact ih

theorem concrete_getStudents (this : ℕ) : MakesConcrete (GroupDB.getStudents this) := by
  refine (concrete_assignStudents this []).bind fun _ => (concrete_fromDB this).bind fun b =>
    (MakesConcrete.ofExcept _).bind fun v => ?_
  cases v with
  | array vs => exact (concrete_loadStudents this vs).bind fun _ => (concrete_groupOf this).bind fun _ => .pure _
  | _ => exact (concrete_groupOf this).bind fun _ => .pure _

theorem concrete_attach (acc : Option ℕ) (res : ℕ) : MakesConcrete (InfosController.attach acc res) := by
  cases acc with
  | none => exact .fault _
  | some acc =>
    exact (concrete_setRef _ acc _).bind fun _ => (concrete_update acc).bind fun _ =>
      (concrete_pushBack res).bind fun _ => concrete_own res 1

theorem concrete_infosAdd (e : ℕ) (t : AccountType) : MakesConcrete (InfosController.add e t) := by
  refine (concrete_setChanged .infos true).bind fun _ => (concrete_elementDoc e).bind fun d =>
    (concrete_destroy e).bind fun _ => (concrete_call _).bind fun r => ?_
  cases r with
  | none => exact .pure _
  | some id =>
    refine (concrete_call _).bind fun d => ?_
    cases t with
    | admin => exact .pure _
    | student =>
      refine (concrete_value d).bind fun d => (concrete_construct (by simp) d).bind fun temp =>
        (concrete_getter .getStudentOwner temp).bind fun acc => (concrete_getter .getStudentGroup temp).bind fun r => ?_
      refine .ite ?_ ((concrete_attach acc temp).bind fun _ => .pure _)
      refine (concrete_getter .getStudentGroup temp).bind fun g => ?_
      cases g with
      | none => exact .fault _
      | some g => exact (concrete_addStudent g _).bind fun _ => (concrete_attach acc temp).bind fun _ => .pure _
    | teacher =>
      exact (concrete_value d).bind fun d => (concrete_construct (by simp) d).bind fun temp =>
        (concrete_getter .getTeacherOwner temp).bind fun acc => (concrete_attach acc temp).bind fun _ => .pure _

end Cbt
