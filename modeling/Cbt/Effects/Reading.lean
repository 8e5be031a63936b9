import Cbt.Effects.Quiet
import Cbt.Model.Action

/-! The look-ups, the listings, the setters and the getters are quiet, and each
loads only what it names: a look-up its id, a getter the id its document holds,
a listing objects of its own controller, `getStudents` the ids of the members. -/

namespace Cbt

open Lib.Command (run_bind_iff run_pure_iff run_fault_iff run_ofExcept_iff)

/-- The document stored under an id carries the id. -/
theorem stored_id {w : World} {k : Kind} {o : Oid} {d : Doc} (h : w.stored k o = some d) :
    d.get? "_id" = some (.oid o) := (w.env.coll k).ids o d h

theorem Fields.kind_of_dbClass {k : Kind} {x : Fields} (h : x.cls = k.dbClass) : x.kind = k := by
  cases k <;> cases x <;> first | rfl | cases h

theorem Fields.kind_of_classOf {t : AccountType} {x : Fields} (h : InfosController.classOf t = some x.cls) :
    x.kind = .infos := by
  cases t <;> cases x <;> first | rfl | cases h

variable {L : Loads} {w w' : World} {k : Kind}

/-- An object built from the document stored under an id. -/
theorem ofDoc_stored {c : DBClass} {oid : Oid} {d : Doc} {o : Obj} (hs : w.stored k oid = some d)
    (ho : c.ofDoc d = .ok o) : ∃ x, x.cls = c ∧ o = ⟨some { doc := d, id := oid }, x⟩ := by
  obtain ⟨x, i, hx, hi, rfl⟩ := ofDoc_eq_ok.mp ho
  rw [stored_id hs, Option.some.injEq, Bson.oid.injEq] at hi
  exact ⟨x, DBClass.cls_fields hx, by rw [hi]⟩

theorem fields_of_ofDoc {c : DBClass} {d : Doc} {b : IFromDB} {x : Fields} (ho : c.ofDoc d = .ok ⟨some b, x⟩) :
    c.fields d = .ok x := by
  obtain ⟨y, i, hy, -, he⟩ := ofDoc_eq_ok.mp ho
  obtain ⟨-, rfl⟩ := Obj.mk.inj he
  exact hy

namespace Looked

variable {oid : Oid} {c? : Option DBClass} {r : Option ℕ}

theorem quiet (h : Looked w k oid c? r w') (hm : L k oid)
    (hk : ∀ x : Fields, c? = some x.cls → x.kind = k) : Quiet L w w' := by
  cases h with
  | hit => exact .refl
  | absent => exact .refl
  | loaded hn hs hc ho =>
    obtain ⟨x, rfl, rfl⟩ := ofDoc_stored hs ho
    exact .single (.load hm hn hs rfl (hk x hc) (fields_of_ofDoc ho))

/-- What a look-up yields exists. -/
theorem alive (h : Looked w k oid c? r w') (hw : Sound w) {p : ℕ} (hp : r = some p) : w'.Alive p := by
  cases h with
  | hit hc =>
    obtain rfl := Option.some.inj hp
    exact hw.live k _ (Lib.Conf.cached_mem hc)
  | absent => cases hp
  | loaded hn hs hc ho =>
    obtain rfl := Option.some.inj hp
    obtain ⟨x, rfl, rfl⟩ := ofDoc_stored hs ho
    exact ⟨_, x, by simp; rfl, rfl⟩

end Looked

theorem reads_getFromDB {oid : Oid} (hm : L k oid) : Reads L (Controller.getFromDB k oid) := by
  intro w r w' h hw
  refine ((run_getFromDB_iff (hw.live k)).mp h).quiet hm fun x hx => ?_
  exact Fields.kind_of_dbClass (Option.some.inj hx).symm

theorem reads_infosGetFromDB {oid : Oid} {t : AccountType} (hm : L .infos oid) :
    Reads L (InfosController.getFromDB oid t) := by
  intro w r w' h hw
  exact ((run_infosGetFromDB_iff (hw.live .infos)).mp h).quiet hm fun x hx => Fields.kind_of_classOf hx

/-! ### Listings -/

/-- The documents given to a listing are stored. -/
def Listed (w : World) (k : Kind) (docs : List Doc) : Prop :=
  ∀ d ∈ docs, ∀ o, d.get? "_id" = some (.oid o) → w.stored k o = some d

theorem listed_filter (w : World) (k : Kind) (f : Doc → Bool) : Listed w k ((w.env.coll k).docs.filter f) :=
  fun _ hd _ ho => Collection.get?_of_mem (List.mem_filter.mp hd).1 ho

theorem Listed.tail {d : Doc} {docs : List Doc} (h : Listed w k (d :: docs)) : Listed w k docs :=
  fun d' hd' => h d' (List.mem_cons_of_mem _ hd')

theorem Listed.of_stored {docs : List Doc} (h : Listed w k docs) (hs : w'.stored = w.stored) :
    Listed w' k docs := by
  intro d hd o ho
  rw [hs]
  exact h d hd o ho

/-- The object a listing makes, counted in some listings. -/
def Obj.listed (counted : Bool) (o : Obj) : Obj := if counted then o.own 1 else o

/-- One document of a listing: it is not admitted, or its object is cached, or it is built and cached. -/
theorem run_collect_cons_iff {keep : Doc → Except Fault Bool} {counted : Bool} {d : Doc} {docs : List Doc}
    {r : List ℕ} (hl : w.Live k) :
    run (Controller.collect k keep counted (d :: docs)) w = .ok (r, w') ↔
      (keep d = .ok false ∧ run (Controller.collect k keep counted docs) w = .ok (r, w')) ∨
      ∃ oid r', keep d = .ok true ∧ d.get? "_id" = some (.oid oid) ∧
        ((∃ p, w.cached k oid = some p ∧ r = p :: r' ∧
            run (Controller.collect k keep counted docs) w = .ok (r', w')) ∨
          ∃ o, w.cached k oid = none ∧ k.dbClass.ofDoc d = .ok o ∧ r = w.heap.next :: r' ∧
            run (Controller.collect k keep counted docs) (w.load k (o.listed counted)) = .ok (r', w')) := by
  simp only [Controller.collect, run_bind_iff, run_ofExcept_iff]
  constructor
  · rintro ⟨b, _, ⟨ha, rfl⟩, h⟩
    cases b with
    | false => exact .inl ⟨ha, by simpa using h⟩
    | true =>
      simp only [if_true, run_bind_iff, run_ofExcept_iff] at h
      obtain ⟨oid, _, ⟨hi, rfl⟩, _, _, hs, h⟩ := h
      obtain ⟨rfl, rfl⟩ := (run_isAlredyInCash_iff hl).mp hs
      cases hc : w.cached k oid with
      | some p =>
        simp only [hc, run_bind_iff, run_pure_iff] at h
        obtain ⟨r', _, h, rfl, rfl⟩ := h
        exact .inr ⟨oid, r', ha, Doc.getOid_eq_ok.mp hi, .inl ⟨p, hc, rfl, h⟩⟩
      | none =>
        simp only [hc, run_bind_iff, run_construct_iff, run_pushBack_iff] at h
        obtain ⟨_, _, ⟨o, ho, rfl, rfl⟩, _, _, rfl, h⟩ := h
        cases counted with
        | false =>
          simp only [Bool.false_eq_true, if_false, run_bind_iff, run_pure_iff] at h
          obtain ⟨r', _, h, rfl, rfl⟩ := h
          exact .inr ⟨oid, r', ha, Doc.getOid_eq_ok.mp hi, .inr ⟨o, hc, ho, rfl, h⟩⟩
        | true =>
          simp only [if_true, run_bind_iff, run_pure_iff] at h
          obtain ⟨_, w₁, h₁, r', _, h, rfl, rfl⟩ := h
          obtain rfl := (own_push (ofDoc_isSome ho) 1 (by simp)).mp h₁
          exact .inr ⟨oid, r', ha, Doc.getOid_eq_ok.mp hi, .inr ⟨o, hc, ho, rfl, h⟩⟩
  · rintro (⟨ha, h⟩ | ⟨oid, r', ha, hi, ⟨p, hc, rfl, h⟩ | ⟨o, hc, ho, rfl, h⟩⟩)
    · exact ⟨false, w, ⟨ha, rfl⟩, by simpa using h⟩
    · refine ⟨true, w, ⟨ha, rfl⟩, ?_⟩
      simp only [if_true, run_bind_iff, run_ofExcept_iff]
      refine ⟨oid, w, ⟨Doc.getOid_eq_ok.mpr hi, rfl⟩, some p, w, (run_isAlredyInCash_iff hl).mpr ⟨hc, rfl⟩, ?_⟩
      simp only [run_bind_iff, run_pure_iff]
      exact ⟨r', w', h, rfl, rfl⟩
    · refine ⟨true, w, ⟨ha, rfl⟩, ?_⟩
      simp only [if_true, run_bind_iff, run_ofExcept_iff]
      refine ⟨oid, w, ⟨Doc.getOid_eq_ok.mpr hi, rfl⟩, none, w, (run_isAlredyInCash_iff hl).mpr ⟨hc, rfl⟩, ?_⟩
      simp only [run_bind_iff, run_construct_iff, run_pushBack_iff]
      refine ⟨_, _, ⟨o, ho, rfl, rfl⟩, ⟨⟩, _, rfl, ?_⟩
      cases counted with
      | false =>
        simp only [Bool.false_eq_true, if_false, run_bind_iff, run_pure_iff]
        exact ⟨r', w', h, rfl, rfl⟩
      | true =>
        simp only [if_true, run_bind_iff, run_pure_iff]
        exact ⟨⟨⟩, _, (own_push (ofDoc_isSome ho) 1 (by simp)).mpr rfl, r', w', h, rfl, rfl⟩

/-- The object a listing makes is of its controller and holds the stored document. -/
theorem listed_stored (counted : Bool) {d : Doc} {oid : Oid} {o : Obj} (hs : w.stored k oid = some d)
    (ho : k.dbClass.ofDoc d = .ok o) : ∃ b x, o.listed counted = ⟨some b, x⟩ ∧ b.core = (oid, d, true) ∧
      k.dbClass.fields d = .ok x ∧ b.ownedCount = if counted then 1 else 0 := by
  obtain ⟨x, -, rfl⟩ := ofDoc_stored hs ho
  have hx := fields_of_ofDoc ho
  cases counted with
  | false => exact ⟨_, x, rfl, rfl, hx, rfl⟩
  | true => exact ⟨_, x, rfl, rfl, hx, by simp [IFromDB.own]⟩

theorem quiet_listed {counted : Bool} {d : Doc} {oid : Oid} {o : Obj} (hm : ∀ o, L k o)
    (hs : w.stored k oid = some d) (hn : w.cached k oid = none) (ho : k.dbClass.ofDoc d = .ok o) :
    Quiet L w (w.load k (o.listed counted)) := by
  obtain ⟨b, x, he, hb, hx, -⟩ := listed_stored counted hs ho
  have hcls := DBClass.cls_fields hx
  simp only [IFromDB.core, Prod.mk.injEq] at hb
  rw [he]
  exact .single (.load (hm _) (by rw [hb.1, hn]) (by rw [hb.1, hb.2.1, hs]) hb.2.2 (Fields.kind_of_dbClass hcls)
    (by rw [hcls, hb.2.1, hx]))

theorem quiet_collect (hm : ∀ o, L k o) {keep : Doc → Except Fault Bool} {counted : Bool} {docs : List Doc}
    {r : List ℕ} (hw : Sound w) (hd : Listed w k docs)
    (h : run (Controller.collect k keep counted docs) w = .ok (r, w')) : Quiet L w w' := by
  induction docs generalizing w r with
  | nil =>
    obtain ⟨-, rfl⟩ := (run_pure_iff _).mp h
    exact .refl
  | cons d docs ih =>
    rcases (run_collect_cons_iff (hw.live k)).mp h with
      ⟨-, h⟩ | ⟨oid, r', -, hi, ⟨p, -, -, h⟩ | ⟨o, hn, ho, -, h⟩⟩
    · exact ih hw hd.tail h
    · exact ih hw hd.tail h
    · have hq : Quiet L w (w.load k (o.listed counted)) := quiet_listed hm (hd d (by simp) oid hi) hn ho
      exact hq.trans (ih (hq.sound hw) (hd.tail.of_stored hq.stored) h)

/-- What a listing yields is cached. -/
theorem mem_cash_of_collect {keep : Doc → Except Fault Bool} {counted : Bool} {docs : List Doc} {r : List ℕ}
    (hw : Sound w) (hd : Listed w k docs) (h : run (Controller.collect k keep counted docs) w = .ok (r, w')) :
    ∀ p ∈ r, p ∈ w'.cash k := by
  induction docs generalizing w r with
  | nil =>
    obtain ⟨rfl, -⟩ := (run_pure_iff _).mp h
    simp
  | cons d docs ih =>
    rcases (run_collect_cons_iff (hw.live k)).mp h with
      ⟨-, h'⟩ | ⟨oid, r', -, hi, ⟨p, hc, rfl, h'⟩ | ⟨o, hn, ho, rfl, h'⟩⟩
    · exact ih hw hd.tail h'
    · have hq : Quiet (fun _ _ => True) w w' := quiet_collect (by simp) hw hd.tail h'
      exact List.forall_mem_cons.mpr ⟨hq.mem_cash (Lib.Conf.cached_mem hc), ih hw hd.tail h'⟩
    · have hq₁ : Quiet (fun _ _ => True) w (w.load k (o.listed counted)) :=
        quiet_listed (by simp) (hd d (by simp) oid hi) hn ho
      have hd₁ := hd.tail.of_stored hq₁.stored
      have hq : Quiet (fun _ _ => True) _ w' := quiet_collect (by simp) (hq₁.sound hw) hd₁ h'
      exact List.forall_mem_cons.mpr ⟨hq.mem_cash (by simp [Lib.Conf.cash_load]), ih (hq₁.sound hw) hd₁ h'⟩

theorem reads_getAllTeachers (hm : ∀ o, L .accounts o) : Reads L AccountsController.getAllTeachers := by
  intro w r w' h hw
  simp only [AccountsController.getAllTeachers, run_bind_iff, run_find_iff] at h
  obtain ⟨_, _, ⟨rfl, rfl⟩, h⟩ := h
  exact quiet_collect hm hw (listed_filter w _ _) h

theorem reads_getAllSchedulesinDate (hm : ∀ o, L .schedules o) (date : Int32) (group : Pointer) :
    Reads L (ScheduleController.getAllSchedulesinDate date group) := by
  intro w r w' h hw
  simp only [ScheduleController.getAllSchedulesinDate, run_bind_iff, run_deref_iff, run_fromDB_iff,
    run_find_iff] at h
  obtain ⟨_, _, ⟨-, rfl⟩, _, _, ⟨-, rfl⟩, _, _, ⟨rfl, rfl⟩, h⟩ := h
  exact quiet_collect hm hw (listed_filter w _ _) h

/-! ### Setters -/

theorem reads_setRef (f : RefField) (this : ℕ) (v : Option ℕ) : Reads L (setRef f this v) := by
  have store : ∀ q, Reads L (do assign f this (.to q); own q 1) :=
    fun q => .bind (reads_assign _ _ _) fun _ => reads_own _ _
  refine .bind (reads_obj this) fun o => .ite (.bind (.fault _) fun _ => ?_) ?_ <;> cases v with
  | none => exact reads_assign _ _ _
  | some q => exact .bind (reads_obj q) fun o => .ite (.bind (.fault _) fun _ => store q) (store q)

theorem quiet_assignStudents {c : Option IFromDB} {g : Group} {this : ℕ}
    (h : w.heap.get this = some ⟨c, .group g⟩) (l : List ℕ) :
    Quiet L w (w.put this ⟨c, .group { g with students := l }⟩) := .single (.put h ⟨rfl, rfl⟩)

theorem reads_assignStudents (this : ℕ) (l : List ℕ) : Reads L (assignStudents this l) := by
  intro w u w' h _
  obtain ⟨c, g, hg, rfl⟩ := run_assignStudents_iff.mp h
  exact quiet_assignStudents hg l

theorem reads_forM {α : Type} {f : α → Cmd Unit} (hf : ∀ a, Reads L (f a)) (l : List α) :
    Reads L (l.forM f) := by
  induction l with
  | nil => exact .pure _
  | cons a l ih => exact .bind (hf a) fun _ => ih

theorem reads_ownAll (l : List ℕ) : Reads L (ownAll l) := by
  induction l with
  | nil => exact .pure _
  | cons p l ih => exact .bind (reads_own p 1) fun _ => ih

theorem reads_setStudents (this : ℕ) (l : List ℕ) : Reads L (Group.setStudents this l) :=
  .bind (reads_forM reads_checkStudent l) fun _ => .bind (reads_assignStudents this l) fun _ => reads_ownAll l

/-! ### Getters -/

theorem Settled.quiet {f : RefField} {this p : ℕ} {r : Option ℕ} (h : Settled w f this p r w') :
    Quiet L w w' := by
  cases h with
  | held => exact .refl
  | letGo hp hb hn ho => exact Relation.ReflTransGen.tail (.single (.put hp (.own _ _))) (.put ho (.setRef _ _ _))
  | freed hp hb hn ht ho =>
    refine Relation.ReflTransGen.tail (.single (.reap hp hb)) (.put ?_ (.setRef _ f .null))
    simpa [Lib.Heap.get_free, ht] using ho

/-- The id an object's own document holds under a key. -/
def Lib.Conf.docRef (w : World) (this : ℕ) (key : String) : Option Oid :=
  (((w.heap.get this).bind (·.fromDB)).bind fun b => b.doc.get? key).bind Bson.oid?

theorem docRef_of_get {this : ℕ} {b : IFromDB} {x : Fields} (h : w.heap.get this = some ⟨some b, x⟩)
    (key : String) : w.docRef this key = (b.doc.get? key).bind Bson.oid? := by simp [Lib.Conf.docRef, h]

theorem Got.quiet {f : RefField} {key : String} {load : Oid → Cmd (Option ℕ)} {this : ℕ} {r : Option ℕ}
    (h : Got w f key load this r w') (hw : Sound w)
    (hl : ∀ oid, w.docRef this key = some oid → Reads L (load oid)) : Quiet L w w' := by
  cases h with
  | settled ho hv hs => exact hs.quiet
  | absent => exact .refl
  | missed ho hn hv h₁ => exact hl _ (by simp [docRef_of_get ho, hv, Bson.oid?]) _ _ _ h₁ hw
  | loaded ho hn hv h₁ ho₁ hs =>
    have hq := hl _ (by simp [docRef_of_get ho, hv, Bson.oid?]) _ _ _ h₁ hw
    exact (hq.tail (.put ho₁ (.setRef _ _ _))).trans hs.quiet

/-- The key a getter reads. -/
def Getter.key : Getter → String
  | .getCurator => "Curator"
  | .getTeacherOwner | .getStudentOwner => "Owner"
  | .getStudentGroup | .getScheduleGroup => "Group"
  | .getAdditionalInfo | .getTeacher => "AdditionalInfo"

/-- The controller a getter looks in. -/
def Getter.kind : Getter → Kind
  | .getTeacherOwner | .getStudentOwner => .accounts
  | .getStudentGroup | .getScheduleGroup => .groups
  | .getCurator | .getAdditionalInfo | .getTeacher => .infos

/-- A getter loads only the id its object's document names. -/
theorem quiet_getter {g : Getter} {this : ℕ} {r : Option ℕ} (hw : Sound w)
    (h : run (g.call this) w = .ok (r, w')) :
    Quiet (fun k o => k = g.kind ∧ w.docRef this g.key = some o) w w' := by
  cases g with
  | getCurator =>
    exact (run_getRef h).quiet hw fun oid ho => .bind (reads_infosGetFromDB ⟨rfl, ho⟩) fun _ => reads_cast _ _
  | getTeacher =>
    exact (run_getRef h).quiet hw fun oid ho => .bind (reads_infosGetFromDB ⟨rfl, ho⟩) fun _ => reads_cast _ _
  | getAdditionalInfo =>
    exact (run_getRef h).quiet hw fun oid ho => .bind (reads_accountType _) fun _ => reads_infosGetFromDB ⟨rfl, ho⟩
  | getTeacherOwner => exact (run_getRef h).quiet hw fun oid ho => reads_getFromDB ⟨rfl, ho⟩
  | getStudentOwner => exact (run_getRef h).quiet hw fun oid ho => reads_getFromDB ⟨rfl, ho⟩
  | getStudentGroup => exact (run_getRef h).quiet hw fun oid ho => reads_getFromDB ⟨rfl, ho⟩
  | getScheduleGroup => exact (run_getRef h).quiet hw fun oid ho => reads_getFromDB ⟨rfl, ho⟩

/-- The object id of an array element, where there is one. -/
def Element.oid? : Element → Option Oid
  | .oid o => some o
  | .string _ => none

/-- The ids in the member list of a document. -/
def Doc.members (d : Doc) : List Oid :=
  match d.get? "Members" with
  | some (.array vs) => vs.filterMap Element.oid?
  | _ => []

/-- The ids in the member list of an object's own document. -/
def Lib.Conf.docMembers (w : World) (this : ℕ) : List Oid :=
  (((w.heap.get this).bind (·.fromDB)).map fun b => Doc.members b.doc).getD []

theorem quiet_loadStudents {this : ℕ} {vs : List Element} {u : Unit}
    (hm : ∀ o ∈ vs.filterMap Element.oid?, L .infos o) (hw : Sound w)
    (h : run (GroupDB.loadStudents this vs) w = .ok (u, w')) : Quiet L w w' := by
  induction vs generalizing w with
  | nil =>
    obtain ⟨-, rfl⟩ := (run_pure_iff _).mp h
    exact .refl
  | cons v vs ih =>
    obtain ⟨oid, r, w₁, rfl, h₁, h⟩ := run_loadStudents_cons_iff.mp h
    have ih := fun {w} => @ih w fun o ho => hm o (by simp only [List.filterMap_cons]; exact List.mem_cons_of_mem _ ho)
    have hq : Quiet L w w₁ := reads_infosGetFromDB (hm oid (by simp [Element.oid?])) _ _ _ h₁ hw
    rcases h with ⟨-, h⟩ | ⟨p, b, x, -, -, -, ⟨-, h⟩ | ⟨-, c, g, hg, h⟩⟩
    · exact hq.trans (ih (hq.sound hw) h)
    · exact hq.trans (ih (hq.sound hw) h)
    · have hq' := hq.trans (quiet_assignStudents hg (g.students ++ [p]))
      exact hq'.trans (ih (Quiet.sound hq' hw) h)

/-- `getStudents` loads only the members. -/
theorem quiet_getStudents {this : ℕ} {r : List ℕ} (hw : Sound w)
    (h : run (GroupDB.getStudents this) w = .ok (r, w')) :
    Quiet (fun k o => k = .infos ∧ o ∈ w.docMembers this) w w' := by
  obtain ⟨b, g, v, hg, hv, h, -⟩ := run_getStudents_iff.mp h
  have hq : Quiet (fun k o => k = .infos ∧ o ∈ w.docMembers this) w _ := quiet_assignStudents hg []
  rcases h with ⟨vs, rfl, h⟩ | ⟨-, rfl⟩
  · refine hq.trans (quiet_loadStudents (fun o ho => ⟨rfl, ?_⟩) (hq.sound hw) h)
    simpa [Lib.Conf.docMembers, hg, Doc.members, hv] using ho
  · exact hq

end Cbt
