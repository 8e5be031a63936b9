import Cbt.Owners.Holders

/-! The operations, call by call, as far as they say whose an info is. A look-up answers
with the object of the id it was asked for, a document that was found agrees with its id,
and a new document is of an id that no account refers to yet. -/

namespace Cbt

open Lib.Command (Local run_bind_iff run_pure_iff)

variable {α : Type} {w w' : World} {k : Kind} {f : RefField} {i j : Oid} {d : Doc} {η : Holders} {Λ : Labels}

/-- A command that leaves to every account what it holds, whatever others do between its calls. -/
abbrev Heeds (η : Holders) (Λ : Labels) (ty : Holders → Labels → α → Prop) (m : Cmd α) : Prop :=
  Lib.Command.Upholds Database.serve (fun _ => True) Granted Linked η Λ ty m

/-- Results nothing depends on. -/
abbrev loose : Holders → Labels → α → Prop := fun _ _ _ => True

/-- Null, or the address of an object of the entity. -/
abbrev ofEntity (i : Oid) : Holders → Labels → Option ℕ → Prop := fun _ Λ r => ∀ p, r = some p → Λ.label p = some (some i)

namespace Heeds

theorem done (a : α) : Heeds η Λ loose (pure a) := .pure fun _ _ _ _ => trivial

theorem any {ty : Holders → Labels → α → Prop} {m : Cmd α} (h : Heeds η Λ ty m) : Heeds η Λ loose m :=
  h.imp fun _ _ _ _ _ _ => trivial

theorem null : Heeds η Λ (ofEntity i) (pure none) := .pure fun _ _ _ _ p hp => by cases hp

end Heeds

/-! ### Commands on memory -/

/-- A command that makes no call and gives no address a label. -/
theorem heeds_local {ty : Holders → Labels → α → Prop} {m : Cmd α} (hl : Local m)
    (h : ∀ η₁ Λ₁ w a w', η ≤ η₁ → Λ ≤ Λ₁ → Linked η₁ Λ₁ w.mem → run m w = .ok (a, w') →
      Linked η₁ Λ₁ w'.mem ∧ ty η₁ Λ₁ a) : Heeds η Λ ty m :=
  .of_local hl fun η₁ Λ₁ w a w' hη hΛ hw hr => ⟨Λ₁, le_rfl, h η₁ Λ₁ w a w' hη hΛ hw hr⟩

theorem heeds_still {m : Cmd α} (hl : Local m) (hm : Still m) : Heeds η Λ loose m := by
  refine heeds_local hl fun η₁ Λ₁ w a w' _ _ hw hr => ⟨?_, trivial⟩
  obtain rfl := hm _ _ _ hr
  exact hw

theorem heeds_obj (p : ℕ) : Heeds η Λ (fun η Λ o => ∃ l, Λ.label p = some l ∧
    ∀ f q, o.fields.ref f = some (.to q) → η.Leads Λ f l q) (obj p) := by
  refine heeds_local (local_obj p) fun η₁ Λ₁ w o w' _ _ hw hr => ?_
  obtain ⟨ho, rfl⟩ := run_obj_iff.mp hr
  exact ⟨hw, _, hw.label p o ho, (hw.obj p o ho).ref⟩

theorem heeds_fromDB (p : ℕ) : Heeds η Λ (fun η Λ b => Λ.label p = some (some b.id) ∧ η.Agrees b.id b.doc) (fromDB p) := by
  refine heeds_local (local_fromDB p) fun η₁ Λ₁ w b w' _ _ hw hr => ?_
  obtain ⟨hb, rfl⟩ := run_fromDB_iff.mp hr
  obtain ⟨x, hx⟩ := header_eq_ok.mp hb
  exact ⟨hw, hw.label p _ hx, (hw.obj p _ hx).doc b rfl⟩

theorem heeds_fault (e : Fault) : Heeds η Λ loose (Lib.Command.fault e : Cmd α) := .fault e

theorem heeds_ofExcept (x : Except Fault α) : Heeds η Λ (fun _ _ a => x = .ok a) (Lib.Command.ofExcept x) := by
  cases x with
  | ok a => exact .pure fun _ _ _ _ => rfl
  | error e => exact .fault e

theorem heeds_deref (v : Pointer) : Heeds η Λ loose (deref v) :=
  heeds_still (local_deref v) fun _ _ _ h => (run_deref_iff.mp h).2

theorem heeds_cash (k : Kind) : Heeds η Λ loose (cash k) := heeds_still (local_cash k) (still_cash k)

theorem heeds_isChanged (k : Kind) : Heeds η Λ loose (isChanged k) := heeds_still (local_isChanged k) (still_isChanged k)

theorem heeds_groupOf (p : ℕ) : Heeds η Λ loose (groupOf p) := heeds_still (local_groupOf p) (still_groupOf p)

theorem heeds_value {x : Option α} {ty : Holders → α → Prop} (hx : ∀ a, x = some a → ∀ η', η ≤ η' → ty η' a) :
    Heeds η Λ (fun η _ => ty η) (value x) := by
  cases x with
  | none => exact .fault _
  | some a => exact .pure fun η' _ hη _ => hx a rfl η' hη

theorem heeds_anyValue (x : Option α) : Heeds η Λ loose (value x) := heeds_value fun _ _ _ _ => trivial

theorem heeds_setCash (k : Kind) (l : List ℕ) : Heeds η Λ loose (setCash k l) := by
  refine heeds_local (local_setCash k l) fun η₁ Λ₁ w _ w' _ _ hw hr => ⟨?_, trivial⟩
  obtain rfl := run_setCash_iff.mp hr
  exact hw.of_heap rfl

theorem heeds_setChanged (k : Kind) (b : Bool) : Heeds η Λ loose (setChanged k b) := by
  refine heeds_local (local_setChanged k b) fun η₁ Λ₁ w _ w' _ _ hw hr => ⟨?_, trivial⟩
  obtain rfl := run_setChanged_iff.mp hr
  exact hw.of_heap rfl

theorem heeds_destroy (p : ℕ) : Heeds η Λ loose (destroy p) := by
  refine heeds_local (local_destroy p) fun η₁ Λ₁ w _ w' _ _ hw hr => ⟨?_, trivial⟩
  obtain ⟨-, rfl⟩ := run_destroy_iff.mp hr
  exact hw.free p

/-- The part from the database stays of its entity, with a document that agrees. -/
theorem heeds_modifyFromDB {p : ℕ} {g : IFromDB → IFromDB} (hid : ∀ b, (g b).id = b.id)
    (hdoc : ∀ b η₁ Λ₁, η ≤ η₁ → Λ ≤ Λ₁ → Λ₁.label p = some (some b.id) → η₁.Agrees b.id b.doc → η₁.Agrees b.id (g b).doc) :
    Heeds η Λ loose (modifyFromDB p g) := by
  refine heeds_local (local_modifyFromDB p g) fun η₁ Λ₁ w _ w' hη hΛ hw hr => ⟨?_, trivial⟩
  obtain ⟨b, x, hp, rfl⟩ := run_modifyFromDB_iff.mp hr
  have ho := hw.obj p _ hp
  refine hw.put hp (by simp [hid]) ⟨fun b' hb => ?_, fun f q hq => ?_⟩
  · obtain rfl := Option.some.inj hb
    rw [hid]
    exact hdoc b η₁ Λ₁ hη hΛ (hw.label p _ hp) (ho.doc b rfl)
  · have hlead := ho.ref f q hq
    simpa [hid] using hlead

theorem heeds_own (p : ℕ) (n : ℤ) : Heeds η Λ loose (own p n) := heeds_modifyFromDB (fun _ => rfl) fun _ _ _ _ _ _ h => h

/-- An object takes another document of its entity. -/
theorem heeds_refresh {p : ℕ} (hp : Λ.label p = some (some i)) (hd : η.Agrees i d) :
    Heeds η Λ loose (modifyFromDB p fun b => { b with doc := d }) := by
  refine heeds_modifyFromDB (fun _ => rfl) fun b η₁ Λ₁ hη hΛ hb _ => ?_
  obtain rfl : i = b.id := by simpa using (hΛ _ _ hp).symm.trans hb
  exact hd.mono hη

theorem heeds_assign {this : ℕ} {v : Pointer} (hv : ∀ q, v = .to q → ∃ l, Λ.label this = some l ∧ η.Leads Λ f l q) :
    Heeds η Λ loose (assign f this v) := by
  refine heeds_local (local_assign f this v) fun η₁ Λ₁ w _ w' hη hΛ hw hr => ⟨?_, trivial⟩
  obtain ⟨o, ho, rfl⟩ := run_assign_iff.mp hr
  refine hw.put ho rfl ((hw.obj this o ho).setRef fun q hq => ?_)
  obtain ⟨l, hl, hlead⟩ := hv q hq
  obtain rfl : l = o.fromDB.map (·.id) := by simpa using (hΛ _ _ hl).symm.trans (hw.label this o ho)
  exact hlead.mono hη hΛ

theorem heeds_assignStudents (this : ℕ) (l : List ℕ) : Heeds η Λ loose (assignStudents this l) := by
  refine heeds_local (local_assignStudents this l) fun η₁ Λ₁ w _ w' _ _ hw hr => ⟨?_, trivial⟩
  obtain ⟨c, g, hg, rfl⟩ := run_assignStudents_iff.mp hr
  have ho := hw.obj this _ hg
  exact hw.put hg rfl ⟨ho.doc, fun f q hq => ho.ref f q (by cases f <;> exact hq)⟩

/-- A member takes an object it may point to. -/
theorem heeds_setRef {this : ℕ} {v : Option ℕ} (hv : ∀ η₁ Λ₁ q l j, η ≤ η₁ → Λ ≤ Λ₁ → v = some q →
    Λ₁.label this = some l → Λ₁.label q = some (some j) → η₁.Links f l (some j)) : Heeds η Λ loose (setRef f this v) := by
  refine heeds_local (local_setRef f this v) fun η₁ Λ₁ w _ w' hη hΛ hw hr => ⟨?_, trivial⟩
  cases v with
  | none =>
    obtain ⟨o, -, ho, -, rfl⟩ := run_setRef_none_iff.mp hr
    exact hw.put ho rfl ((hw.obj this o ho).setRef fun q hq => by cases hq)
  | some q =>
    obtain ⟨o, -, oq, b, x, ho, -, -, -, hq, rfl⟩ := run_setRef_some_iff.mp hr
    have hlq : Λ₁.label q = some (some b.id) := by
      rw [Lib.Conf.get_put ho] at hq
      split_ifs at hq with he
      · subst he
        rw [hw.label q o ho, show o.fromDB = some b from congrArg Obj.fromDB (Option.some.inj hq), Option.map_some]
      · exact hw.label q _ hq
    have hlead : η₁.Leads Λ₁ f (o.fromDB.map (·.id)) q := ⟨_, hlq, hv η₁ Λ₁ q _ _ hη hΛ rfl (hw.label this o ho) hlq⟩
    have hset : η₁.Grants Λ₁ (o.setRef f (.to q)) := (hw.obj this o ho).setRef fun q' hq' => Pointer.to.inj hq' ▸ hlead
    have hw₁ : Linked η₁ Λ₁ (w.put this (o.setRef f (.to q))).mem := hw.put ho rfl hset
    have hx := hw₁.obj q _ hq
    exact hw₁.put hq rfl ⟨fun b' hb => Option.some.inj hb ▸ hx.doc b rfl, hx.ref⟩

theorem heeds_newObj {x : Fields} (hx : x.bare = x) : Heeds η Λ (fun _ Λ p => Λ.label p = some none) (newObj ⟨none, x⟩) := by
  refine .of_local (local_newObj _) fun η₁ Λ₁ w p w' _ _ hw hr => ?_
  obtain ⟨rfl, rfl⟩ := run_newObj_iff.mp hr
  exact hw.push (Holders.grants_bare hx fun b hb => by cases hb)

/-- What is built from a document is the object of its id. -/
theorem heeds_construct {c : DBClass} (hi : d.get? "_id" = some (.oid i)) (hd : η.Agrees i d) :
    Heeds η Λ (fun _ Λ p => Λ.label p = some (some i)) (construct c d) := by
  refine .of_local (local_construct c d) fun η₁ Λ₁ w p w' hη _ hw hr => ?_
  obtain ⟨o, ho, rfl, rfl⟩ := run_construct_iff.mp hr
  obtain ⟨x, j, hx, hj, rfl⟩ := ofDoc_eq_ok.mp ho
  obtain rfl : i = j := by simpa using hi.symm.trans hj
  have hbare : x.bare = x := DBClass.bare_fields hx
  exact hw.push (Holders.grants_bare hbare fun b hb => Option.some.inj hb ▸ hd.mono hη)

/-! ### Calls -/

theorem heeds_call {c : Call} {ty : Holders → c.Answer → Prop}
    (h : ∀ η₁ db, η ≤ η₁ → Granted η₁ db → ∃ r db', Database.serve c db = .ok (r, db') ∧ ∃ η', η₁ ≤ η' ∧ Granted η' db' ∧ ty η' r) :
    Heeds η Λ (fun η _ => ty η) (Lib.Command.call c : Cmd c.Answer) :=
  .call (fun _ _ _ _ hη hp => hp.mono hη) trivial fun η₁ _ db hη _ hdb => h η₁ db hη hdb

theorem heeds_find (k : Kind) (filter : Doc) : Heeds η Λ (fun η _ ds => ∀ d ∈ ds, η.Stored d) (find k filter) := by
  refine heeds_call (c := .find k filter) fun η₁ db _ hdb => ⟨_, db, rfl, η₁, le_rfl, hdb, ?_⟩
  exact fun d hd => hdb.stored (List.mem_filter.mp hd).1

theorem heeds_findOne (k : Kind) (filter : Doc) :
    Heeds η Λ (fun η _ r => ∀ d, r = some d → Doc.fits filter d = true ∧ η.Stored d) (findOne k filter) := by
  refine heeds_call (c := .findOne k filter) fun η₁ db _ hdb => ⟨_, db, rfl, η₁, le_rfl, hdb, ?_⟩
  exact fun d hd => ⟨List.find?_some hd, hdb.stored (List.mem_of_find?_eq_some hd)⟩

/-- What is found for an id is of the id. -/
theorem heeds_findById (k : Kind) (i : Oid) :
    Heeds η Λ (fun η _ r => ∀ d, r = some d → d.get? "_id" = some (.oid i) ∧ η.Agrees i d) (findOne k (Doc.byId i)) := by
  refine Lib.Command.Upholds.imp (heeds_findOne k _) fun _ _ _ _ _ h d hd => ?_
  obtain ⟨hf, hs⟩ := h d hd
  exact ⟨Doc.fits_byId.mp hf, hs.agrees (Doc.fits_byId.mp hf)⟩

/-- The document of a plain object has no id, and refers to no info. -/
def Doc.Plain (d : Doc) : Prop := d.get? "_id" = none ∧ ∀ i, d.get? RefField.additionalInfo.key ≠ some (.oid i)

/-- An info is given to the account it is stored with. -/
theorem Granted.insert {db : Database} (h : Granted η db) (hd : d.Plain) : ∃ η', η ≤ η' ∧ Granted η' (db.insert k d) := by
  obtain ⟨hid, hno⟩ := hd
  have hη : η ≤ ⟨Function.update η.account db.nextOid ((d.get? RefField.owner.key).bind Bson.oid?)⟩ := by
    intro i a hi
    exact (Function.update_of_ne (h.given i a hi).ne ..).trans hi
  refine ⟨_, hη, fun k' i d' hd' => ?_, fun i a hi => ?_⟩
  · rw [Database.get?_insert] at hd'
    split_ifs at hd' with he
    · obtain ⟨-, rfl⟩ := he
      obtain rfl := Option.some.inj hd'
      intro f j hj
      rw [Collection.withId, Doc.get?_cons, if_neg (by cases f <;> decide)] at hj
      cases f with
      | additionalInfo => exact absurd hj (hno j)
      | owner => exact (Function.update_self ..).trans (by rw [hj]; rfl)
      | curator | group | teacher => trivial
    · exact (h.agrees k' i d' hd').mono hη
  · by_cases he : i = db.nextOid
    · exact he ▸ Nat.lt_succ_self _
    · exact Nat.lt_succ_of_lt (h.given i a ((Function.update_of_ne he ..).symm.trans hi))

theorem heeds_insertOne (hd : d.Plain) : Heeds η Λ loose (insertOne k d) := by
  refine heeds_call (c := .insertOne k d) fun η₁ db _ hdb => ?_
  obtain ⟨η', hη, hdb'⟩ := hdb.insert (k := k) hd
  exact ⟨some db.nextOid, _, by simp only [Database.serve, hd.1], η', hη, hdb', trivial⟩

theorem heeds_replaceOne (hi : d.get? "_id" = some (.oid i)) (hd : η.Agrees i d) : Heeds η Λ loose (replaceOne k i d) := by
  refine heeds_call (c := .replaceOne k i d) fun η₁ db hη hdb => ?_
  cases hs : db.get? k i with
  | none => exact ⟨some 0, db, by simp only [Database.serve, hs], η₁, le_rfl, hdb, trivial⟩
  | some d₀ =>
    refine ⟨some 1, db.replace k i d hi, by simp only [Database.serve, hs, dif_pos hi], η₁, le_rfl, ⟨?_, hdb.given⟩, trivial⟩
    intro k' i' d' hd'
    rw [Database.get?_replace] at hd'
    split_ifs at hd' with he
    · obtain ⟨rfl, rfl⟩ := he
      obtain rfl : d = d' := by simpa [hs] using hd'
      exact hd.mono hη
    · exact hdb.agrees k' i' d' hd'

theorem heeds_deleteOne (k : Kind) (i : Oid) : Heeds η Λ loose (deleteOne k i) := by
  refine heeds_call (c := .deleteOne k i) fun η₁ db _ hdb => ?_
  cases hs : db.get? k i with
  | none => exact ⟨some 0, db, by simp only [Database.serve, hs], η₁, le_rfl, hdb, trivial⟩
  | some d₀ =>
    refine ⟨some 1, db.erase k i, by simp only [Database.serve, hs], η₁, le_rfl, ⟨fun k' i' d' hd' => ?_, hdb.given⟩, trivial⟩
    rw [Database.get?_erase] at hd'
    split_ifs at hd'
    exact hdb.agrees k' i' d' hd'

/-! ### Controllers -/

theorem heeds_pushBack (p : ℕ) : Heeds η Λ loose (Controller.pushBack k p) :=
  .bind (heeds_cash k) fun _ _ _ _ _ _ => heeds_setCash k _

theorem heeds_remove (p : ℕ) : Heeds η Λ loose (Controller.remove k p) :=
  .bind (heeds_cash k) fun _ _ _ _ _ _ => heeds_setCash k _

theorem heeds_scan (oid : Oid) (l : List ℕ) : Heeds η Λ (ofEntity oid) (Controller.scan k oid l) := by
  induction l generalizing η Λ with
  | nil => exact Heeds.null
  | cons p rest ih =>
    refine .bind (heeds_fromDB p) fun b _ _ _ _ hb => .ite (fun _ => ?_) fun _ => .ite (fun he => ?_) fun _ => ih
    · refine .bind (heeds_own p _) fun _ _ _ _ _ _ => .bind (heeds_fromDB p) fun _ _ _ _ _ _ => .ite (fun _ => ?_) fun _ => ih
      exact .bind (heeds_remove p) fun _ _ _ _ _ _ => .fault _
    · refine .pure fun _ _ _ hΛ q hq => ?_
      obtain rfl := Option.some.inj hq
      exact he ▸ hΛ _ _ hb.1

theorem heeds_isAlredyInCash (oid : Oid) : Heeds η Λ (ofEntity oid) (Controller.isAlredyInCash k oid) :=
  .bind (heeds_cash k) fun l _ _ _ _ _ => heeds_scan oid l

theorem heeds_lookUp {oid : Oid} {build : Doc → Cmd (Option ℕ)}
    (hb : ∀ d η Λ, d.get? "_id" = some (.oid oid) → η.Agrees oid d → Heeds η Λ (ofEntity oid) (build d)) :
    Heeds η Λ (ofEntity oid) (Controller.lookUp k oid build) := by
  refine .bind (heeds_isAlredyInCash oid) fun r _ _ _ _ hr => ?_
  cases r with
  | some p => exact .pure fun _ _ _ hΛ q hq => hΛ _ _ (hr q hq)
  | none =>
    refine .bind (heeds_findById k oid) fun d η₁ Λ₁ _ _ hd => ?_
    cases d with
    | none => exact Heeds.null
    | some d => exact hb d η₁ Λ₁ (hd d rfl).1 (hd d rfl).2

theorem heeds_getFromDB (k : Kind) (oid : Oid) : Heeds η Λ (ofEntity oid) (Controller.getFromDB k oid) := by
  refine heeds_lookUp fun d η Λ hi hd => .bind (heeds_construct hi hd) fun p _ _ _ _ hp => ?_
  refine .bind (heeds_pushBack p) fun _ _ _ _ h₁ _ => .bind (heeds_own p 1) fun _ _ _ _ h₂ _ => .pure fun _ _ _ h₃ q hq => ?_
  obtain rfl := Option.some.inj hq
  exact (h₁.trans (h₂.trans h₃)) _ _ hp

theorem heeds_infosGetFromDB (oid : Oid) (t : AccountType) : Heeds η Λ (ofEntity oid) (InfosController.getFromDB oid t) := by
  refine heeds_lookUp fun d η Λ hi hd => ?_
  cases InfosController.classOf t with
  | none => exact Heeds.null
  | some c =>
    refine .bind (heeds_construct hi hd) fun p _ _ _ _ hp => .bind (heeds_own p 1) fun _ _ _ _ h₁ _ => ?_
    refine .bind (heeds_pushBack p) fun _ _ _ _ h₂ _ => .pure fun _ _ _ h₃ q hq => ?_
    obtain rfl := Option.some.inj hq
    exact (h₁.trans (h₂.trans h₃)) _ _ hp

theorem heeds_collect (keep : Doc → Except Fault Bool) (counted : Bool) {docs : List Doc} (hd : ∀ d ∈ docs, η.Stored d) :
    Heeds η Λ loose (Controller.collect k keep counted docs) := by
  induction docs generalizing η Λ with
  | nil => exact Heeds.done _
  | cons d docs ih =>
    rw [List.forall_mem_cons] at hd
    have rest {η' : Holders} {Λ' : Labels} (hη : η ≤ η') : Heeds η' Λ' loose (Controller.collect k keep counted docs) :=
      ih fun d hd' => (hd.2 d hd').mono hη
    refine .bind (heeds_ofExcept _) fun _ _ _ h₁ _ _ => .ite (fun _ => ?_) fun _ => rest h₁
    refine .bind (heeds_ofExcept _) fun oid _ _ h₂ _ hoid => .bind (heeds_isAlredyInCash oid) fun r _ _ h₃ _ _ => ?_
    have h := h₁.trans (h₂.trans h₃)
    cases r with
    | some p => exact .bind (rest h) fun _ _ _ _ _ _ => Heeds.done _
    | none =>
      have hi := Doc.getOid_eq_ok.mp hoid
      refine .bind (heeds_construct hi ((hd.1.agrees hi).mono h)) fun p _ _ h₄ _ _ => .bind (heeds_pushBack p) fun _ _ _ h₅ _ _ => ?_
      refine .ite (fun _ => .bind (heeds_own p 1) fun _ _ _ h₆ _ _ => ?_) fun _ => ?_
      · exact .bind (rest (h.trans (h₄.trans (h₅.trans h₆)))) fun _ _ _ _ _ _ => Heeds.done _
      · exact .bind (rest (h.trans (h₄.trans h₅))) fun _ _ _ _ _ _ => Heeds.done _

theorem heeds_getAll (k : Kind) : Heeds η Λ loose (Controller.getAll k) := by
  refine .bind (heeds_isChanged k) fun _ _ _ _ _ _ => .ite (fun _ => heeds_cash k) fun _ => ?_
  exact .bind (heeds_find k []) fun docs _ _ _ _ hd => .bind (heeds_collect _ _ hd) fun _ _ _ _ _ _ =>
    .bind (heeds_setChanged k _) fun _ _ _ _ _ _ => Heeds.done _

theorem heeds_getAllTeachers : Heeds η Λ loose AccountsController.getAllTeachers :=
  .bind (heeds_find .accounts _) fun _ _ _ _ _ hd => heeds_collect _ _ hd

theorem heeds_getAllSchedulesinDate (date : Int32) (group : Pointer) :
    Heeds η Λ loose (ScheduleController.getAllSchedulesinDate date group) :=
  .bind (heeds_deref group) fun p _ _ _ _ _ => .bind (heeds_fromDB p) fun _ _ _ _ _ _ =>
    .bind (heeds_find .schedules _) fun _ _ _ _ _ hd => heeds_collect _ _ hd

theorem heeds_findFullAccount (l : LogPass) : Heeds η Λ loose (AccountsController.findFullAccount l) := by
  refine .bind (heeds_findOne .accounts _) fun r η₁ Λ₁ _ _ hr => ?_
  have hv : Heeds η₁ Λ₁ (fun η _ d => η.Stored d) (value r) := heeds_value fun d hd _ hη => (hr d hd).2.mono hη
  refine .bind hv fun d _ _ _ _ hd => ?_
  obtain ⟨i, hi, hd⟩ := hd
  exact .bind (heeds_construct hi hd) fun p _ _ _ _ _ => .bind (heeds_pushBack p) fun _ _ _ _ _ _ => Heeds.done _

end Cbt
