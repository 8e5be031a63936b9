import Cbt.Sharing.Names
import Cbt.Windows.Pointers

/-! The operations, call by call. Whatever the other clients have done since the last
call of this one, every call that an operation makes is served, writes to collections
the operation may write to, and leaves every stored document of the class its id names. -/

namespace Cbt

open Lib.Command (Local run_bind_iff run_pure_iff run_fault_iff)

variable {α β : Type} {w w' : World} {k : Kind} {K : Kind → Prop} {κ : Names} {Γ : Classes}

instance : Nonempty Database := ⟨Database.empty⟩

/-- The collection a call writes to. -/
def Call.writes : Call → Kind → Prop
  | .insertOne k _, k' | .replaceOne k _ _, k' | .deleteOne k _, k' => k' = k
  | _, _ => False

/-- A call that writes to collections of `K` only. -/
def Call.Within (K : Kind → Prop) (c : Call) : Prop := ∀ k, c.writes k → K k

/-- A command whose calls are within `K`, are served and keep what every id names; its result has a type. -/
abbrev Obeys (K : Kind → Prop) (κ : Names) (Γ : Classes) (ty : Names → Classes → α → Prop) (m : Cmd α) : Prop :=
  Lib.Command.Upholds Database.serve (Call.Within K) Named Owns κ Γ ty m

/-- Results whose type nothing depends on. -/
abbrev free : Names → Classes → α → Prop := fun _ _ _ => True

/-- Results whose type is about the memory. -/
abbrev plain (ty : Classes → α → Prop) : Names → Classes → α → Prop := fun _ => ty

namespace Obeys

theorem done (a : α) : Obeys K κ Γ free (pure a) := .pure fun _ _ _ _ => trivial

theorem free {ty : Names → Classes → α → Prop} {m : Cmd α} (h : Obeys K κ Γ ty m) : Obeys K κ Γ Cbt.free m :=
  h.imp fun _ _ _ _ _ _ => trivial

end Obeys

/-! ### Commands on memory -/

/-- Every object that there is after the run is known before it. -/
def KeepsKnown (m : Cmd α) : Prop := ∀ κ w a w', run m w = .ok (a, w') →
  (∀ q o, w.heap.get q = some o → Names.Knows κ o) → ∀ q o, w'.heap.get q = some o → Names.Knows κ o

theorem KeepsKnown.still {m : Cmd α} (hm : Still m) : KeepsKnown m := by
  intro κ w a w' h hk
  obtain rfl := hm _ _ _ h
  exact hk

theorem known_put {p : ℕ} {o o' : Obj} (hp : w.heap.get p = some o) (hid : o'.fromDB.map (·.id) = o.fromDB.map (·.id))
    (hc : o'.fields.cls = o.fields.cls) (hk : ∀ q o, w.heap.get q = some o → κ.Knows o) :
    ∀ q o, (w.put p o').heap.get q = some o → κ.Knows o := by
  intro q oq hq
  rw [Lib.Conf.get_put hp] at hq
  split_ifs at hq with he
  · obtain rfl := Option.some.inj hq
    have ho := hk p o hp
    obtain ⟨b?, x⟩ := o
    obtain ⟨b'?, x'⟩ := o'
    obtain rfl | ⟨b', rfl⟩ := b'?.eq_none_or_eq_some
    · obtain rfl : b? = none := by simpa using hid.symm
      exact ⟨fun b hb => (by cases hb), fun hn => hc ▸ ho.concrete hn⟩
    · obtain ⟨b, rfl, hb⟩ : ∃ b, b? = some b ∧ b.id = b'.id := by
        simpa [Option.map_eq_some_iff] using hid.symm
      refine ⟨fun b₁ hb₁ => ?_, fun hn => by cases hn⟩
      obtain rfl := Option.some.inj hb₁
      have hadm := ho.admits b rfl
      rwa [hb, ← show x'.cls = x.cls from hc] at hadm
  · exact hk q oq hq

theorem known_push {o' : Obj} (ho : κ.Knows o') (hk : ∀ q o, w.heap.get q = some o → κ.Knows o) :
    ∀ q o, (w.push o').heap.get q = some o → κ.Knows o := by
  intro q oq hq
  rw [Lib.Conf.heap_push, Lib.Heap.get_push] at hq
  split_ifs at hq with he
  · exact Option.some.inj hq ▸ ho
  · exact hk q oq hq

/-- A command that makes no call keeps the types and what is known. -/
theorem obeys_local {ty : Classes → α → Prop} {m : Cmd α} (hl : Local m) (ht : Types Γ ty m) (hk : KeepsKnown m) :
    Obeys K κ Γ (plain ty) m := by
  refine .of_local hl fun κ₁ Γ₁ w a w' _ hΓ hw hr => ?_
  obtain ⟨Γ', hle, hw', ha⟩ := ht Γ₁ w a w' hΓ hw.wellTyped hr
  exact ⟨Γ', hle, ⟨hw'.of_heap rfl rfl, hk κ₁ w a w' hr hw.known⟩, ha⟩

theorem obeys_still {m : Cmd α} (hl : Local m) (hm : Still m) : Obeys K κ Γ free m :=
  obeys_local hl (types_still fun w a w' h => (hm w a w' h).symm) (.still hm)

theorem local_obj (p : ℕ) : Local (obj p) := .bind .of_get fun m => by
  cases m.heap.get p with
  | none => exact .fault _
  | some o => exact .pure o

theorem local_deref (v : Pointer) : Local (deref v) := by
  cases v with
  | uninit => exact .fault _
  | null => exact .fault _
  | «to» p => exact .pure p

theorem local_setObj (p : ℕ) (o : Obj) : Local (setObj p o) := .of_modify _

theorem local_newObj (o : Obj) : Local (newObj o) := .bind .of_get fun _ => .bind (.of_set _) fun _ => .pure _

theorem local_destroy (p : ℕ) : Local (destroy p) := .bind (local_obj p) fun _ => .of_modify _

theorem local_cash (k : Kind) : Local (cash k) := .bind .of_get fun _ => .pure _

theorem local_setCash (k : Kind) (l : List ℕ) : Local (setCash k l) := .of_modify _

theorem local_isChanged (k : Kind) : Local (isChanged k) := .bind .of_get fun _ => .pure _

theorem local_setChanged (k : Kind) (b : Bool) : Local (setChanged k b) := .of_modify _

theorem local_fromDB (p : ℕ) : Local (fromDB p) := .bind .of_get fun _ => .ofExcept _

theorem local_modifyFromDB (p : ℕ) (f : IFromDB → IFromDB) : Local (modifyFromDB p f) :=
  .bind (local_obj p) fun _ => .bind (local_fromDB p) fun _ => local_setObj _ _

theorem local_toDoc (p : ℕ) : Local (toDoc p) := .bind (local_obj p) fun _ => .bind .of_get fun _ => .ofExcept _

theorem local_construct (c : DBClass) (d : Doc) : Local (construct c d) := .bind (.ofExcept _) fun o => local_newObj o

theorem local_assign (f : RefField) (this : ℕ) (v : Pointer) : Local (assign f this v) :=
  .bind (local_obj this) fun _ => local_setObj _ _

theorem local_groupOf (p : ℕ) : Local (groupOf p) := .bind (local_obj p) fun o => by
  cases o.fields <;> first | exact .pure _ | exact .fault _

theorem local_assignStudents (this : ℕ) (l : List ℕ) : Local (assignStudents this l) :=
  .bind (local_obj this) fun _ => .bind (local_groupOf this) fun _ => local_setObj _ _

theorem local_setRef (f : RefField) (this : ℕ) (v : Option ℕ) : Local (setRef f this v) := by
  refine .bind (local_obj this) fun o => ?_
  cases v with
  | none => exact .ite (.bind (.fault _) fun _ => local_assign _ _ _) (local_assign _ _ _)
  | some q =>
    have htail : Local (do assign f this (.to q); own q 1) := .bind (local_assign _ _ _) fun _ => local_modifyFromDB _ _
    have hrest : Local (do
        if f.admits (← obj q).fields = false then Lib.Command.fault .badClass
        assign f this (.to q)
        own q 1) := .bind (local_obj q) fun o => .ite (.bind (.fault _) fun _ => htail) htail
    exact .ite (.bind (.fault _) fun _ => hrest) hrest

theorem keepsKnown_modifyFromDB (p : ℕ) (f : IFromDB → IFromDB) (hf : ∀ b, (f b).id = b.id) : KeepsKnown (modifyFromDB p f) := by
  intro κ w _ w' h hk
  obtain ⟨b, x, hp, rfl⟩ := run_modifyFromDB_iff.mp h
  exact known_put hp (by simp [hf]) rfl hk

theorem keepsKnown_assign (f : RefField) (this : ℕ) (v : Pointer) : KeepsKnown (assign f this v) := by
  intro κ w _ w' h hk
  obtain ⟨o, ho, rfl⟩ := run_assign_iff.mp h
  exact known_put ho rfl (Fields.cls_setRef _ _ _) hk

theorem keepsKnown_setRef (f : RefField) (this : ℕ) (v : Option ℕ) : KeepsKnown (setRef f this v) := by
  intro κ w _ w' h hk
  cases v with
  | none =>
    obtain ⟨o, -, ho, -, rfl⟩ := run_setRef_none_iff.mp h
    exact known_put ho rfl (Fields.cls_setRef _ _ _) hk
  | some q =>
    obtain ⟨o, -, oq, b, x, ho, -, -, -, hq, rfl⟩ := run_setRef_some_iff.mp h
    exact known_put hq rfl rfl (known_put ho rfl (Fields.cls_setRef _ _ _) hk)

theorem keepsKnown_destroy (p : ℕ) : KeepsKnown (destroy p) := by
  intro κ w _ w' h hk q o hq
  obtain ⟨-, rfl⟩ := run_destroy_iff.mp h
  rw [Lib.Conf.heap_free, Lib.Heap.get_free] at hq
  split_ifs at hq
  exact hk q o hq

theorem keepsKnown_newObj {x : Fields} (hx : x.cls ≠ .additionalInfoDB) : KeepsKnown (newObj ⟨none, x⟩) := by
  intro κ w _ w' h hk
  obtain ⟨-, rfl⟩ := run_newObj_iff.mp h
  exact known_push ⟨fun b hb => (by cases hb), fun _ => hx⟩ hk

theorem obeys_obj (p : ℕ) : Obeys K κ Γ (plain fun Γ o => Γ.cls p = some o.fields.cls ∧
    ∀ f q, o.fields.ref f = some (.to q) → Γ.Fits f q) (obj p) := by
  refine .of_local (local_obj p) fun κ₁ Γ₁ w a w' _ hΓ hw hr => ⟨Γ₁, le_rfl, ?_⟩
  obtain ⟨ho, rfl⟩ := run_obj_iff.mp hr
  exact ⟨hw, hw.wellTyped.cls p a ho, fun f q => hw.wellTyped.ref p a f q ho⟩

theorem obeys_fault (e : Fault) : Obeys K κ Γ free (Lib.Command.fault e : Cmd α) := .fault e

theorem obeys_ofExcept (x : Except Fault α) : Obeys K κ Γ free (Lib.Command.ofExcept x) :=
  obeys_still (.ofExcept x) fun _ _ _ h => ((Lib.Command.run_ofExcept_iff _).mp h).2

theorem obeys_deref (v : Pointer) : Obeys K κ Γ free (deref v) :=
  obeys_still (local_deref v) fun _ _ _ h => (run_deref_iff.mp h).2

theorem obeys_fromDB (p : ℕ) : Obeys K κ Γ free (fromDB p) := obeys_still (local_fromDB p) (still_fromDB p)

theorem obeys_modifyFromDB (p : ℕ) (f : IFromDB → IFromDB) (hf : ∀ b, (f b).id = b.id) : Obeys K κ Γ free (modifyFromDB p f) :=
  obeys_local (local_modifyFromDB p f) (types_modifyFromDB p f) (keepsKnown_modifyFromDB p f hf)

theorem obeys_own (p : ℕ) (n : ℤ) : Obeys K κ Γ free (own p n) := obeys_modifyFromDB p _ fun _ => rfl

theorem obeys_newObj {x : Fields} (hx : x.bare = x) (hc : x.cls ≠ .additionalInfoDB) :
    Obeys K κ Γ (plain fun Γ p => Γ.cls p = some x.cls) (newObj ⟨none, x⟩) :=
  obeys_local (local_newObj _) (types_newObj hx) (keepsKnown_newObj hc)

/-- What is built from a document that was found is of a class that its id admits. -/
theorem obeys_construct {c : DBClass} {d : Doc} (hd : κ.Found c.kind d) :
    Obeys K κ Γ (plain fun Γ p => Γ.cls p = some c) (construct c d) := by
  refine .of_local (local_construct c d) fun κ₁ Γ₁ w a w' hκ hΓ hw hr => ?_
  obtain ⟨Γ', hle, hw', ha⟩ := types_construct c d Γ₁ w a w' hΓ hw.wellTyped hr
  obtain ⟨o, ho, -, rfl⟩ := run_construct_iff.mp hr
  obtain ⟨x, j, hx, hj, rfl⟩ := ofDoc_eq_ok.mp ho
  obtain ⟨i, hrec⟩ := hd
  obtain rfl : i = j := by simpa using hrec.id.symm.trans hj
  refine ⟨Γ', hle, ⟨hw'.of_heap rfl rfl, known_push ⟨fun b hb => ?_, fun hn => by cases hn⟩ hw.known⟩, ha⟩
  obtain rfl := Option.some.inj hb
  exact (DBClass.cls_fields hx).symm ▸ (hrec.admits hx).mono hκ

theorem obeys_destroy (p : ℕ) : Obeys K κ Γ free (destroy p) :=
  obeys_local (local_destroy p) (types_destroy p) (keepsKnown_destroy p)

theorem obeys_cash (k : Kind) : Obeys K κ Γ (plain fun Γ l => ∀ p ∈ l, Γ.In k p) (cash k) :=
  obeys_local (local_cash k) (types_cash k) (.still (still_cash k))

theorem obeys_isChanged (k : Kind) : Obeys K κ Γ free (isChanged k) := obeys_still (local_isChanged k) (still_isChanged k)

theorem obeys_setCash {l : List ℕ} (hl : ∀ p ∈ l, Γ.In k p) : Obeys K κ Γ free (setCash k l) := by
  refine obeys_local (local_setCash k l) (types_setCash hl) fun κ w _ w' h hk => ?_
  obtain rfl := run_setCash_iff.mp h
  exact hk

theorem obeys_setChanged (k : Kind) (b : Bool) : Obeys K κ Γ free (setChanged k b) := by
  refine obeys_local (local_setChanged k b) (types_setChanged k b) fun κ w _ w' h hk => ?_
  obtain rfl := run_setChanged_iff.mp h
  exact hk

theorem obeys_value {x : Option α} {ty : Names → α → Prop} (hx : ∀ a, x = some a → ∀ κ', κ ≤ κ' → ty κ' a) :
    Obeys K κ Γ (fun κ _ => ty κ) (value x) := by
  cases x with
  | none => exact .fault _
  | some a => exact .pure fun κ' _ hκ _ => hx a rfl κ' hκ

theorem obeys_assign {f : RefField} {this : ℕ} {v : Pointer} (hv : ∀ q, v = .to q → Γ.Fits f q) :
    Obeys K κ Γ free (assign f this v) :=
  obeys_local (local_assign f this v) (types_assign hv) (keepsKnown_assign f this v)

theorem obeys_groupOf (p : ℕ) :
    Obeys K κ Γ (plain fun Γ g => ∀ q ∈ g.students, Γ.cls q = some .studentInfoDB) (groupOf p) :=
  obeys_local (local_groupOf p) (types_groupOf p) (.still (still_groupOf p))

theorem obeys_assignStudents {this : ℕ} {l : List ℕ} (hl : ∀ q ∈ l, Γ.cls q = some .studentInfoDB) :
    Obeys K κ Γ free (assignStudents this l) := by
  refine obeys_local (local_assignStudents this l) (types_assignStudents hl) fun κ w _ w' h hk => ?_
  obtain ⟨c, g, hg, rfl⟩ := run_assignStudents_iff.mp h
  exact known_put hg rfl rfl hk

theorem obeys_setRef (f : RefField) (this : ℕ) (v : Option ℕ) : Obeys K κ Γ free (setRef f this v) :=
  obeys_local (local_setRef f this v) (types_setRef f this v) (keepsKnown_setRef f this v)

/-! ### Calls -/

theorem owns_mono : ∀ (κ κ' : Names) Γ p, κ ≤ κ' → Owns κ Γ p → Owns κ' Γ p := fun _ _ _ _ hκ h => h.mono hκ

theorem obeys_call {c : Call} {ty : Names → c.Answer → Prop} (hc : c.Within K)
    (h : ∀ κ₁ db, κ ≤ κ₁ → Named κ₁ db → ∃ r db', Database.serve c db = .ok (r, db') ∧ ∃ κ', κ₁ ≤ κ' ∧ Named κ' db' ∧ ty κ' r) :
    Obeys K κ Γ (fun κ _ => ty κ) (Lib.Command.call c : Cmd c.Answer) :=
  .call owns_mono hc fun κ₁ _ db hκ _ hdb => h κ₁ db hκ hdb

theorem obeys_find (k : Kind) (filter : Doc) : Obeys K κ Γ (fun κ _ ds => ∀ d ∈ ds, κ.Found k d) (find k filter) := by
  refine obeys_call (c := .find k filter) (fun _ h => (h : False).elim) fun κ₁ db _ hdb => ?_
  refine ⟨_, db, rfl, κ₁, le_rfl, hdb, ?_⟩
  intro d hd
  obtain ⟨i, hi⟩ := Collection.mem_docs.mp (List.mem_filter.mp hd).1
  exact ⟨i, hdb.record k i d hi⟩

theorem obeys_findOne (k : Kind) (filter : Doc) :
    Obeys K κ Γ (fun κ _ r => ∀ d, r = some d → κ.Found k d) (findOne k filter) := by
  refine obeys_call (c := .findOne k filter) (fun _ h => (h : False).elim) fun κ₁ db _ hdb => ?_
  refine ⟨_, db, rfl, κ₁, le_rfl, hdb, ?_⟩
  intro d hd
  obtain ⟨i, hi⟩ := Collection.mem_docs.mp (List.mem_of_find?_eq_some hd)
  exact ⟨i, hdb.record k i d hi⟩

/-- A new id names what it is given to. -/
theorem Named.insert {db : Database} {c : DBClass} {d : Doc} (h : Named κ db) (hc : c ≠ .additionalInfoDB)
    (hd : κ.Describes c d) : ∃ κ', κ ≤ κ' ∧ Named κ' (db.insert c.kind d) := by
  have hκ : κ ≤ ⟨Function.update κ.cls db.nextOid (some c)⟩ := by
    intro i c' hi
    exact (Function.update_of_ne (h.given i c' hi).ne ..).trans hi
  refine ⟨_, hκ, fun k i d' hd' => ?_, fun i c' hi => ?_, fun i hi => ?_⟩
  · rw [Database.get?_insert] at hd'
    split_ifs at hd' with he
    · obtain ⟨rfl, rfl⟩ := he
      obtain rfl := Option.some.inj hd'
      exact ⟨c, d, rfl, .inl (Function.update_self ..), hd.mono hκ, rfl⟩
    · exact (h.record k i d' hd').mono hκ
  · by_cases he : i = db.nextOid
    · exact he ▸ Nat.lt_succ_self _
    · exact Nat.lt_succ_of_lt (h.given i c' (by simpa [Function.update_of_ne he] using hi))
  · by_cases he : i = db.nextOid
    · subst he
      exact hc (by simpa using hi)
    · exact h.concrete i (by simpa [Function.update_of_ne he] using hi)

theorem obeys_insertOne {c : DBClass} {d : Doc} (hK : K c.kind) (hc : c ≠ .additionalInfoDB) (hd : κ.Describes c d) :
    Obeys K κ Γ free (insertOne c.kind d) := by
  refine obeys_call (c := .insertOne c.kind d) (fun k hk => (show k = c.kind from hk) ▸ hK) fun κ₁ db hκ hdb => ?_
  obtain ⟨κ', hκ', hdb'⟩ := hdb.insert hc (hd.mono hκ)
  exact ⟨some db.nextOid, _, by simp only [Database.serve, hd.no_id], κ', hκ', hdb', trivial⟩

theorem obeys_replaceOne {i : Oid} {d : Doc} (hK : K k) (hd : κ.Record k i d) : Obeys K κ Γ free (replaceOne k i d) := by
  refine obeys_call (c := .replaceOne k i d) (fun k' hk => (show k' = k from hk) ▸ hK) fun κ₁ db hκ hdb => ?_
  cases hs : db.get? k i with
  | none => exact ⟨some 0, db, by simp only [Database.serve, hs], κ₁, le_rfl, hdb, trivial⟩
  | some d₀ =>
    refine ⟨some 1, db.replace k i d hd.id, by simp only [Database.serve, hs, dif_pos hd.id], κ₁, le_rfl, ⟨?_, hdb.given, hdb.concrete⟩, trivial⟩
    intro k' i' d' hd'
    rw [Database.get?_replace] at hd'
    split_ifs at hd' with he
    · obtain ⟨rfl, rfl⟩ := he
      obtain rfl : d = d' := by simpa [hs] using hd'
      exact hd.mono hκ
    · exact hdb.record k' i' d' hd'

theorem obeys_deleteOne (hK : K k) (i : Oid) : Obeys K κ Γ free (deleteOne k i) := by
  refine obeys_call (c := .deleteOne k i) (fun k' hk => (show k' = k from hk) ▸ hK) fun κ₁ db hκ hdb => ?_
  cases hs : db.get? k i with
  | none => exact ⟨some 0, db, by simp only [Database.serve, hs], κ₁, le_rfl, hdb, trivial⟩
  | some d₀ =>
    refine ⟨some 1, db.erase k i, by simp only [Database.serve, hs], κ₁, le_rfl, ⟨fun k' i' d' hd' => ?_, hdb.given, hdb.concrete⟩, trivial⟩
    rw [Database.get?_erase] at hd'
    split_ifs at hd'
    exact hdb.record k' i' d' hd'

/-! ### Controllers -/

theorem obeys_pushBack {p : ℕ} (hp : Γ.In k p) : Obeys K κ Γ free (Controller.pushBack k p) := by
  refine .bind (obeys_cash k) fun l κ₁ Γ₁ _ hle hl => obeys_setCash fun q hq => ?_
  rcases List.mem_append.mp hq with hq | hq
  · exact hl q hq
  · exact List.mem_singleton.mp hq ▸ hp.mono hle

theorem obeys_remove (p : ℕ) : Obeys K κ Γ free (Controller.remove k p) :=
  .bind (obeys_cash k) fun _ _ _ _ _ hl => obeys_setCash fun q hq => hl q (List.mem_filter.mp hq).1

theorem obeys_null {ty : Classes → ℕ → Prop} : Obeys K κ Γ (plain (nullOr ty)) (pure none) :=
  .pure fun _ _ _ _ p hp => by cases hp

theorem obeys_scan (oid : Oid) {l : List ℕ} (hl : ∀ p ∈ l, Γ.In k p) :
    Obeys K κ Γ (plain (nullOr fun Γ p => Γ.In k p)) (Controller.scan k oid l) := by
  induction l generalizing κ Γ with
  | nil => exact obeys_null
  | cons p rest ih =>
    rw [List.forall_mem_cons] at hl
    refine .bind (obeys_fromDB p) fun b κ₁ Γ₁ _ h₁ _ => .ite (fun _ => ?_) fun _ => .ite (fun _ => ?_) fun _ => ?_
    · refine .bind (obeys_own p _) fun _ κ₂ Γ₂ _ h₂ _ => .bind (obeys_fromDB p) fun b' κ₃ Γ₃ _ h₃ _ =>
        .ite (fun _ => ?_) fun _ => ?_
      · exact .bind (obeys_remove p) fun _ _ _ _ _ _ => .fault _
      · exact ih fun q hq => (hl.2 q hq).mono (h₁.trans (h₂.trans h₃))
    · refine .pure fun κ₂ Γ₂ _ h₂ q hq => ?_
      obtain rfl := Option.some.inj hq
      exact hl.1.mono (h₁.trans h₂)
    · exact ih fun q hq => (hl.2 q hq).mono h₁

theorem obeys_isAlredyInCash (oid : Oid) :
    Obeys K κ Γ (plain (nullOr fun Γ p => Γ.In k p)) (Controller.isAlredyInCash k oid) :=
  .bind (obeys_cash k) fun _ _ _ _ _ hl => obeys_scan oid hl

theorem obeys_lookUp {oid : Oid} {build : Doc → Cmd (Option ℕ)}
    (hb : ∀ d κ Γ, κ.Found k d → Obeys K κ Γ (plain (nullOr fun Γ p => Γ.In k p)) (build d)) :
    Obeys K κ Γ (plain (nullOr fun Γ p => Γ.In k p)) (Controller.lookUp k oid build) := by
  refine .bind (obeys_isAlredyInCash oid) fun r κ₁ Γ₁ _ _ hr => ?_
  cases r with
  | some p => exact .pure fun _ Γ₂ _ h₂ q hq => (hr q hq).mono h₂
  | none =>
    refine .bind (obeys_findOne k _) fun d κ₂ Γ₂ _ _ hd => ?_
    cases d with
    | none => exact obeys_null
    | some d => exact hb d κ₂ Γ₂ (hd d rfl)

theorem Kind.kind_dbClass (k : Kind) : k.dbClass.kind = k := by cases k <;> rfl

theorem obeys_getFromDB (k : Kind) (oid : Oid) :
    Obeys K κ Γ (plain (nullOr fun Γ p => Γ.In k p)) (Controller.getFromDB k oid) := by
  refine obeys_lookUp fun d κ Γ hd => .bind (obeys_construct (k.kind_dbClass.symm ▸ hd)) fun p κ₁ Γ₁ _ _ hp => ?_
  have hin : Γ₁.In k p := ⟨_, hp, k.kind_dbClass⟩
  refine .bind (obeys_pushBack hin) fun _ _ Γ₂ _ h₂ _ => .bind (obeys_own p 1) fun _ _ Γ₃ _ h₃ _ =>
    .pure fun _ Γ₄ _ h₄ q hq => ?_
  obtain rfl := Option.some.inj hq
  exact hin.mono (h₂.trans (h₃.trans h₄))

theorem obeys_infosGetFromDB (oid : Oid) (t : AccountType) :
    Obeys K κ Γ (plain (nullOr fun Γ p => Γ.In .infos p)) (InfosController.getFromDB oid t) := by
  refine obeys_lookUp fun d κ Γ hd => ?_
  cases hc : InfosController.classOf t with
  | none => exact obeys_null
  | some c =>
    have hk : c.kind = .infos := by cases t <;> cases hc <;> rfl
    refine .bind (obeys_construct (hk.symm ▸ hd)) fun p _ Γ₁ _ _ hp => .bind (obeys_own p 1) fun _ _ Γ₂ _ h₂ _ => ?_
    have hin : Γ₂.In .infos p := ⟨c, h₂ _ _ hp, hk⟩
    refine .bind (obeys_pushBack hin) fun _ _ Γ₃ _ h₃ _ => .pure fun _ Γ₄ _ h₄ q hq => ?_
    obtain rfl := Option.some.inj hq
    exact hin.mono (h₃.trans h₄)

theorem obeys_collect (keep : Doc → Except Fault Bool) (counted : Bool) {docs : List Doc} (hd : ∀ d ∈ docs, κ.Found k d) :
    Obeys K κ Γ free (Controller.collect k keep counted docs) := by
  induction docs generalizing κ Γ with
  | nil => exact Obeys.done _
  | cons d docs ih =>
    rw [List.forall_mem_cons] at hd
    have rest : ∀ {κ' : Names} {Γ' : Classes}, κ ≤ κ' → Obeys K κ' Γ' free (Controller.collect k keep counted docs) :=
      fun hκ => ih fun d hd' => (hd.2 d hd').mono hκ
    refine .bind (obeys_ofExcept _) fun _ κ₁ Γ₁ h₁ _ _ => .ite (fun _ => ?_) fun _ => rest h₁
    refine .bind (obeys_ofExcept _) fun oid κ₂ Γ₂ h₂ _ _ => .bind (obeys_isAlredyInCash oid) fun r κ₃ Γ₃ h₃ _ _ => ?_
    have h := h₁.trans (h₂.trans h₃)
    cases r with
    | some p => exact .bind (rest h) fun _ _ _ _ _ _ => Obeys.done _
    | none =>
      refine .bind (obeys_construct (k.kind_dbClass.symm ▸ hd.1.mono h)) fun p κ₄ Γ₄ h₄ _ hp => ?_
      refine .bind (obeys_pushBack ⟨_, hp, k.kind_dbClass⟩) fun _ κ₅ Γ₅ h₅ _ _ => .ite (fun _ => ?_) fun _ => ?_
      · exact .bind (obeys_own p 1) fun _ κ₆ _ h₆ _ _ =>
          .bind (rest (h.trans (h₄.trans (h₅.trans h₆)))) fun _ _ _ _ _ _ => Obeys.done _
      · exact .bind (rest (h.trans (h₄.trans h₅))) fun _ _ _ _ _ _ => Obeys.done _

theorem obeys_getAll (k : Kind) : Obeys K κ Γ free (Controller.getAll k) := by
  refine .bind (obeys_isChanged k) fun _ κ₁ Γ₁ _ _ _ => .ite (fun _ => Obeys.free (obeys_cash k)) fun _ => ?_
  exact .bind (obeys_find k []) fun docs _ _ _ _ hd => .bind (obeys_collect _ _ hd) fun _ _ _ _ _ _ =>
    .bind (obeys_setChanged k _) fun _ _ _ _ _ _ => Obeys.done _

theorem obeys_getAllTeachers : Obeys K κ Γ free AccountsController.getAllTeachers :=
  .bind (obeys_find .accounts _) fun _ _ _ _ _ hd => obeys_collect _ _ hd

theorem obeys_getAllSchedulesinDate (date : Int32) (group : Pointer) :
    Obeys K κ Γ free (ScheduleController.getAllSchedulesinDate date group) :=
  .bind (obeys_deref group) fun p _ _ _ _ _ => .bind (obeys_fromDB p) fun _ _ _ _ _ _ =>
    .bind (obeys_find .schedules _) fun _ _ _ _ _ hd => obeys_collect _ _ hd

theorem obeys_findFullAccount (l : LogPass) :
    Obeys K κ Γ (plain fun Γ p => Γ.In .accounts p) (AccountsController.findFullAccount l) := by
  refine .bind (obeys_findOne .accounts _) fun r κ₁ Γ₁ _ _ hr => ?_
  have hv : Obeys K κ₁ Γ₁ (fun κ _ d => κ.Found .accounts d) (value r) := obeys_value fun d hd κ' hκ => (hr d hd).mono hκ
  refine .bind hv fun d _ _ _ _ hd => ?_
  refine .bind (obeys_construct (c := .accountDB) hd) fun p _ Γ₂ _ _ hp => ?_
  have hin : Γ₂.In .accounts p := ⟨_, hp, rfl⟩
  exact .bind (obeys_pushBack hin) fun _ _ _ _ h₃ _ => .pure fun _ _ _ h₄ => hin.mono (h₃.trans h₄)

end Cbt
