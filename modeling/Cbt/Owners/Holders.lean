import Cbt.Sharing.Screens

/-! Whose an info is. An info is stored for an account, and only this account refers to
it later. Documents are deleted and replaced, and memories of clients go on speaking of
them, so the account is remembered by itself: it is fixed when the id is given out, and
whatever a document or an object says about the two agrees with it. -/

namespace Cbt

variable {f : RefField} {i j : Oid} {p q : ℕ} {o o' : Obj} {d : Doc} {w : World}

/-- An account refers to an info, or the info names it as its owner. -/
def Database.Holds (db : Database) (a i : Oid) : Prop :=
  (∃ d, db.get? .accounts a = some d ∧ d.get? "AdditionalInfo" = some (.oid i)) ∨
    ∃ d, db.get? .infos i = some d ∧ d.get? "Owner" = some (.oid a)

/-- The account an info was given to. -/
structure Holders where
  account : Oid → Option Oid

instance : Preorder Holders where
  le η η' := ∀ i a, η.account i = some a → η'.account i = some a
  le_refl _ _ _ h := h
  le_trans _ _ _ h h' i a ha := h' i a (h i a ha)

/-- The id of the object that is or was at an address; a plain object has none. -/
structure Labels where
  label : ℕ → Option (Option Oid)

instance : Preorder Labels where
  le Λ Λ' := ∀ p l, Λ.label p = some l → Λ'.label p = some l
  le_refl _ _ _ h := h
  le_trans _ _ _ h h' p l hl := h' p l (h p l hl)

namespace Holders

variable {η η' : Holders} {Λ Λ' : Labels} {l l' : Option Oid}

/-- A member of one entity may name another. -/
def Names (η : Holders) : RefField → Oid → Oid → Prop
  | .additionalInfo, a, i | .owner, i, a => η.account i = some a
  | _, _, _ => True

/-- A member of an object may point to another. No plain object has an info, and nobody points to plain objects. -/
def Links (η : Holders) (f : RefField) : Option Oid → Option Oid → Prop
  | none, some _ => f ≠ .additionalInfo
  | some i, some j => η.Names f i j
  | _, none => False

/-- A document of the entity with an id. -/
def Agrees (η : Holders) (i : Oid) (d : Doc) : Prop := ∀ (f : RefField) j, d.get? f.key = some (.oid j) → η.Names f i j

/-- A document that a query may answer. -/
def Stored (η : Holders) (d : Doc) : Prop := ∃ i, d.get? "_id" = some (.oid i) ∧ η.Agrees i d

/-- A member of an object with the label may point to an address. -/
def Leads (η : Holders) (Λ : Labels) (f : RefField) (l : Option Oid) (p : ℕ) : Prop :=
  ∃ l', Λ.label p = some l' ∧ η.Links f l l'

/-- What an object remembers of its document, and where its members point. -/
structure Grants (η : Holders) (Λ : Labels) (o : Obj) : Prop where
  doc : ∀ b, o.fromDB = some b → η.Agrees b.id b.doc
  ref : ∀ f p, o.fields.ref f = some (.to p) → η.Leads Λ f (o.fromDB.map (·.id)) p

theorem Names.mono (h : η.Names f i j) (hη : η ≤ η') : η'.Names f i j := by
  cases f <;> first | exact hη _ _ h | trivial

theorem Links.mono (h : η.Links f l l') (hη : η ≤ η') : η'.Links f l l' := by
  cases l' with
  | none => cases l <;> exact h
  | some j => cases l with
    | none => exact h
    | some i => exact Names.mono h hη

theorem Agrees.mono (h : η.Agrees i d) (hη : η ≤ η') : η'.Agrees i d := fun f j hj => (h f j hj).mono hη

theorem Stored.mono (h : η.Stored d) (hη : η ≤ η') : η'.Stored d := h.imp fun _ hi => ⟨hi.1, hi.2.mono hη⟩

theorem Stored.agrees (h : η.Stored d) (hi : d.get? "_id" = some (.oid i)) : η.Agrees i d := by
  obtain ⟨j, hj, hd⟩ := h
  obtain rfl : j = i := by simpa using hj.symm.trans hi
  exact hd

theorem Leads.mono (h : η.Leads Λ f l p) (hη : η ≤ η') (hΛ : Λ ≤ Λ') : η'.Leads Λ' f l p :=
  h.imp fun _ hl => ⟨hΛ _ _ hl.1, hl.2.mono hη⟩

theorem Grants.mono (h : η.Grants Λ o) (hη : η ≤ η') (hΛ : Λ ≤ Λ') : η'.Grants Λ' o :=
  ⟨fun b hb => (h.doc b hb).mono hη, fun f p hp => (h.ref f p hp).mono hη hΛ⟩

/-- The other members may point anywhere. -/
theorem links_other (ho : f ≠ .owner) (ha : f ≠ .additionalInfo) (l : Option Oid) (j : Oid) : η.Links f l (some j) := by
  cases l with
  | none => exact ha
  | some i => cases f <;> first | exact absurd rfl ho | exact absurd rfl ha | trivial

/-- A new object of no entity. -/
theorem grants_bare {b? : Option IFromDB} {x : Fields} (hx : x.bare = x) (hb : ∀ b, b? = some b → η.Agrees b.id b.doc) :
    η.Grants Λ ⟨b?, x⟩ := by
  refine ⟨hb, fun f p hp => ?_⟩
  rw [← hx] at hp
  cases x <;> cases f <;> cases hp

/-- An assignment of one member. -/
theorem Grants.setRef (h : η.Grants Λ o) {v : Pointer} (hv : ∀ p, v = .to p → η.Leads Λ f (o.fromDB.map (·.id)) p) :
    η.Grants Λ (o.setRef f v) := by
  refine ⟨h.doc, fun f' p hp => ?_⟩
  by_cases hf : f' = f
  · subst hf
    cases hu : o.fields.ref f' with
    | none =>
      rw [Obj.setRef, Fields.ref_setRef_none hu] at hp
      cases hp
    | some u =>
      rw [Obj.setRef, Fields.ref_setRef hu, Option.some.injEq] at hp
      exact hv p hp
  · exact h.ref f' p ((Fields.ref_setRef_of_ne hf _ _).symm.trans hp)

end Holders

/-! ### The database and a memory -/

/-- All stored documents agree, and an account is remembered for no id that is not given out. -/
structure Granted (η : Holders) (db : Database) : Prop where
  agrees : ∀ k i d, db.get? k i = some d → η.Agrees i d
  given : ∀ i a, η.account i = some a → i < db.nextOid

/-- The objects of a process have the ids of their addresses, and agree. -/
structure Linked (η : Holders) (Λ : Labels) (p : Process) : Prop where
  label : ∀ q o, p.heap.get q = some o → Λ.label q = some (o.fromDB.map (·.id))
  below : ∀ q l, Λ.label q = some l → q < p.heap.next
  obj : ∀ q o, p.heap.get q = some o → η.Grants Λ o

variable {η η' : Holders} {Λ : Labels}

theorem Linked.mono {p : Process} (h : Linked η Λ p) (hη : η ≤ η') : Linked η' Λ p :=
  ⟨h.label, h.below, fun q o hq => (h.obj q o hq).mono hη le_rfl⟩

theorem linked_init : Linked η ⟨fun _ => none⟩ Process.init where
  label q o hq := by simp [Process.init] at hq
  below q l hl := by cases hl
  obj q o hq := by simp [Process.init] at hq

theorem Granted.stored {db : Database} {k : Kind} (h : Granted η db) (hd : d ∈ (db.coll k).docs) : η.Stored d := by
  obtain ⟨i, hi⟩ := Collection.mem_docs.mp hd
  exact ⟨i, (db.coll k).ids i d hi, h.agrees k i d hi⟩

namespace Linked

theorem of_heap {w' : World} (h : Linked η Λ w.mem) (hw : w'.heap = w.heap) : Linked η Λ w'.mem := by
  have hm : w'.mem.heap = w.mem.heap := hw
  exact ⟨hm ▸ h.label, hm ▸ h.below, hm ▸ h.obj⟩

theorem put (h : Linked η Λ w.mem) (hp : w.heap.get p = some o) (hid : o'.fromDB.map (·.id) = o.fromDB.map (·.id))
    (ho : η.Grants Λ o') : Linked η Λ (w.put p o').mem := by
  have hget : ∀ q, (w.put p o').heap.get q = if q = p then some o' else w.heap.get q := Lib.Conf.get_put hp
  refine ⟨fun q oq hq => ?_, fun q l hq => ?_, fun q oq hq => ?_⟩
  · rw [show (w.put p o').mem.heap.get q = _ from hget q] at hq
    split_ifs at hq with he
    · obtain rfl := Option.some.inj hq
      rw [he, hid]
      exact h.label p o hp
    · exact h.label q oq hq
  · exact (h.below q l hq).trans_eq (Lib.Heap.next_set _ _ _).symm
  · rw [show (w.put p o').mem.heap.get q = _ from hget q] at hq
    split_ifs at hq with he
    · exact Option.some.inj hq ▸ ho
    · exact h.obj q oq hq

theorem free (h : Linked η Λ w.mem) (p : ℕ) : Linked η Λ (w.free p).mem := by
  have hget : ∀ q oq, (w.free p).mem.heap.get q = some oq → w.heap.get q = some oq := by
    intro q oq hq
    rw [show (w.free p).mem.heap = w.heap.free p from rfl, Lib.Heap.get_free] at hq
    split_ifs at hq
    exact hq
  exact ⟨fun q oq hq => h.label q oq (hget q oq hq), fun q l hq => (h.below q l hq).trans_eq (Lib.Heap.next_free _ _).symm,
    fun q oq hq => h.obj q oq (hget q oq hq)⟩

/-- A new object has an address that had no label. -/
theorem push (h : Linked η Λ w.mem) (ho : η.Grants Λ o) :
    ∃ Λ', Λ ≤ Λ' ∧ Linked η Λ' (w.push o).mem ∧ Λ'.label w.heap.next = some (o.fromDB.map (·.id)) := by
  have hΛ : Λ ≤ ⟨Function.update Λ.label w.heap.next (some (o.fromDB.map (·.id)))⟩ := by
    intro q l hq
    exact (Function.update_of_ne (h.below q l hq).ne ..).trans hq
  have hget (q : ℕ) : (w.push o).mem.heap.get q = if q = w.heap.next then some o else w.heap.get q := Lib.Heap.get_push _ _ _
  refine ⟨_, hΛ, ⟨fun q oq hq => ?_, fun q l hq => ?_, fun q oq hq => ?_⟩, Function.update_self ..⟩
  · rw [hget] at hq
    split_ifs at hq with he
    · obtain rfl := Option.some.inj hq
      exact he ▸ Function.update_self ..
    · exact hΛ _ _ (h.label q oq hq)
  · rw [show (w.push o).mem.heap = w.heap.push o from rfl, Lib.Heap.next_push]
    by_cases he : q = w.heap.next
    · exact he ▸ Nat.lt_succ_self _
    · exact Nat.lt_succ_of_lt (h.below q l ((Function.update_of_ne he ..).symm.trans hq))
  · rw [hget] at hq
    split_ifs at hq with he
    · exact Option.some.inj hq ▸ ho.mono le_rfl hΛ
    · exact (h.obj q oq hq).mono le_rfl hΛ

/-- The label of an object that is there. -/
theorem label_eq (h : Linked η Λ w.mem) {b : IFromDB} {x : Fields} {l : Option Oid} (hp : w.heap.get p = some ⟨some b, x⟩)
    (hl : Λ.label p = some l) : l = some b.id :=
  Option.some.inj (hl.symm.trans (h.label p _ hp))

/-- What an object writes agrees with its label. -/
theorem names (h : Linked η Λ w.mem) (ho : w.heap.get p = some o) (hd : o.fields.toDoc w.heap = .ok d)
    (hj : d.get? f.key = some (.oid j)) : η.Links f (o.fromDB.map (·.id)) (some j) := by
  obtain ⟨f', q, b, y, hkey, href, hq, -, rfl⟩ := oid_of_toDoc hd hj
  obtain rfl := RefField.key_injective hkey
  obtain ⟨l, hl, hlinks⟩ := (h.obj p o ho).ref f q href
  exact h.label_eq hq hl ▸ hlinks

end Linked

end Cbt
