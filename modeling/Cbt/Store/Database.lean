import Mathlib.Logic.Function.Basic
import Cbt.Lib.Program
import Cbt.Store.Document

/-! The database: four collections, each a map from object id to document, and
the collection calls the program makes. Every stored document carries its own
key under `_id`, and ids are handed out in order, so an id given to a new
document was never used before. Every single call is atomic. -/

namespace Cbt

inductive Kind where
  | accounts | groups | infos | schedules
  deriving DecidableEq, Repr

structure Collection where
  rows : Lib.Table Oid Doc
  ids : ∀ o d, rows.get? o = some d → d.get? "_id" = some (.oid o)

namespace Collection

abbrev get? (c : Collection) (o : Oid) : Option Doc := c.rows.get? o

def docs (c : Collection) : List Doc := c.rows.values

def empty : Collection := ⟨Lib.Table.empty, by simp⟩

/-- The stored form of a new document: the driver puts the id it made first. -/
def withId (o : Oid) (d : Doc) : Doc := ("_id", .oid o) :: d

def insert (c : Collection) (o : Oid) (d : Doc) (ho : c.rows.get? o = none) : Collection where
  rows := c.rows.insert o (withId o d) ho
  ids := by
    intro o' d' h
    rw [Lib.Table.get?_insert] at h
    split_ifs at h with he
    · subst he; simp only [Option.some.injEq] at h; subst h; simp [withId]
    · exact c.ids o' d' h

def replace (c : Collection) (o : Oid) (d : Doc) (hd : d.get? "_id" = some (.oid o)) : Collection where
  rows := c.rows.replace o d
  ids := by
    intro o' d' h
    rw [Lib.Table.get?_replace] at h
    split_ifs at h with he
    · subst he
      obtain ⟨_, _, rfl⟩ := Option.map_eq_some_iff.mp h
      exact hd
    · exact c.ids o' d' h

def erase (c : Collection) (o : Oid) : Collection where
  rows := c.rows.erase o
  ids := by
    intro o' d' h
    rw [Lib.Table.get?_erase] at h
    split_ifs at h with he
    exact c.ids o' d' h

theorem mem_docs {c : Collection} {d : Doc} : d ∈ c.docs ↔ ∃ o, c.get? o = some d := Lib.Table.mem_values

/-- A document is found by its own `_id`. -/
theorem get?_of_mem {c : Collection} {d : Doc} {o : Oid} (hd : d ∈ c.docs) (ho : d.get? "_id" = some (.oid o)) :
    c.get? o = some d := by
  obtain ⟨o', h⟩ := mem_docs.mp hd
  have h' := c.ids o' d h
  rw [ho] at h'
  simp only [Option.some.injEq, Bson.oid.injEq] at h'
  exact h' ▸ h

/-- The look-up by `_id` that `find_one` does. -/
theorem find?_byId (c : Collection) (o : Oid) : c.docs.find? (Doc.fits (Doc.byId o)) = c.get? o := by
  cases h : c.docs.find? (Doc.fits (Doc.byId o)) with
  | some d =>
    have hf := Doc.fits_byId.mp (List.find?_some h)
    exact (get?_of_mem (List.mem_of_find?_eq_some h) hf).symm
  | none =>
    cases hg : c.get? o with
    | none => rfl
    | some d =>
      have hn := List.find?_eq_none.mp h d (mem_docs.mpr ⟨o, hg⟩)
      exact (hn (Doc.fits_byId.mpr (c.ids o d hg))).elim

end Collection

structure Database where
  coll : Kind → Collection
  nextOid : Oid
  fresh : ∀ k o d, (coll k).get? o = some d → o < nextOid

namespace Database

def empty : Database := ⟨fun _ => Collection.empty, 0, by intro k o d h; simp [Collection.get?, Collection.empty] at h⟩

def get? (db : Database) (k : Kind) (o : Oid) : Option Doc := (db.coll k).get? o

theorem rows_get?_nextOid (db : Database) (k : Kind) : (db.coll k).rows.get? db.nextOid = none := by
  cases h : (db.coll k).rows.get? db.nextOid with
  | none => rfl
  | some d => exact absurd (db.fresh k _ d h) (Nat.lt_irrefl _)

theorem get?_nextOid (db : Database) (k : Kind) : db.get? k db.nextOid = none := db.rows_get?_nextOid k

/-- Store a new document under the next id. -/
def insert (db : Database) (k : Kind) (d : Doc) : Database where
  coll := Function.update db.coll k ((db.coll k).insert db.nextOid d (db.rows_get?_nextOid k))
  nextOid := db.nextOid + 1
  fresh := by
    intro k' o d' h
    by_cases hk : k' = k
    · subst hk
      rw [Function.update_self] at h
      simp only [Collection.get?, Collection.insert, Lib.Table.get?_insert] at h
      split_ifs at h with ho
      · exact ho ▸ Nat.lt_succ_self _
      · exact Nat.lt_succ_of_lt (db.fresh k' o d' h)
    · rw [Function.update_of_ne hk] at h
      exact Nat.lt_succ_of_lt (db.fresh k' o d' h)

def replace (db : Database) (k : Kind) (o : Oid) (d : Doc) (hd : d.get? "_id" = some (.oid o)) : Database where
  coll := Function.update db.coll k ((db.coll k).replace o d hd)
  nextOid := db.nextOid
  fresh := by
    intro k' o' d' h
    by_cases hk : k' = k
    · subst hk
      rw [Function.update_self] at h
      simp only [Collection.get?, Collection.replace, Lib.Table.get?_replace] at h
      split_ifs at h with ho
      · obtain ⟨d₀, h₀, -⟩ := Option.map_eq_some_iff.mp h
        exact ho ▸ db.fresh k' o d₀ h₀
      · exact db.fresh k' o' d' h
    · rw [Function.update_of_ne hk] at h
      exact db.fresh k' o' d' h

def erase (db : Database) (k : Kind) (o : Oid) : Database where
  coll := Function.update db.coll k ((db.coll k).erase o)
  nextOid := db.nextOid
  fresh := by
    intro k' o' d' h
    by_cases hk : k' = k
    · subst hk
      rw [Function.update_self] at h
      simp only [Collection.get?, Collection.erase, Lib.Table.get?_erase] at h
      split_ifs at h with ho
      exact db.fresh k' o' d' h
    · rw [Function.update_of_ne hk] at h
      exact db.fresh k' o' d' h

theorem get?_insert (db : Database) (k : Kind) (d : Doc) (k' : Kind) (o : Oid) :
    (db.insert k d).get? k' o =
      if k' = k ∧ o = db.nextOid then some (Collection.withId o d) else db.get? k' o := by
  by_cases hk : k' = k
  · subst hk
    simp only [get?, insert, Function.update_self, Collection.get?, Collection.insert,
      Lib.Table.get?_insert, true_and]
    split_ifs with ho
    · rw [ho]
    · rfl
  · simp [get?, insert, hk]

theorem get?_replace (db : Database) (k : Kind) (o : Oid) (d : Doc) (hd) (k' : Kind) (o' : Oid) :
    (db.replace k o d hd).get? k' o' =
      if k' = k ∧ o' = o then (db.get? k o).map fun _ => d else db.get? k' o' := by
  by_cases hk : k' = k
  · subst hk
    simp [get?, replace, Collection.get?, Collection.replace, Lib.Table.get?_replace]
  · simp [get?, replace, hk]

theorem get?_erase (db : Database) (k : Kind) (o : Oid) (k' : Kind) (o' : Oid) :
    (db.erase k o).get? k' o' = if k' = k ∧ o' = o then none else db.get? k' o' := by
  by_cases hk : k' = k
  · subst hk
    simp [get?, erase, Collection.get?, Collection.erase, Lib.Table.get?_erase]
  · simp [get?, erase, hk]

@[simp] theorem nextOid_insert (db : Database) (k : Kind) (d : Doc) :
    (db.insert k d).nextOid = db.nextOid + 1 := rfl
@[simp] theorem nextOid_replace (db : Database) (k : Kind) (o : Oid) (d : Doc) (hd) :
    (db.replace k o d hd).nextOid = db.nextOid := rfl
@[simp] theorem nextOid_erase (db : Database) (k : Kind) (o : Oid) : (db.erase k o).nextOid = db.nextOid := rfl

end Database

/-! ### Collection calls -/

inductive Call where
  | find (k : Kind) (filter : Doc)
  | findOne (k : Kind) (filter : Doc)
  | insertOne (k : Kind) (d : Doc)
  | replaceOne (k : Kind) (o : Oid) (d : Doc)
  | deleteOne (k : Kind) (o : Oid)

/-- What a call answers: the documents found, the id given, or how many documents it met. The
results of writes are optional in the driver. -/
abbrev Call.Answer : Call → Type
  | .find _ _ => List Doc
  | .findOne _ _ => Option Doc
  | .insertOne _ _ => Option Oid
  | .replaceOne _ _ _ => Option ℕ
  | .deleteOne _ _ => Option ℕ

/-- A server that answers every call. It makes the id of a new document, and refuses a replacement
whose `_id` is another one. -/
def Database.serve : (c : Call) → Database → Except Fault (c.Answer × Database)
  | .find k filter, db => .ok (((db.coll k).docs.filter (Doc.fits filter), db))
  | .findOne k filter, db => .ok ((db.coll k).docs.find? (Doc.fits filter), db)
  | .insertOne k d, db => match d.get? "_id" with
    | none => .ok (some db.nextOid, db.insert k d)
    | some _ => .error .server
  | .replaceOne k o d, db => match db.get? k o with
    | none => .ok (some 0, db)
    | some _ => if h : d.get? "_id" = some (.oid o) then .ok (some 1, db.replace k o d h) else .error .server
  | .deleteOne k o, db => match db.get? k o with
    | none => .ok (some 0, db)
    | some _ => .ok (some 1, db.erase k o)

namespace Database

end Database

end Cbt
