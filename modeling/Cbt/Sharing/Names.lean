import Cbt.Effects.Types
import Cbt.Calls.Rosters
import Cbt.Model.Clients

/-! What an id names. An id is given to one entity, of one class, and goes on naming it
when the entity is deleted; all clients agree on it. A stored document is what an object
of the class writes, and a reference in it names an entity of a class the member may
designate; an object in memory is of the class its id names. The one exception is an
object that a listing made of an info: it is of no concrete class, and writes its `_id`. -/

namespace Cbt

open Lib.Command (run_bind_iff run_pure_iff)

variable {k : Kind} {f : RefField}

/-- The class of the entity an id was given to. -/
structure Names where
  cls : Oid → Option DBClass

instance : Preorder Names where
  le κ κ' := ∀ i c, κ.cls i = some c → κ'.cls i = some c
  le_refl _ _ _ h := h
  le_trans _ _ _ h h' i c hc := h' i c (h i c hc)

namespace Names

variable {κ κ' : Names} {i : Oid} {c : DBClass}

/-- An object with the id may be of the class. -/
def Admits (κ : Names) (i : Oid) (c : DBClass) : Prop :=
  κ.cls i = some c ∨ c = .additionalInfoDB ∧ ∃ c', κ.cls i = some c' ∧ c'.kind = .infos

/-- What is written for a member: `NULL`, or the id of an entity it may designate. -/
def Refers (κ : Names) (f : RefField) (v : Bson) : Prop :=
  v = nullValue ∨ ∃ i c, v = .oid i ∧ κ.cls i = some c ∧ f.designates c = true

/-- What is written for the students of a group: `NULL`, or ids of students. -/
def Lists (κ : Names) (v : Bson) : Prop :=
  v = nullValue ∨ ∃ ids : List Oid, v = .array (ids.map .oid) ∧ ∀ i ∈ ids, κ.cls i = some .studentInfoDB

/-- The document of an object of a class, without its `_id`. -/
def Describes (κ : Names) (c : DBClass) (d : Doc) : Prop :=
  ∃ (x : Fields) (ref : RefField → Bson) (members : Bson), x.cls = c ∧ d = x.written ref members ∧ (∀ f ∈ c.refs, κ.Refers f (ref f)) ∧ κ.Lists members

/-- A document of a collection. -/
def Record (κ : Names) (k : Kind) (i : Oid) (d : Doc) : Prop :=
  ∃ c d', c.kind = k ∧ κ.Admits i c ∧ κ.Describes c d' ∧ d = ("_id", .oid i) :: d'

/-- A document that a query may answer. -/
def Found (κ : Names) (k : Kind) (d : Doc) : Prop := ∃ i, κ.Record k i d

theorem Admits.mono (h : κ.Admits i c) (hκ : κ ≤ κ') : κ'.Admits i c :=
  h.imp (hκ i c) fun ⟨hc, c', hi, hk⟩ => ⟨hc, c', hκ i c' hi, hk⟩

theorem Refers.mono {v : Bson} (h : κ.Refers f v) (hκ : κ ≤ κ') : κ'.Refers f v :=
  h.imp id fun ⟨i, c, hv, hc, hf⟩ => ⟨i, c, hv, hκ i c hc, hf⟩

theorem Lists.mono {v : Bson} (h : κ.Lists v) (hκ : κ ≤ κ') : κ'.Lists v :=
  h.imp id fun ⟨ids, hv, hi⟩ => ⟨ids, hv, fun i hin => hκ i _ (hi i hin)⟩

theorem Describes.mono {d : Doc} (h : κ.Describes c d) (hκ : κ ≤ κ') : κ'.Describes c d := by
  obtain ⟨x, ref, m, hx, hd, href, hm⟩ := h
  exact ⟨x, ref, m, hx, hd, fun f hf => (href f hf).mono hκ, hm.mono hκ⟩

theorem Record.mono {d : Doc} (h : κ.Record k i d) (hκ : κ ≤ κ') : κ'.Record k i d := by
  obtain ⟨c, d', hc, ha, hd, he⟩ := h
  exact ⟨c, d', hc, ha.mono hκ, hd.mono hκ, he⟩

theorem Found.mono {d : Doc} (h : κ.Found k d) (hκ : κ ≤ κ') : κ'.Found k d := h.imp fun _ hr => hr.mono hκ

theorem Record.id {d : Doc} (h : κ.Record k i d) : d.get? "_id" = some (.oid i) := by
  obtain ⟨c, d', -, -, -, rfl⟩ := h
  simp

theorem Describes.no_id {d : Doc} (h : κ.Describes c d) : d.get? "_id" = none := by
  obtain ⟨x, ref, m, -, rfl, -⟩ := h
  cases x <;> simp [Fields.written]

/-- A class that a document can be read as is one its id admits. -/
theorem Record.admits {d : Doc} {c : DBClass} {x : Fields} (h : κ.Record c.kind i d) (hx : c.fields d = .ok x) :
    κ.Admits i c := by
  obtain ⟨c', d', hc', ha, ⟨y, ref, m, rfl, rfl, -⟩, rfl⟩ := h
  by_cases hc : c = .additionalInfoDB
  · refine .inr ⟨hc, ?_⟩
    rcases ha with ha | ⟨-, c'', ha, hk⟩
    · exact ⟨_, ha, by rw [hc', hc]; rfl⟩
    · exact ⟨c'', ha, hk⟩
  · suffices he : y.cls = c from he ▸ ha
    cases c with
    | additionalInfoDB => exact absurd rfl hc
    | accountDB => cases y <;> first | rfl | cases hc'
    | groupDB => cases y <;> first | rfl | cases hc'
    | scheduleDB => cases y <;> first | rfl | cases hc'
    | studentInfoDB =>
      have hcurs := curs_of_student hx
      cases y <;> first | rfl | exact absurd rfl hcurs
    | teacherInfoDB =>
      have hfaculty := faculty_of_teacher hx
      cases y <;> first | rfl | exact absurd rfl hfaculty

end Names

/-! ### The database and a memory -/

/-- Every stored document is of the class its id names; ids are named when they are given out, after concrete classes. -/
structure Named (κ : Names) (db : Database) : Prop where
  record : ∀ k i d, db.get? k i = some d → κ.Record k i d
  given : ∀ i c, κ.cls i = some c → i < db.nextOid
  concrete : ∀ i, κ.cls i ≠ some .additionalInfoDB

/-- An object is of a class that its id admits; a plain one is of a concrete class. -/
structure Names.Knows (κ : Names) (o : Obj) : Prop where
  admits : ∀ b, o.fromDB = some b → κ.Admits b.id o.fields.cls
  concrete : o.fromDB = none → o.fields.cls ≠ .additionalInfoDB

/-- Every object of a process is known, and every pointer has its declared type. -/
structure Owns (κ : Names) (Γ : Classes) (p : Process) : Prop where
  typed : WellTyped Γ ⟨Database.empty, p⟩
  known : ∀ q o, p.heap.get q = some o → κ.Knows o

variable {κ κ' : Names} {Γ : Classes}

theorem Names.Knows.mono {o : Obj} (h : κ.Knows o) (hκ : κ ≤ κ') : κ'.Knows o :=
  ⟨fun b hb => (h.admits b hb).mono hκ, h.concrete⟩

theorem Owns.mono {p : Process} (h : Owns κ Γ p) (hκ : κ ≤ κ') : Owns κ' Γ p :=
  ⟨h.typed, fun q o hq => (h.known q o hq).mono hκ⟩

theorem Owns.wellTyped {w : World} (h : Owns κ Γ w.mem) : WellTyped Γ w := h.typed.of_heap rfl rfl

theorem owns_init : ∃ Γ, Owns κ Γ Process.init :=
  ⟨_, wellTyped_start Database.empty, fun q o hq => by simp [Process.init] at hq⟩

/-- A pointer writes null or an id. -/
theorem oid_of_value {h : Memory} {v : Pointer} {u : Bson} (hv : v.value h = .ok u) (hn : u ≠ nullValue) : ∃ i, u = .oid i := by
  cases v with
  | uninit => cases hv
  | null => exact absurd (Except.ok.inj hv).symm hn
  | «to» q =>
    simp only [Pointer.value] at hv
    cases hq : header h q with
    | error e => simp [hq] at hv
    | ok b =>
      simp only [hq, Except.ok.injEq] at hv
      split_ifs at hv
      · exact ⟨b.id, hv.symm⟩
      · exact absurd hv.symm hn

/-- A member writes null or the id of an entity of a class it may hold. -/
theorem Owns.refers {w : World} {p : ℕ} {o : Obj} {f : RefField} {v : Pointer} {u : Bson} (h : Owns κ Γ w.mem)
    (ho : w.heap.get p = some o) (hv : o.fields.ref f = some v) (hu : v.value w.heap = .ok u) : κ.Refers f u := by
  by_cases hnull : u = nullValue
  · exact .inl hnull
  obtain ⟨i, rfl⟩ := oid_of_value hu hnull
  obtain ⟨q, b, x, rfl, hq, -, rfl⟩ := value_eq_oid hu
  have hadm := h.wellTyped.admits (h.wellTyped.ref p o f q ho hv) hq
  rw [f.admits_eq] at hadm
  rcases (h.known q _ hq).admits b rfl with hn | ⟨hc, c', hn, hk⟩
  · exact .inr ⟨b.id, x.cls, rfl, hn, hadm⟩
  · -- only the member for an info may designate an object of no concrete class
    refine .inr ⟨b.id, c', rfl, hn, ?_⟩
    rw [show x.cls = .additionalInfoDB from hc] at hadm
    cases f <;> simp_all [RefField.designates]

/-- The members that a group writes are students. -/
theorem Owns.members {w : World} {p : ℕ} {b? : Option IFromDB} {g : Group} {ids : List Oid} (h : Owns κ Γ w.mem)
    (ho : w.heap.get p = some ⟨b?, .group g⟩) (hids : existingIds w.heap g.students = .ok ids) {i : Oid} (hi : i ∈ ids) :
    κ.cls i = some .studentInfoDB := by
  obtain ⟨q, hq, b, hb, rfl⟩ := mem_existingIds hids hi
  obtain ⟨x, hx⟩ := header_eq_ok.mp hb
  have hcls := h.wellTyped.students p b? g ho q hq
  rw [h.wellTyped.cls q _ hx, Option.some.injEq] at hcls
  rcases (h.known q _ hx).admits b rfl with hn | ⟨hc, -⟩
  · rw [hn]
    exact congrArg some hcls
  · cases hcls.symm.trans hc

/-- What an object writes is a document of its class. -/
theorem Owns.describes {w : World} {p : ℕ} {o : Obj} {d : Doc} (h : Owns κ Γ w.mem) (ho : w.heap.get p = some o)
    (hd : o.fields.toDoc w.heap = .ok d) : κ.Describes o.fields.cls d := by
  obtain ⟨ref, m, hw, rfl⟩ := toDoc_eq_ok.mp hd
  have href : ∀ f ∈ o.fields.cls.refs, κ.Refers f (ref f) := by
    intro f hf
    obtain ⟨v, hv⟩ := Fields.mem_refs.mp hf
    exact h.refers ho hv (hw.ref f v hv)
  obtain ⟨b?, x⟩ := o
  by_cases hg : ∃ g, x = .group g
  · obtain ⟨g, rfl⟩ := hg
    refine ⟨.group g, ref, m, rfl, rfl, href, ?_⟩
    have hm := hw.members g rfl
    unfold membersValue at hm
    split_ifs at hm with he
    · exact .inl (Except.ok.inj hm).symm
    · cases hids : existingIds w.heap g.students with
      | error e => simp [hids, Functor.map, Except.map] at hm
      | ok ids =>
        rw [hids] at hm
        exact .inr ⟨ids, (Except.ok.inj hm).symm, fun i hi => h.members ho hids hi⟩
  · have he : x.written ref m = x.written ref nullValue := by
      cases x <;> first | rfl | exact absurd ⟨_, rfl⟩ hg
    exact ⟨x, ref, nullValue, rfl, he, href, .inl rfl⟩

end Cbt
