import Cbt.Codec.Decoding
import Cbt.Model.AdminWindow

/-! Edits of objects that were built from stored documents. Before an update a
window may call getters of an object, assign its scalar members and set its
references. What a reference is after such edits depends on whether its getter
was called and found the entity: until then the pointer is null, whatever the
document names. -/

namespace Cbt

open Lib.Command (run_bind_iff run_pure_iff run_fault_iff run_ofExcept_iff fault)

variable {w w₁ w' : World} {S : ℕ → Prop}

inductive Edit where
  | get (g : Getter)
  | getStudents
  | assign (s : Scalar)
  | setRef (f : RefField) (v : Option ℕ)
  deriving DecidableEq, Repr

def Edit.cmd (this : ℕ) : Edit → Cmd Unit
  | .get g => do let _ ← g.call this
  | .getStudents => do let _ ← GroupDB.getStudents this
  | .assign s => assignScalar s this
  | .setRef f v => Cbt.setRef f this v

/-- The key of the field an edit touches; a getter touches none. -/
def Edit.key? : Edit → Option String
  | .get _ | .getStudents => none
  | .assign s => some s.key
  | .setRef f _ => some f.key

/-- The keys of the fields that edits touch. -/
def touched (es : List Edit) : List String := es.filterMap Edit.key?

/-- Edits of several objects, in any order. -/
def edits : List (ℕ × Edit) → Cmd Unit
  | [] => return ()
  | (p, e) :: es => do
    e.cmd p
    edits es

/-! ### What a look-up finds -/

/-- A getter finds what has an id: a cached object its cast lets through or, with none cached, a class to build. -/
def Getter.Finds (g : Getter) (w : World) (this : ℕ) (i : Oid) : Prop :=
  match w.cached g.kind i with
  | some p => ∃ o, w.heap.get p = some o ∧ g.wants o.fields = true
  | none => (g.classOf w this).isSome

/-- An entity of a class is stored under an id. -/
def Lib.Conf.Entity (w : World) (c : DBClass) (i : Oid) : Prop :=
  ∃ d, w.stored c.kind i = some d ∧ c.kind.Shaped d ∧ d.IsOf c

/-- The class of the entities a reference of an entity names; the info of an account is of the type of the account. -/
def RefField.Names (f : RefField) (x : Fields) (c : DBClass) : Prop :=
  match f with
  | .curator | .teacher => c = .teacherInfoDB
  | .owner => c = .accountDB
  | .group => c = .groupDB
  | .additionalInfo => (c = .studentInfoDB ∨ c = .teacherInfoDB) ∧
      ∀ a c', x = .account a → InfosController.classOf a.accountType = some c' → c = c'

/-- An object as it was built from a stored document the program wrote, whose references name stored entities. -/
structure Fresh (w : World) (p : ℕ) (b : IFromDB) (x : Fields) : Prop where
  get : w.heap.get p = some ⟨some b, x⟩
  exist : b.isExist = true
  bare : x.bare = x
  cls : x.kind ≠ .schedules ∧ x.cls ≠ .additionalInfoDB
  stored : w.stored x.kind b.id = some b.doc
  doc : ∃ ref members, ∀ key, b.doc.get? key = Doc.get? (("_id", .oid b.id) :: x.written ref members) key
  ref : ∀ f ∈ x.cls.refs, b.doc.get? f.key = some nullValue ∨
    ∃ i c, b.doc.get? f.key = some (.oid i) ∧ f.Names x c ∧ w.Entity c i
  members : x.cls = .groupDB → ∃ v, b.doc.get? "Members" = some v ∧
    (v = nullValue ∨ ∃ ids : List Oid, v = .array (ids.map .oid)) ∧ ∀ i ∈ b.doc.members, w.Entity .studentInfoDB i

theorem RefField.Names.kind {f : RefField} {x : Fields} {c : DBClass} (h : f.Names x c) :
    c.kind = f.kind ∧ c ≠ .additionalInfoDB := by
  cases f with
  | additionalInfo => rcases h.1 with rfl | rfl <;> exact ⟨rfl, by simp⟩
  | _ => subst h; exact ⟨rfl, by simp⟩

/-- The documents of the entities of a class are built by the class. -/
theorem Lib.Conf.Entity.ofDoc {c : DBClass} {i : Oid} {d : Doc} (h : w.Entity c i) (hs : w.stored c.kind i = some d) :
    ∃ o, c.ofDoc d = .ok o ∧ o.fields.cls = c := by
  obtain ⟨d', hs', -, hd⟩ := h
  obtain rfl := Option.some.inj (hs.symm.trans hs')
  obtain ⟨x, hx⟩ := hd.fields
  exact ⟨_, ofDoc_eq_ok.mpr ⟨x, i, hx, (w.env.coll c.kind).ids i d hs, rfl⟩, DBClass.cls_fields hx⟩

/-- An object that was loaded under the id of an entity is of the class of the entity. -/
theorem Extends.cls_loaded {c : DBClass} {i : Oid} {p : ℕ} (h : Extends S w w') (he : w.Entity c i)
    (hk : c.kind = .infos) (hne : c ≠ .additionalInfoDB) (hn : w.cached c.kind i = none)
    (hp : w'.cached c.kind i = some p) : ∃ o, w'.heap.get p = some o ∧ o.fields.cls = c := by
  obtain ⟨c', d, hne', hs, hx, o, ho, hcls⟩ := h.loaded _ _ _ hn hp
  obtain ⟨d', hs', hsh, hof⟩ := he
  obtain rfl := Option.some.inj (hs.symm.trans hs')
  obtain ⟨b, y, hb, -, hy⟩ := h.sound.entry _ _ (Lib.Conf.cached_mem hp)
  obtain rfl := Option.some.inj (hb.symm.trans ho)
  have hk' : c'.kind = .infos := by rw [← hcls, Fields.kind_cls, hy, hk]
  exact ⟨_, ho, hcls.trans ((hk ▸ hsh).unique hk' hk hne' hne hx hof.fields)⟩

theorem Getter.finds_of_cached {g : Getter} {p q : ℕ} {i : Oid} {o : Obj} (hc : w.cached g.kind i = some q)
    (hq : w.heap.get q = some o) : g.Finds w p i ↔ g.wants o.fields = true := by
  simp [Getter.Finds, hc, hq]

theorem Getter.finds_of_none {g : Getter} {p : ℕ} {i : Oid} (hc : w.cached g.kind i = none) :
    g.Finds w p i ↔ (g.classOf w p).isSome := by
  simp [Getter.Finds, hc]

/-- Only the info of an account may have no class to be built by. -/
theorem Getter.classOf_isSome {g : Getter} {p : ℕ} (h : g.field ≠ .additionalInfo) : (g.classOf w p).isSome := by
  cases g <;> first | rfl | exact absurd rfl h

/-- The class a getter builds is the class of the entity its reference names. -/
theorem Fresh.classOf {p : ℕ} {b : IFromDB} {x : Fields} {g : Getter} {c c' : DBClass} (h : Fresh w p b x)
    (hg : g.field ∈ x.cls.refs) (hn : g.field.Names x c) (hc : g.classOf w p = some c') : c = c' := by
  cases g with
  | getAdditionalInfo =>
    obtain ⟨a, rfl⟩ : ∃ a, x = .account a := by
      cases x <;> simp [Getter.field, Fields.cls, DBClass.refs] at hg
      exact ⟨_, rfl⟩
    rw [Getter.classOf_account h.get] at hc
    exact hn.2 a c' rfl hc
  | _ => exact hn.trans (Option.some.inj hc)

/-- What is cached under the id of a reference after other edits: the cast lets it through exactly if the getter found
the id before, the info of an account apart that other edits loaded. -/
theorem Getter.wants_cached {p q : ℕ} {x : Fields} {g : Getter} {i : Oid} {c : DBClass} {o : Obj}
    (hw : Sound w) (he : Extends S w w') (hn : g.field.Names x c) (hent : w.Entity c i)
    (hc : w'.cached g.kind i = some q) (hq : w'.heap.get q = some o) :
    (g.wants o.fields = true ∧
      ((g.field = .additionalInfo → (g.classOf w p).isSome ∨ w'.cached .infos = w.cached .infos) → g.Finds w p i)) ∨
        g.wants o.fields = false ∧ ¬ g.Finds w p i := by
  cases hc₀ : w.cached g.kind i with
  | some q₀ =>
    obtain rfl := Option.some.inj ((he.cached _ _ _ hc₀).symm.trans hc)
    obtain ⟨b₀, y₀, hq₀, -⟩ := hw.entry _ _ (Lib.Conf.cached_mem hc₀)
    obtain ⟨b₁, y₁, hq₁, -, hy₁⟩ := he.same _ _ _ hq₀
    obtain rfl := Option.some.inj (hq₁.symm.trans hq)
    rw [Getter.finds_of_cached hc₀ hq₀, g.wants_congr hy₁]
    cases g.wants y₀ <;> simp
  | none =>
    rw [Getter.finds_of_none hc₀]
    by_cases hf : g.field = .additionalInfo
    · have hwants : g.wants o.fields = true := by cases g <;> first | rfl | cases hf
      refine .inl ⟨hwants, fun hcond => ?_⟩
      rcases hcond hf with hs | hs
      · exact hs
      · have hgk : g.kind = .infos := by rw [← g.field_kind, hf]; rfl
        rw [hgk] at hc hc₀
        rw [hs, hc₀] at hc
        cases hc
    · refine .inl ⟨?_, fun _ => Getter.classOf_isSome hf⟩
      by_cases hcur : g.wants = Fields.isTeacher
      · have hct : c = .teacherInfoDB ∧ g.kind = .infos := by
          cases g <;> first
            | exact ⟨hn, rfl⟩
            | exact absurd (congrFun hcur .additionalInfo) (by simp [Getter.wants, Fields.isTeacher])
        obtain ⟨rfl, hgk⟩ := hct
        rw [hgk] at hc hc₀
        obtain ⟨o', ho', hcls⟩ := he.cls_loaded hent rfl (by simp) hc₀ hc
        obtain rfl := Option.some.inj (ho'.symm.trans hq)
        rw [hcur]
        cases hx : o'.fields <;> simp_all [Fields.cls, Fields.isTeacher]
      · cases g <;> first | rfl | exact absurd rfl hcur

/-- A getter's look-up, after other edits. -/
theorem Fresh.look {p : ℕ} {b : IFromDB} {x : Fields} {g : Getter} {i : Oid} (hw : Sound w) (he : Extends S w w')
    (h : Fresh w p b x) (hg : g.field ∈ x.cls.refs) (hi : b.doc.get? g.field.key = some (.oid i))
    (hcl : g.classOf w' p = g.classOf w p) :
    ∃ r w₁, Looked w' g.kind i (g.classOf w' p) r w₁ ∧
      ((∃ q o, r = some q ∧ w₁.heap.get q = some o ∧ g.wants o.fields = true ∧ w₁.idOf q = some i ∧
          ((g.field = .additionalInfo → (g.classOf w p).isSome ∨ w'.cached .infos = w.cached .infos) → g.Finds w p i)) ∨
        (∀ q, r = some q → ∃ o, w₁.heap.get q = some o ∧ g.wants o.fields = false) ∧ ¬ g.Finds w p i) := by
  obtain ⟨c, hent, hname⟩ : ∃ c, w.Entity c i ∧ g.field.Names x c := by
    rcases h.ref _ hg with hn | ⟨j, c, hj, hn, hc⟩
    · rw [hi] at hn
      cases hn
    · rw [hi, Option.some.injEq, Bson.oid.injEq] at hj
      exact ⟨c, hj ▸ hc, hn⟩
  have hk : c.kind = g.kind := hname.kind.1.trans g.field_kind
  cases hc : w'.cached g.kind i with
  | some q =>
    obtain ⟨b', y, hq, -⟩ := he.sound.entry _ _ (Lib.Conf.cached_mem hc)
    refine ⟨some q, w', .hit hc, ?_⟩
    rcases Getter.wants_cached (p := p) hw he hname hent hc hq with ⟨hwants, hfind⟩ | ⟨hno, hfind⟩
    · exact .inl ⟨q, _, rfl, hq, hwants, Lib.Conf.cached_idOf hc, hfind⟩
    · refine .inr ⟨fun q' hq' => ?_, hfind⟩
      obtain rfl := Option.some.inj hq'
      exact ⟨_, hq, hno⟩
  | none =>
    have hc₀ : w.cached g.kind i = none := by
      cases hc₀ : w.cached g.kind i with
      | none => rfl
      | some q => simp [he.cached _ _ _ hc₀] at hc
    rw [Getter.finds_of_none hc₀]
    cases hcls : g.classOf w p with
    | none => exact ⟨none, w', .absent hc (.inr (hcl.trans hcls)), .inr ⟨by simp, by simp⟩⟩
    | some c' =>
      obtain rfl := h.classOf hg hname hcls
      obtain ⟨d, hs, -⟩ := id hent
      obtain ⟨o, ho, hoc⟩ := hent.ofDoc hs
      rw [hk] at hs
      refine ⟨_, _, .loaded hc (he.stored ▸ hs) (hcl.trans hcls) ho, .inl ⟨_, o.own 1, rfl, Lib.Heap.get_push_next _ _, ?_, ?_, ?_⟩⟩
      · exact Getter.wants_of_cls (w := w) (p := p) (by rw [Obj.own_fields, hoc, hcls])
      · obtain ⟨y, j, -, hj, rfl⟩ := ofDoc_eq_ok.mp ho
        obtain rfl : i = j := by simpa [hj] using ((w.env.coll g.kind).ids i d hs).symm
        simp [Lib.Conf.idOf, Obj.own, IFromDB.own]
      · simp

end Cbt
