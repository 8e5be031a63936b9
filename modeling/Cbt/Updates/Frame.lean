import Cbt.Effects.Storing
import Cbt.Updates.Session

/-! What an update stores after a session of edits. The document is the one the
edited object describes, so a field that no edit touched keeps its stored value
exactly when the object knows the value: a reference that the document names
must have been fetched by its getter, and the members of a group by
`getStudents`. -/

namespace Cbt

open Lib.Command (run_bind_iff run_pure_iff run_fault_iff run_ofExcept_iff fault)

variable {w w₁ w' : World} {S : ℕ → Prop} {p : ℕ} {b : IFromDB} {x y : Fields} {es : List Edit} {n : ℤ} {h' : Memory}

/-- The stored document of an object agrees with the one it was built from outside some keys. -/
def Lib.Conf.Agrees (w : World) (k : Kind) (b : IFromDB) (keys : List String) : Prop :=
  ∃ d, w.stored k b.id = some d ∧ ∀ key, key ∉ keys → d.get? key = b.doc.get? key

/-- Every reference outside some keys that the document names was fetched by its getter. -/
def KeptRefs (w : World) (p : ℕ) (b : IFromDB) (x : Fields) (es : List Edit) (keys : List String) : Prop :=
  ∀ f ∈ x.cls.refs, f.key ∉ keys → ∀ i, b.doc.get? f.key = some (.oid i) → Called w p f i es

/-- The members were listed, and none of them is cached as an object of another class. -/
def MembersListed (w : World) (b : IFromDB) (es : List Edit) : Prop :=
  .getStudents ∈ es ∧ ∀ i ∈ b.doc.members, ∀ q o, w.cached .infos i = some q → w.heap.get q = some o →
    o.fields.isStudent = true

/-- A group has no members, or its members were listed and are some. -/
def KeptMembers (w : World) (b : IFromDB) (x : Fields) (es : List Edit) : Prop :=
  x.cls = .groupDB → b.doc.get? "Members" = some nullValue ∨ b.doc.members ≠ [] ∧ MembersListed w b es

/-- The objects of one memory keep their ids and their existence in another. -/
def Retains (h h' : Memory) : Prop := ∀ q i, ident h q = .ok i → ident h' q = .ok i

theorem Retains.refl (h : Memory) : Retains h h := fun _ _ hq => hq

/-! ### The values of references -/

theorem value_of_alive {q : ℕ} {i : Oid} (hr : Retains w₁.heap h') (hq : w₁.Alive q) (hid : w₁.idOf q = some i) :
    (Pointer.to q).value h' = .ok (.oid i) := by
  obtain ⟨c, z, hg, hc⟩ := hq
  rw [Lib.Conf.idOf_of_get hg, Option.some.injEq] at hid
  rw [value_eq_ident, hr _ _ (ident_of_get hg), hc, hid]
  rfl

/-- The value of a reference that nothing set is the stored one, if its getter was called where the document names
an id. -/
theorem Edited.value (h : Edited w w₁ p b x es n y) (hF : Fresh w p b x) (hr : Retains w₁.heap h') {f : RefField}
    (hf : f ∈ x.cls.refs) (hkey : f.key ∉ touched es) (hset : Settles w w₁ p f) {v : Pointer} {u : Bson}
    (hv : y.ref f = some v) (hu : v.value h' = .ok u) :
    some u = b.doc.get? f.key ↔ ∀ i, b.doc.get? f.key = some (.oid i) → Called w p f i es := by
  rcases hF.ref f hf with hd | ⟨i, c, hd, -⟩
  · obtain rfl := Option.some.inj (hv.symm.trans (h.unset f hf hkey hd))
    obtain rfl := Except.ok.inj hu
    simp [hd, nullValue]
  · obtain ⟨hyes, hno⟩ := h.found f hf hkey i hd hset
    by_cases hc : Called w p f i es
    · obtain ⟨q, hq, hid⟩ := hyes hc
      obtain rfl := Option.some.inj (hv.symm.trans hq)
      obtain ⟨q', hq', hal⟩ := (h.ref f _ hv).resolve_left (by simp)
      obtain rfl : q = q' := by simpa using hq'
      obtain rfl := Except.ok.inj ((value_of_alive hr hal hid).symm.trans hu)
      simp [hd, hc]
    · obtain rfl := Option.some.inj (hv.symm.trans (hno hc))
      obtain rfl := Except.ok.inj hu
      simp [hd, hc, nullValue]

/-- Every reference of an edited object can be written. -/
theorem Edited.exists_value (h : Edited w w₁ p b x es n y) (hr : Retains w₁.heap h') {f : RefField} {v : Pointer}
    (hv : y.ref f = some v) : ∃ u, v.value h' = .ok u := by
  rcases h.ref f v hv with rfl | ⟨q, rfl, hq⟩
  · exact ⟨_, rfl⟩
  · obtain ⟨c, z, hg, -⟩ := id hq
    exact ⟨_, value_of_alive hr hq (Lib.Conf.idOf_of_get hg)⟩

/-! ### The members -/

/-- What is cached under an id is a student. -/
def Lib.Conf.studentIn (w : World) (i : Oid) : Bool :=
  (w.cached .infos i).any fun p => ((w.heap.get p).map (·.fields.isStudent)).getD false

/-- The ids of the cached students among some ids are those under which a student is cached. -/
theorem existingIds_cachedStudents {ids : List Oid} (hw : Sound w₁) (hr : Retains w₁.heap h')
    (hids : ∀ i ∈ ids, w₁.cached .infos i ≠ none) :
    existingIds h' (w₁.cachedStudents ids) = .ok (ids.filter w₁.studentIn) ∧
      (w₁.cachedStudents ids = [] ↔ ids.filter w₁.studentIn = []) := by
  induction ids with
  | nil => exact ⟨rfl, Iff.rfl⟩
  | cons i ids ih =>
    obtain ⟨hex, hnil⟩ := ih fun j hj => hids j (by simp [hj])
    obtain ⟨q, hq⟩ := Option.ne_none_iff_exists'.mp (hids i (by simp))
    obtain ⟨c, z, hg, hc, -⟩ := hw.entry _ _ (Lib.Conf.cached_mem hq)
    have hid : c.id = i := by simpa [Lib.Conf.idOf_of_get hg] using Lib.Conf.cached_idOf hq
    have hin : w₁.studentIn i = z.isStudent := by simp [Lib.Conf.studentIn, hq, hg]
    rw [cachedStudents_cons hq hg]
    cases hs : z.isStudent with
    | false =>
      rw [if_neg (by simp), List.filter_cons_of_neg (by simp [hin, hs])]
      exact ⟨hex, hnil⟩
    | true =>
      rw [if_pos rfl, List.filter_cons_of_pos (by simp [hin, hs]), existingIds_cons, hr _ _ (ident_of_get hg), hex, hid]
      exact ⟨by simp [hc, bind, Except.bind, pure, Except.pure], by simp⟩

/-- A student is cached under the id of a student after other edits, unless an object of another class was before. -/
theorem Extends.studentIn (hw : Sound w) (hE : Extends S w w₁) {i : Oid} (he : w.Entity .studentInfoDB i)
    (hc : w₁.cached .infos i ≠ none) : w₁.studentIn i = true ↔
      ∀ q o, w.cached .infos i = some q → w.heap.get q = some o → o.fields.isStudent = true := by
  obtain ⟨q, hq⟩ := Option.ne_none_iff_exists'.mp hc
  cases hc₀ : w.cached .infos i with
  | none =>
    obtain ⟨o, ho, hcls⟩ := hE.cls_loaded he rfl (by simp) hc₀ hq
    have hs : o.fields.isStudent = true := by cases hx : o.fields <;> simp_all [Fields.cls, Fields.isStudent]
    simp [Lib.Conf.studentIn, hq, ho, hs]
  | some q₀ =>
    obtain rfl := Option.some.inj ((hE.cached _ _ _ hc₀).symm.trans hq)
    obtain ⟨c, z, hg, -⟩ := hw.entry _ _ (Lib.Conf.cached_mem hc₀)
    obtain ⟨c', z', hg', -, hz⟩ := hE.same _ _ _ hg
    rw [show w₁.studentIn i = z.isStudent by simp [Lib.Conf.studentIn, hq, hg', isStudent_of_cls hz]]
    constructor
    · intro hs q o hqo ho
      obtain rfl := Option.some.inj hqo
      obtain rfl := Option.some.inj (hg.symm.trans ho)
      exact hs
    · exact fun hall => hall q₀ _ rfl hg

/-- The students of an edited group are the stored members when there are none or they were listed. -/
theorem Edited.ids {g : Group} (hw : Sound w) (hF : Fresh w p b x) (hE : Extends S w w₁)
    (h : Edited w w₁ p b x es n (.group g)) (hr : Retains w₁.heap h') : ∃ ids, existingIds h' g.students = .ok ids ∧
      (g.students = [] ↔ ids = []) ∧ (ids = b.doc.members ↔ b.doc.members = [] ∨ MembersListed w b es) := by
  obtain ⟨-, -, -, hent⟩ := hF.members h.cls.symm
  have hl := h.listed g rfl
  split_ifs at hl with he
  · obtain ⟨hs, hall⟩ := hl
    obtain ⟨hex, hnil⟩ := existingIds_cachedStudents hE.sound hr hall
    refine ⟨_, hs ▸ hex, hs ▸ hnil, ?_⟩
    rw [List.filter_eq_self]
    constructor
    · exact fun hst => .inr ⟨he, fun i hi => (hE.studentIn hw (hent i hi) (hall i hi)).mp (hst i hi)⟩
    · rintro (hn | ⟨-, hst⟩) i hi
      · simp [hn] at hi
      · exact (hE.studentIn hw (hent i hi) (hall i hi)).mpr (hst i hi)
  · refine ⟨[], by rw [hl]; rfl, by simp [hl], ?_⟩
    constructor
    · exact fun hn => .inl hn.symm
    · rintro (hn | ⟨hc, -⟩)
      · exact hn.symm
      · exact absurd hc he

/-- What is written for the students of an edited group is the stored value. -/
theorem Edited.membersValue {g : Group} {m : Bson} (hw : Sound w) (hF : Fresh w p b x) (hE : Extends S w w₁)
    (h : Edited w w₁ p b x es n (.group g)) (hr : Retains w₁.heap h') (hm : membersValue h' g.students = .ok m) :
    b.doc.get? "Members" = some m ↔
      b.doc.get? "Members" = some nullValue ∨ b.doc.members ≠ [] ∧ MembersListed w b es := by
  obtain ⟨v, hv, hform, -⟩ := hF.members h.cls.symm
  obtain ⟨ids, hex, hnil, hids⟩ := h.ids hw hF hE hr
  have hdoc : ∀ l : List Oid, v = .array (l.map .oid) → b.doc.members = l := by
    rintro l rfl
    simp [Doc.members, hv, List.filterMap_map, Element.oid?, Function.comp_def]
  have hnull : v = nullValue → b.doc.members = [] := by
    rintro rfl
    simp [Doc.members, hv, nullValue]
  unfold Cbt.membersValue at hm
  split_ifs at hm with he
  · obtain rfl := Except.ok.inj hm
    refine ⟨.inl, ?_⟩
    rintro (hd | ⟨hne, hl⟩)
    · exact hd
    · exact absurd ((hids.mpr (.inr hl)).symm.trans (hnil.mp (by simpa using he))) hne
  · rw [hex] at hm
    obtain rfl := Except.ok.inj hm
    have hne : ids ≠ [] := fun hn => he (by simp [hnil.mpr hn])
    rw [hv, Option.some.injEq]
    constructor
    · intro hd
      have hmem := hdoc ids hd
      exact .inr ⟨hmem ▸ hne, (hids.mp hmem.symm).resolve_left (hmem ▸ hne)⟩
    · rintro (hd | ⟨hne', hl⟩)
      · have := hnull (Option.some.inj hd)
        exact absurd (hids.mpr (.inl this) |>.trans this) hne
      · rcases hform with rfl | ⟨l, rfl⟩
        · exact absurd (hnull rfl) hne'
        · rw [hids.mpr (.inr hl), hdoc l rfl]

/-! ### The document -/

/-- A field depends on what is written for a reference, or for the members, only under their own keys. -/
theorem get?_written_congr {key : String} {ref ref' : RefField → Bson} (m m' : Bson)
    (href : ∀ f ∈ x.cls.refs, f.key = key → ref f = ref' f) (hm : x.cls = .groupDB → key ≠ "Members") :
    Doc.get? (x.written ref m) key = Doc.get? (x.written ref' m') key := by
  cases x <;> simp only [Fields.written] <;> (repeat' first | rfl | refine Doc.get?_cons_congr ?_ ?_) <;> intro hk <;>
    first
      | rfl
      | exact absurd hk.symm (hm rfl)
      | (refine href _ ?_ hk; simp [Fields.cls, DBClass.refs])

theorem get?_members (g : Group) (ref : RefField → Bson) (m : Bson) :
    Doc.get? ((Fields.group g).written ref m) "Members" = some m := by simp [Fields.written]

/-- The document an edited object writes agrees with the one it was built from, outside some keys among which are those
that were touched, when the object knows the references and the members that are written. -/
theorem Edited.agrees_iff (h : Edited w w₁ p b x es n y) (hF : Fresh w p b x) (hr : Retains w₁.heap h')
    (keys : List String) (ref : RefField → Bson) (m : Bson) (hkeys : ∀ key ∈ touched es, key ∈ keys)
    (hset : ∀ f ∈ x.cls.refs, f.key ∉ keys → Settles w w₁ p f)
    (href : ∀ f ∈ x.cls.refs, f.key ∉ keys → ∀ v, y.ref f = some v → v.value h' = .ok (ref f)) :
    (∀ key, key ∉ keys → Doc.get? (("_id", .oid b.id) :: y.written ref m) key = b.doc.get? key) ↔
      KeptRefs w p b x es keys ∧ (x.cls = .groupDB → "Members" ∉ keys → b.doc.get? "Members" = some m) := by
  have hsub {key} (hk : key ∉ keys) : key ∉ touched es := fun hm => hk (hkeys key hm)
  have hval {f} (hf : f ∈ x.cls.refs) (hk : f.key ∉ keys) :
      some (ref f) = b.doc.get? f.key ↔ ∀ i, b.doc.get? f.key = some (.oid i) → Called w p f i es := by
    obtain ⟨v, hv⟩ := Fields.mem_refs.mp (h.cls ▸ hf)
    exact h.value hF hr hf (hsub hk) (hset f hf hk) hv (href f hf hk v hv)
  have hget {f} (hf : f ∈ x.cls.refs) : Doc.get? (("_id", .oid b.id) :: y.written ref m) f.key = some (ref f) := by
    rw [Doc.get?_cons, if_neg (by cases f <;> decide), get?_written (h.cls ▸ hf)]
  have hmem (hx : x.cls = .groupDB) : Doc.get? (("_id", .oid b.id) :: y.written ref m) "Members" = some m := by
    obtain ⟨g, rfl⟩ : ∃ g, y = .group g := by
      have hy := h.cls.trans hx
      cases y <;> first | exact ⟨_, rfl⟩ | cases hy
    rw [Doc.get?_cons, if_neg (by decide), get?_members]
  constructor
  · refine fun hall => ⟨fun f hf hk => (hval hf hk).mp ?_, fun hx hk => ?_⟩
    · rw [← hall _ hk, hget hf]
    · rw [← hall _ hk, hmem hx]
  · rintro ⟨hrefs, hms⟩ key hk
    by_cases hf : ∃ f ∈ x.cls.refs, key = f.key
    · obtain ⟨f, hf, rfl⟩ := hf
      rw [hget hf, (hval hf hk).mpr (hrefs f hf hk)]
    by_cases hm : x.cls = .groupDB ∧ key = "Members"
    · obtain ⟨hx, rfl⟩ := hm
      rw [hmem hx, hms hx hk]
    -- an own field, which was written as it is stored
    obtain ⟨ref₀, m₀, hdoc⟩ := hF.doc
    rw [hdoc]
    refine Doc.get?_cons_congr (fun _ => rfl) ?_
    rw [h.own key (hsub hk)]
    exact get?_written_congr _ _ (fun f hf' he => absurd ⟨f, hf', he.symm⟩ hf) fun hx he => hm ⟨hx, he⟩

/-! ### Update -/

theorem members_untouched (es : List Edit) : "Members" ∉ touched es := by
  intro h
  obtain ⟨e, -, he⟩ := List.mem_filterMap.mp h
  cases e with
  | get | getStudents => cases he
  | assign s => cases s <;> simp [Edit.key?, Scalar.key] at he
  | setRef f v => cases f <;> simp [Edit.key?, RefField.key] at he

/-- What an edited object writes. -/
theorem Edited.writes (hw : Sound w) (hF : Fresh w p b x) (hE : Extends S w w₁) (h : Edited w w₁ p b x es n y)
    (hr : Retains w₁.heap h') : ∃ ref m, y.Writes h' ref m := by
  refine exists_writes (fun f v hv => h.exists_value hr hv) ?_
  rintro g rfl
  obtain ⟨ids, hex, -⟩ := h.ids hw hF hE hr
  unfold Cbt.membersValue
  split_ifs
  · exact ⟨_, rfl⟩
  · exact ⟨_, by rw [hex]; rfl⟩

/-- The update of an edited object returns, and keeps what nothing touched exactly if the object knows it. -/
theorem Edited.update (hw : Sound w) (hF : Fresh w p b x) (hE : Extends S w w₁) (h : Edited w w₁ p b x es n y)
    (hset : ∀ f ∈ x.cls.refs, Settles w w₁ p f) : ∃ w', run (Controller.update x.kind p) w₁ = .ok (true, w') ∧
      (w'.Agrees x.kind b (touched es) ↔ KeptRefs w p b x es (touched es) ∧ KeptMembers w b x es) := by
  obtain ⟨ref, m, hwr⟩ := h.writes hw hF hE (.refl _)
  have hk : y.kind = x.kind := Fields.kind_of_cls h.cls
  obtain ⟨w', hrun, -, -, -, -, hst⟩ := run_update_of h.get (by rw [hk, hE.stored]; exact Option.isSome_of_eq_some hF.stored)
    (toDoc_eq_ok.mpr ⟨ref, m, hwr, rfl⟩)
  have hdoc : w'.stored x.kind b.id = some (("_id", .oid b.id) :: y.written ref m) := by
    rw [hst, if_pos ⟨hk.symm, rfl⟩]
    rfl
  refine ⟨w', hk ▸ hrun, ?_⟩
  have hiff := h.agrees_iff hF (.refl _) (touched es) ref m (fun _ hk => hk) (fun f hf _ => hset f hf)
    fun f hf _ v hv => hwr.ref f v hv
  have hmem : (x.cls = .groupDB → "Members" ∉ touched es → b.doc.get? "Members" = some m) ↔ KeptMembers w b x es := by
    rw [KeptMembers, imp_congr_right fun _ => forall_prop_of_true (members_untouched es)]
    refine imp_congr_right fun hx => ?_
    obtain ⟨g, rfl⟩ : ∃ g, y = .group g := by
      have hy := h.cls.trans hx
      cases y <;> first | exact ⟨_, rfl⟩ | cases hy
    exact h.membersValue hw hF hE (.refl _) (hwr.members g rfl)
  rw [← hmem, ← hiff]
  constructor
  · rintro ⟨d, hd, hall⟩ key hkey
    obtain rfl := Option.some.inj (hdoc.symm.trans hd)
    exact hall key hkey
  · exact fun hall => ⟨_, hdoc, hall⟩

/-- A session on one fresh object. -/
theorem run_edits_one (hw : Sound w) (hF : Fresh w p b x) (hes : ∀ e ∈ es, e.Fits w x) :
    ∃ w₁ n y, run (edits (es.map fun e => (p, e))) w = .ok ((), w₁) ∧ Extends (· = p) w w₁ ∧
      Edited w w₁ p b x es n y ∧ ∀ f ∈ x.cls.refs, Settles w w₁ p f := by
  let P : ℕ → IFromDB → Fields → Prop := fun q c z => q = p ∧ c = b ∧ z = x
  have hfits : ∀ q e, (q, e) ∈ es.map (fun e => (p, e)) → ∃ c z, P q c z ∧ e.Fits w z := by
    intro q e he
    obtain ⟨e', he', heq⟩ := List.mem_map.mp he
    obtain ⟨rfl, rfl⟩ := Prod.mk.inj heq
    exact ⟨b, x, ⟨rfl, rfl, rfl⟩, hes e' he'⟩
  obtain ⟨w₁, hrun, hE, hed, hset⟩ := run_edits hw (by rintro q c z ⟨rfl, rfl, rfl⟩; exact hF) hfits
  obtain ⟨n, y, h⟩ := hed p b x ⟨rfl, rfl, rfl⟩
  have hof : editsOf p (es.map fun e => (p, e)) = es := by
    simp [editsOf, List.filter_map, Function.comp_def]
  refine ⟨w₁, n, y, hrun, hE.mono fun q hq => hq.choose_spec.choose_spec.1, hof ▸ h, ?_⟩
  rintro f hf rfl
  cases hc : Getter.classOf .getAdditionalInfo w p with
  | some c => exact .inl rfl
  | none =>
    refine .inr (hset ?_)
    rintro q c z ⟨rfl, rfl, rfl⟩
    refine ⟨?_, hc⟩
    cases hx : z.cls <;> simp_all [DBClass.refs]

end Cbt
