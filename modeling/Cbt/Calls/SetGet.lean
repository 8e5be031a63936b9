import Cbt.Calls.Setting
import Cbt.Calls.Updating
import Cbt.Codec.Decoding

/-! What is set is what is got. For every member with a setter and a getter, the
value that was set is got back exactly when the document does not overrule it,
and setting what was got changes nothing for the getters; the document of the
entity changes exactly when the getter had to load what it answered with. -/

namespace Cbt

open Lib.Command (run_bind_iff run_pure_iff)

variable {w w₁ w₂ w' : World} {p : ℕ} {b : IFromDB} {x : Fields}

/-! ### What the getter and the setter leave -/

/-- What is written for members with some ids. -/
def membersBson (ids : List Oid) : Bson := if ids = [] then nullValue else .array (ids.map .oid)

/-- The member already holds what its getter answers: a reference to an entity that exists, or none where the document
names none; the students the document lists, as far as their ids tell. -/
def Member.Holds (w : World) (p : ℕ) (b : IFromDB) (x : Fields) : Member → Prop
  | .ref g => (∃ q, x.ref g.field = some (.to q) ∧ w.Alive q) ∨ ¬ g.Names w p b.doc
  | .students => ∀ g, x = .group g →
      membersValue w.heap g.students = .ok (membersBson (b.doc.members.filter w.findsStudent))

theorem run_toDoc_of {d : Doc} (hp : w.heap.get p = some ⟨some b, x⟩) : run (toDoc p) w = .ok (d, w) ↔
    ∃ ref members, x.Writes w.heap ref members ∧ d = ("_id", .oid b.id) :: x.written ref members := by
  rw [run_toDoc_iff]
  constructor
  · rintro ⟨⟨o, ho, hd⟩, -⟩
    obtain rfl := Option.some.inj (hp.symm.trans ho)
    obtain ⟨d', hd', rfl⟩ := toDoc_db_iff.mp hd
    obtain ⟨ref, members, hwr, rfl⟩ := toDoc_eq_ok.mp hd'
    exact ⟨ref, members, hwr, rfl⟩
  · rintro ⟨ref, members, hwr, rfl⟩
    exact ⟨⟨_, hp, toDoc_db_iff.mpr ⟨_, toDoc_eq_ok.mpr ⟨ref, members, hwr, rfl⟩, rfl⟩⟩, rfl⟩

/-- What a group wrote says which members it listed. -/
theorem members_of_written {g g' : Group} {ref ref' : RefField → Bson} {m m' : Bson}
    (h : (Fields.group g').written ref' m' = (Fields.group g).written ref m) : m' = m := by
  simp only [Fields.written, List.cons.injEq, Prod.mk.injEq, true_and] at h
  exact h.2.2.1

theorem members_of_are {d : Doc} {ids : List Oid} (h : d.MembersAre ids) : d.members = ids := by
  rcases h with h | ⟨rfl, v, h, hno⟩
  · simp only [Doc.members, h, filterMap_oid]
  · simp only [Doc.members, h]
    cases v <;> first | rfl | exact absurd rfl (hno _)

/-- Students that exist are written by their ids. -/
theorem membersValue_of_alive {l : List ℕ} {ids : List Oid} (hl : ∀ q ∈ l, w.Alive q) (hi : l.map w.idOf = ids.map some) :
    membersValue w.heap l = .ok (membersBson ids) := by
  obtain ⟨ids', hids, hmap⟩ := existingIds_of_alive hl
  obtain rfl : ids' = ids := (List.map_injective_iff.mpr (Option.some_injective _)) (hmap.symm.trans hi)
  unfold membersValue membersBson
  cases l with
  | nil => simp_all
  | cons q l =>
    have hne : ids' ≠ [] := by
      rintro rfl
      simp at hi
    simp [hids, hne, Functor.map, Except.map]

/-- A reference to an object that no longer exists is dropped, and nothing is written differently for it. -/
theorem Settled.dropped {f : RefField} {q : ℕ} (h : Settled w f p q none w₁) (hne : q ≠ p)
    (hp : w.heap.get p = some ⟨some b, x⟩) : w₁.heap.get p = some ⟨some b, x.setRef f .null⟩ ∧
      (∀ r, r ≠ q → ident w₁.heap r = ident w.heap r) ∧ ∃ c y, w.heap.get q = some ⟨some c, y⟩ ∧ c.isExist = false := by
  cases h with
  | letGo hq hb hn ho =>
    rename_i c y o
    have hp' : (w.put q ⟨some (c.own (-1)), y⟩).heap.get p = some ⟨some b, x⟩ := by
      rw [Lib.Conf.get_put hq, if_neg hne.symm, hp]
    obtain rfl := Option.some.inj (hp'.symm.trans ho)
    have hset : ident (w.put q ⟨some (c.own (-1)), y⟩).heap = ident w.heap := funext (ident_set hq rfl rfl)
    refine ⟨by rw [Lib.Conf.get_put hp', if_pos rfl]; rfl, fun r _ => ?_, c, y, hq, hb⟩
    exact (ident_set hp' rfl rfl r).trans (congrFun hset r)
  | freed hq hb hn ht ho =>
    rename_i c y o
    obtain rfl := Option.some.inj (hp.symm.trans ho)
    have hp' : (w.free q).heap.get p = some ⟨some b, x⟩ := by
      rw [Lib.Conf.heap_free, Lib.Heap.get_free, if_neg ht, hp]
    refine ⟨by rw [Lib.Conf.get_put hp', if_pos rfl]; rfl, fun r hr => (ident_set hp' rfl rfl r).trans ?_, c, y, hq, hb⟩
    simp only [ident, header, Lib.Conf.heap_free, Lib.Heap.get_free, if_neg hr]

/-- Values that do not refer to an object are written the same without it. -/
theorem value_without {h h' : Memory} {q : ℕ} (hi : ∀ r, r ≠ q → ident h' r = ident h r) {v : Pointer} (hv : v ≠ .to q) :
    v.value h' = v.value h := by
  cases v with
  | uninit | null => rfl
  | «to» r => rw [value_eq_ident, value_eq_ident, hi r (by rintro rfl; exact hv rfl)]

theorem membersValue_without {h h' : Memory} {q : ℕ} (hi : ∀ r, r ≠ q → ident h' r = ident h r) {l : List ℕ}
    (hl : q ∉ l) : membersValue h' l = membersValue h l := by
  have hids : existingIds h' l = existingIds h l := by
    induction l with
    | nil => rfl
    | cons r l ih =>
      rw [List.mem_cons, not_or] at hl
      rw [existingIds_cons, existingIds_cons, hi r (Ne.symm hl.1), ih hl.2]
  rw [membersValue, membersValue, hids]

/-- Dropping a reference to an object that does not exist leaves the document as it was. -/
theorem writes_dropped {h h' : Memory} {f : RefField} {q : ℕ} {ref : RefField → Bson} {m : Bson}
    (hw : x.Writes h ref m) (hf : x.ref f = some (.to q)) (hnull : (Pointer.to q).value h = .ok nullValue)
    (hi : ∀ r, r ≠ q → ident h' r = ident h r) (hq : ∀ f', f' ≠ f → x.ref f' ≠ some (.to q))
    (hs : ∀ g, x = .group g → q ∉ g.students) : (x.setRef f .null).Writes h' ref m := by
  refine ⟨fun f' v hv => ?_, fun g hg => ?_⟩
  · by_cases hff : f' = f
    · subst hff
      rw [Fields.ref_setRef hf, Option.some.injEq] at hv
      subst hv
      rw [hw.ref _ _ hf] at hnull
      exact hnull.symm
    · rw [Fields.ref_setRef_of_ne hff] at hv
      rw [value_without hi fun he => hq f' hff (he ▸ hv)]
      exact hw.ref _ _ hv
  · obtain ⟨g', rfl, hst⟩ := students_setRef hg
    rw [hst, membersValue_without hi (hs g' rfl)]
    exact hw.members g' rfl

theorem value_of_dead {q : ℕ} {c : IFromDB} {y : Fields} (hq : w.heap.get q = some ⟨some c, y⟩) (hc : c.isExist = false) :
    (Pointer.to q).value w.heap = .ok nullValue := by
  simp [Pointer.value, header_eq_ok.mpr ⟨y, hq⟩, hc]

/-- Nothing is written for a reference to an object that no longer exists, whether it is there or dropped. -/
theorem again_of_dropped {g : Getter} {q : ℕ} {d : Doc} {Γ : Classes} (hw : Sound w) (ht : WellTyped Γ w) (hp : (Member.ref g).On w p b x)
    (hx : x.ref g.field = some (.to q)) (hs : Settled w g.field p q none w₁) (hd : run (toDoc p) w = .ok (d, w)) :
    run (toDoc p) w₁ = .ok (d, w₁) ∧ ((∃ w', run (g.call p) w₁ = .ok (none, w')) ↔ ¬ g.Names w p b.doc) := by
  have hquiet : Quiet never w w₁ := hs.quiet
  obtain ⟨c, y, hq, hc⟩ : ∃ c y, w.heap.get q = some ⟨some c, y⟩ ∧ c.isExist = false := by
    cases hs with
    | letGo hq hb | freed hq hb => exact ⟨_, _, hq, hb⟩
  have hadm : ∀ f, x.ref f = some (.to q) → f.admits y = true := fun f hf => ht.admits (ht.ref p _ f q hp.get hf) hq
  have hne : q ≠ p := by
    rintro rfl
    obtain ⟨-, rfl⟩ : b = c ∧ x = y := by simpa [hp.get] using hq
    simpa [not_admits_self hp.of] using hadm _ hx
  obtain ⟨hp₁, hident, -⟩ := hs.dropped hne hp.get
  obtain ⟨ref, m, hwr, rfl⟩ := (run_toDoc_of hp.get).mp hd
  constructor
  · -- no other member designates what is gone
    have halone : ∀ f, f ≠ g.field → x.ref f ≠ some (.to q) := by
      intro f hf hxf
      exact hf (DBClass.ref_eq_of_kind (Fields.mem_refs.mpr ⟨_, hxf⟩) hp.of
        ((RefField.kind_of_admits (hadm f hxf)).symm.trans (RefField.kind_of_admits (hadm _ hx))))
    have hstudents : ∀ g', x = .group g' → q ∉ g'.students := by
      rintro g' rfl hm
      have hcurator : g.field = .curator := by simpa [Member.Of, Fields.cls, DBClass.refs] using hp.of
      have hstud : y.cls = .studentInfoDB :=
        Option.some.inj ((ht.cls q _ hq).symm.trans (ht.students p _ g' hp.get q hm))
      have hteach := hcurator ▸ hadm _ hx
      cases y <;> simp [Fields.cls, RefField.admits] at hstud hteach
    refine (run_toDoc_of hp₁).mpr ⟨ref, m, ?_, by rw [written_setRef]⟩
    exact writes_dropped hwr hx (value_of_dead hq hc) hident halone hstudents
  · rw [← names_of_quiet hw hquiet hp.get hp.exist]
    exact get_none_iff (hquiet.sound hw) hp₁ (Fields.ref_setRef hx _) hp.value

/-- A reference that had to be loaded is written afterwards, where NULL was written before. -/
theorem toDoc_of_loaded {g : Getter} {q : ℕ} {d d₁ : Doc} (hp : w.heap.get p = some ⟨some b, x⟩)
    (hx : x.ref g.field = some .null) (hp₁ : w₁.heap.get p = some ⟨some b, x.setRef g.field (.to q)⟩) (hq : w₁.Alive q)
    (hd : run (toDoc p) w = .ok (d, w)) (hd₁ : run (toDoc p) w₁ = .ok (d₁, w₁)) : d ≠ d₁ := by
  obtain ⟨ref, m, hwr, rfl⟩ := (run_toDoc_of hp).mp hd
  obtain ⟨ref₁, m₁, hwr₁, rfl⟩ := (run_toDoc_of hp₁).mp hd₁
  have hf : g.field ∈ x.cls.refs := Fields.mem_refs.mpr ⟨_, hx⟩
  have hnull : ref g.field = nullValue := (Except.ok.inj (hwr.ref _ _ hx)).symm
  obtain ⟨c, y, hg, hc⟩ := hq
  have hoid : ref₁ g.field = .oid c.id := by
    have := hwr₁.ref _ _ (Fields.ref_setRef hx (.to q))
    simpa [Pointer.value, header_eq_ok.mpr ⟨y, hg⟩, hc] using this.symm
  intro he
  rw [written_setRef, List.cons.injEq] at he
  have hkey := congrArg (fun d => Doc.get? d g.field.key) he.2
  simp only [get?_written hf, hnull, hoid, nullValue, Option.some.injEq, reduceCtorEq] at hkey

/-- A reference: nothing changes exactly when nothing had to be loaded. -/
theorem again_ref_iff {g : Getter} {v : Option ℕ} {d : Doc} {Γ : Classes} (hw : Sound w) (ht : WellTyped Γ w) (hp : (Member.ref g).On w p b x)
    (hg : run (g.call p) w = .ok (v, w₁)) (hd : run (toDoc p) w = .ok (d, w)) :
    (run (toDoc p) w₁ = .ok (d, w₁) ∧ ∃ w', run (g.call p) w₁ = .ok (v, w')) ↔ (Member.ref g).Holds w p b x := by
  -- nothing was found, and nothing happened
  have stays (hx : x.ref g.field = some .null) (hv : v = none) (he : w₁ = w) :
      (run (toDoc p) w₁ = .ok (d, w₁) ∧ ∃ w', run (g.call p) w₁ = .ok (v, w')) ↔ (Member.ref g).Holds w p b x := by
    subst hv he
    have hnone := (get_none_iff hw hp.get hx hp.value).mp ⟨_, hg⟩
    exact iff_of_true ⟨hd, _, hg⟩ (.inr hnone)
  have mine {o : Obj} (ho : w.heap.get p = some o) : o = ⟨some b, x⟩ := Option.some.inj (ho.symm.trans hp.get)
  cases run_getter hw hg with
  | settled ho hv hs =>
    obtain rfl := mine ho
    rename_i q
    cases v with
    | some r =>
      obtain ⟨rfl, rfl, hq⟩ : r = q ∧ w₁ = w ∧ w.Alive q := by
        cases hs with
        | held hq hb => exact ⟨rfl, rfl, _, _, hq, hb⟩
      exact iff_of_true ⟨hd, _, hg⟩ (.inl ⟨_, hv, hq⟩)
    | none =>
      obtain ⟨hdoc, hget⟩ := again_of_dropped hw ht hp hv hs hd
      have hdead : ¬ w.Alive q := by
        rintro hq
        cases (hs.of_alive hq).1
      rw [and_iff_right hdoc, hget]
      refine ⟨.inr, ?_⟩
      rintro (⟨r, hr, halive⟩ | h)
      · obtain rfl : q = r := by simpa [hv] using hr
        exact absurd halive hdead
      · exact h
  | absent ho hn =>
    obtain rfl := (Obj.mk.inj (mine ho)).2
    exact stays hn rfl rfl
  | missed ho hn hv hl hr =>
    obtain rfl := (Obj.mk.inj (mine ho)).2
    refine stays hn rfl ?_
    cases hl with
    | hit | absent => rfl
    | loaded hc hs hcl hob =>
      obtain ⟨o, ho', hno⟩ := hr _ rfl
      obtain rfl := Option.some.inj ((Lib.Heap.get_push_next _ _).symm.trans ho')
      rw [wants_loaded hcl hob] at hno
      cases hno
  | loaded ho hn hv hl hq hc h₁ =>
    rename_i q _ _ _
    have hn : x.ref g.field = some .null := (Obj.mk.inj (mine ho)).2 ▸ hn
    obtain rfl := Option.some.inj ((hl.get hp.get).symm.trans h₁)
    refine iff_of_false ?_ ?_
    · rintro ⟨hd₁, -⟩
      exact toDoc_of_loaded hp.get hn (by rw [Lib.Conf.get_put h₁, if_pos rfl]; rfl) (alive_put_setRef h₁ (hl.alive hw rfl))
        hd hd₁ rfl
    · rintro (⟨r, hr, -⟩ | hno)
      · simp [hn] at hr
      · obtain ⟨w', h⟩ := (get_none_iff hw hp.get hn hp.value).mpr hno
        rw [hg] at h
        cases h

/-- What was written for a reference is written after anything was loaded. -/
theorem Extends.value {S : ℕ → Prop} (h : Extends S w w') {v : Pointer} {u : Bson} (hv : v.value w.heap = .ok u) :
    v.value w'.heap = .ok u := by
  cases v with
  | uninit | null => exact hv
  | «to» q =>
    simp only [Pointer.value] at hv ⊢
    cases hq : header w.heap q with
    | error e => simp [hq] at hv
    | ok c =>
      obtain ⟨y, hg⟩ := header_eq_ok.mp hq
      obtain ⟨c', y', hg', hcore, -⟩ := h.same q c y hg
      simp only [IFromDB.core, Prod.mk.injEq] at hcore
      simpa [hq, header_eq_ok.mpr ⟨y', hg'⟩, hcore] using hv

/-- The students of a group: nothing changes exactly when it has those its document lists. -/
theorem again_students_iff {g : Group} {l : List ℕ} {d : Doc} (hw : Sound w) (hg : w.heap.get p = some ⟨some b, .group g⟩)
    (hr : run (GroupDB.getStudents p) w = .ok (l, w₁)) (hd : run (toDoc p) w = .ok (d, w)) :
    (run (toDoc p) w₁ = .ok (d, w₁) ∧ ∃ w', run (GroupDB.getStudents p) w₁ = .ok (l, w')) ↔
      membersValue w.heap g.students = .ok (membersBson (b.doc.members.filter w.findsStudent)) := by
  obtain ⟨ids, hgot⟩ := got_students hw hg hr
  rw [members_of_are hgot.members]
  have hagain : ∃ w', run (GroupDB.getStudents p) w₁ = .ok (l, w') := by
    refine (lists_iff hgot.grown.sound hgot.get fun q hq => ?_).mpr ⟨ids, hgot.members, hgot.all, hgot.listed⟩
    obtain ⟨c, y, hq, -⟩ := hgot.live hq
    exact Lib.Heap.lt_next hq
  rw [and_iff_left hagain]
  obtain ⟨ref, m, hwr, rfl⟩ := (run_toDoc_of hg).mp hd
  have hwr₁ : (Fields.group { g with students := l }).Writes w₁.heap ref (membersBson (ids.filter w.findsStudent)) := by
    refine ⟨fun f v hv => hgot.grown.value (hwr.ref f v ?_), fun g' hg' => ?_⟩
    · cases f <;> exact hv
    · obtain rfl := Fields.group.inj hg'
      exact membersValue_of_alive (fun q hq => hgot.live hq) hgot.ids_eq
  rw [hwr.members g rfl, Except.ok.injEq]
  constructor
  · intro hd₁
    obtain ⟨ref', m', hwr', he⟩ := (run_toDoc_of hgot.get).mp hd₁
    have hm' : m' = membersBson (ids.filter w.findsStudent) :=
      Except.ok.inj ((hwr'.members _ rfl).symm.trans (hwr₁.members _ rfl))
    rw [List.cons.injEq] at he
    exact (members_of_written he.2).trans hm'
  · rintro rfl
    exact (run_toDoc_of hgot.get).mpr ⟨ref, _, hwr₁, rfl⟩

/-- Setting what a getter answered leaves every later answer and every document; for the entity itself, and from before the
getter, exactly when the member held the answer. -/
theorem again_iff {m : Member} {v : m.Value} {d : Doc} {Γ : Classes} (hw : Sound w) (ht : WellTyped Γ w)
    (hp : m.On w p b x) (hg : run (m.get p) w = .ok (v, w₁)) (hs : run (m.set p v) w₁ = .ok ((), w₂)) (hd : run (toDoc p) w = .ok (d, w)) :
    (run (toDoc p) w₂ = .ok (d, w₂) ∧ ∃ w', run (m.get p) w₂ = .ok (v, w')) ↔ m.Holds w p b x := by
  have hre := (set_of_get hw ht hp hg).2 w₂ hs
  have hw₁ := sound_get hw hg
  have hback : (run (toDoc p) w₂ = .ok (d, w₂) ∧ ∃ w', run (m.get p) w₂ = .ok (v, w')) ↔
      run (toDoc p) w₁ = .ok (d, w₁) ∧ ∃ w', run (m.get p) w₁ = .ok (v, w') := by
    refine and_congr ⟨hre.symm.toDoc, hre.toDoc⟩ ⟨?_, ?_⟩ <;> rintro ⟨w', h⟩
    · exact (hre.symm.member (hre.sound hw₁) h).imp fun _ h => h.1
    · exact (hre.member hw₁ h).imp fun _ h => h.1
  rw [hback]
  cases m with
  | ref g => exact again_ref_iff hw ht hp hg hd
  | students =>
    obtain ⟨g, rfl⟩ : ∃ g, x = .group g := by
      have hx := hp.of
      cases x <;> first | exact ⟨_, rfl⟩ | cases hx
    refine (again_students_iff hw hp.get hg hd).trans ⟨fun h g' hg' => ?_, fun h => h g rfl⟩
    obtain rfl := Fields.group.inj hg'
    exact h

/-! ### What a setter assigns -/

theorem quiet_assigned {m : Member} (v : m.Value) (hp : m.On w p b x) :
    Quiet never w (w.put p ⟨some b, m.assigned v x⟩) := by
  cases m with
  | ref g => exact .single (.put hp.get (.setRef ⟨some b, x⟩ _ _))
  | students =>
    cases x with
    | group g => exact quiet_assignStudents hp.get v
    | _ => exact .single (.put hp.get ⟨rfl, rfl⟩)

/-- A reference that was set is got, unless it is NULL and the document names an entity. -/
theorem get_ref_assigned {g : Getter} {v : Option ℕ} (hw : Sound w) (hp : (Member.ref g).On w p b x)
    (hv : (Member.ref g).Live w v) :
    (∃ w', run (g.call p) (w.put p ⟨some b, (Member.ref g).assigned v x⟩) = .ok (v, w')) ↔
      v ≠ none ∨ ¬ g.Names w p b.doc := by
  have hq := quiet_assigned (m := .ref g) v hp
  have hw₀ := hq.sound hw
  obtain ⟨u, hu⟩ := Fields.mem_refs.mp hp.of
  have hp₀ : (w.put p ⟨some b, (Member.ref g).assigned v x⟩).heap.get p = some ⟨some b, (Member.ref g).assigned v x⟩ := by
    rw [Lib.Conf.get_put hp.get, if_pos rfl]
  cases v with
  | some q =>
    obtain ⟨c, y, hg, hc, -⟩ := hv q (by simp [Member.toList])
    exact iff_of_true ⟨_, run_getter_of_to hw₀ hp₀ (Fields.ref_setRef hu _) (hq.steady.alive ⟨c, y, hg, hc⟩)⟩ (.inl (by simp))
  | none =>
    rw [← names_of_quiet hw hq hp.get hp.exist, get_none_iff hw₀ hp₀ (Fields.ref_setRef hu _) hp.value]
    simp

theorem lists_assigned {g : Group} {l : List ℕ} (hg : w.heap.get p = some ⟨some b, .group g⟩) (d : Doc) :
    d.Lists (w.put p ⟨some b, .group { g with students := l }⟩) l ↔ d.Lists w l := by
  simp only [Doc.Lists, cached_assignStudents hg, cachedStudents_assignStudents hg]
  rfl

/-- Whatever is set, the entity describes a document exactly when its other members do. -/
theorem referring_assigned_iff {m : Member} {v : m.Value} (hx : m.Of x) (hv : m.Live w v) :
    Referring w.heap (m.assigned v x) ↔ m.Spares w.heap x := by
  cases m with
  | ref g =>
    obtain ⟨u, hu⟩ := Fields.mem_refs.mp hx
    simp only [Member.assigned]
    constructor
    · refine fun h => ⟨fun f u' hf hu' => h.ref f u' ?_, fun _ g' hg' => ?_⟩
      · rw [Fields.ref_setRef_of_ne (hf g rfl), hu']
      · subst hg'
        obtain ⟨g'', he⟩ : ∃ g'', (Fields.group g').setRef g.field (.ofOption v) = .group g'' := by
          cases g.field <;> exact ⟨_, rfl⟩
        obtain ⟨_, he', hst⟩ := students_setRef he
        obtain rfl := Fields.group.inj he'
        exact hst ▸ h.students g'' he
    · refine fun h => ⟨fun f u' hu' => ?_, fun g' hg' => ?_⟩
      · by_cases hf : f = g.field
        · subst hf
          rw [Fields.ref_setRef hu, Option.some.injEq] at hu'
          subst hu'
          cases v with
          | none => exact .inl rfl
          | some q =>
            obtain ⟨c, y, hq, -⟩ := hv q (by simp [Member.toList])
            exact .inr ⟨q, c, rfl, header_eq_ok.mpr ⟨y, hq⟩⟩
        · rw [Fields.ref_setRef_of_ne hf] at hu'
          exact h.ref f u' (fun g' he => Member.ref.inj he ▸ hf) hu'
      · obtain ⟨g'', rfl, hst⟩ := students_setRef hg'
        exact hst ▸ h.students (by simp) g'' rfl
  | students =>
    obtain ⟨g, rfl⟩ : ∃ g, x = .group g := by
      cases x <;> first | exact ⟨_, rfl⟩ | cases hx
    have href : ∀ f, (Fields.group { g with students := v }).ref f = (Fields.group g).ref f := by
      intro f
      cases f <;> rfl
    constructor
    · exact fun h => ⟨fun f u _ hu => h.ref f u ((href f).trans hu), fun hno => absurd rfl hno⟩
    · refine fun h => ⟨fun f u hu => h.ref f u (fun _ he => by cases he) ((href f).symm.trans hu), fun g' hg' q hq => ?_⟩
      obtain rfl := Fields.group.inj hg'
      obtain ⟨c, y, hg, -⟩ := hv q hq
      exact ⟨c, header_eq_ok.mpr ⟨y, hg⟩⟩

/-! ### Set, then got -/

/-- Without an update the getter answers with what the document does not overrule. -/
theorem get_assigned_iff {m : Member} {v : m.Value} (hw : Sound w) (hp : m.On w p b x) (hv : m.Live w v) :
    (∃ w', run (m.get p) (w.put p ⟨some b, m.assigned v x⟩) = .ok (v, w')) ↔ m.Kept w p b x false v := by
  cases m with
  | ref g => exact get_ref_assigned hw hp hv
  | students =>
    obtain ⟨g, rfl⟩ : ∃ g, x = .group g := by
      have hx := hp.of
      cases x <;> first | exact ⟨_, rfl⟩ | cases hx
    have hq := quiet_assigned v hp
    have hp₀ : (w.put p ⟨some b, Member.students.assigned v (.group g)⟩).heap.get p = some ⟨some b, .group { g with students := v }⟩ := by
      rw [Lib.Conf.get_put hp.get, if_pos rfl]
      rfl
    refine (lists_iff (hq.sound hw) hp₀ fun q hq' => ?_).trans (lists_assigned hp.get b.doc)
    obtain ⟨c, y, hg, hc, -⟩ := hv q hq'
    obtain ⟨c', y', hg', -⟩ := hq.steady.alive ⟨c, y, hg, hc⟩
    exact Lib.Heap.lt_next hg'

/-- After an update the getter answers with every reference, and with students that are found under their ids. -/
theorem get_updated_iff {m : Member} {v : m.Value} {k : Kind} {r : Bool} (hw : Sound w) (hp : m.On w p b x)
    (hm : m ≠ .ref .getTeacher) (hv : m.Live w v) (hre : Recounted (w.put p ⟨some b, m.assigned v x⟩) w₁)
    (h : run (Controller.update k p) w₁ = .ok (r, w₂)) : (∃ w', run (m.get p) w₂ = .ok (v, w')) ↔
      (m = .students → ∀ q ∈ m.toList v, ∃ i, w.idOf q = some i ∧ w.cached .infos i = some q) := by
  have hq := quiet_assigned v hp
  set w₀ := w.put p ⟨some b, m.assigned v x⟩ with hw₀
  have hsound₀ : Sound w₀ := hq.sound hw
  obtain ⟨n, hp₁⟩ := hre.obj (q := p) (c := some b) (x := m.assigned v x) (by rw [hw₀, Lib.Conf.get_put hp.get, if_pos rfl])
  cases m with
  | ref g =>
    obtain ⟨u, hu⟩ := Fields.mem_refs.mp hp.of
    refine iff_of_true ?_ (by simp)
    refine get_ref_updated (fun he => hm (congrArg _ he)) (hre.sound hsound₀) hp₁ (Fields.ref_setRef hu _) (fun q hq' => ?_) h
    obtain ⟨c, y, hg, hc, -⟩ := hv q (by simp [Member.toList, hq'])
    exact hre.alive (hq.steady.alive ⟨c, y, hg, hc⟩)
  | students =>
    obtain ⟨g, rfl⟩ : ∃ g, x = .group g := by
      have hx := hp.of
      cases x <;> first | exact ⟨_, rfl⟩ | cases hx
    have hstud : ∀ q ∈ v, ∃ c s, w₁.heap.get q = some ⟨some c, .student s⟩ ∧ c.isExist = true := by
      intro q hq'
      obtain ⟨c, y, hg, hc, hy⟩ := hv q hq'
      obtain ⟨c₀, y₀, hg₀, hc₀, hy₀⟩ := hq.same hg hc
      obtain ⟨n, hg₁⟩ := hre.obj hg₀
      obtain ⟨s, rfl⟩ : ∃ s, y = .student s := by cases y <;> first | exact ⟨_, rfl⟩ | cases hy
      have hc₁ : (c₀.own n).isExist = true := (congrArg (·.2.2) hc₀).trans hc
      cases y₀ <;> first | exact ⟨_, _, hg₁, hc₁⟩ | cases hy₀
    refine (get_students_updated (hre.sound hsound₀) hp₁ hstud h).trans ?_
    have hid : w₀.idOf = w.idOf := funext fun q => idOf_assignStudents hp.get _
    have hcached : w₀.cached = w.cached := cached_assignStudents hp.get _
    simp only [hre.idOf, hre.cached, hid, hcached, Member.toList, forall_const]

/-- After a setter, `Update` returns exactly when the entity is stored and its other members can be written. -/
theorem update_assigned_iff {m : Member} {v : m.Value} (hp : m.On w p b x) (hv : m.Live w v)
    (hre : Recounted (w.put p ⟨some b, m.assigned v x⟩) w₁) :
    (∃ r w₂, run (Controller.update x.kind p) w₁ = .ok (r, w₂)) ↔ (w.stored x.kind b.id).isSome ∧ m.Spares w.heap x := by
  have hkind : (m.assigned v x).kind = x.kind := by
    cases m with
    | ref g => exact Fields.kind_of_cls (Fields.cls_setRef _ _ _)
    | students => cases x <;> rfl
  obtain ⟨n, hp₁⟩ := hre.obj (q := p) (c := some b) (x := m.assigned v x) (by rw [Lib.Conf.get_put hp.get, if_pos rfl])
  have hident : ∀ q, ident w₁.heap q = ident w.heap q := fun q =>
    (hre.ident q).trans (ident_set hp.get rfl rfl q)
  have hstored : w₁.stored = w.stored := hre.stored
  rw [← referring_assigned_iff hp.of hv, ← Referring.congr hident, ← hstored, ← hkind]
  constructor
  · rintro ⟨r, w₂, h⟩
    obtain ⟨c, y, d, hg, -, hd, hs, -⟩ := update_effect h
    obtain ⟨rfl, rfl⟩ : b.own n = c ∧ m.assigned v x = y := by simpa [hp₁] using hg
    exact ⟨hs, exists_toDoc_iff.mp ⟨d, hd⟩⟩
  · rintro ⟨hs, hd⟩
    obtain ⟨d, hd⟩ := exists_toDoc_iff.mpr hd
    obtain ⟨w₂, h, -⟩ := run_update_of hp₁ hs hd
    exact ⟨true, w₂, h⟩

/-- What was set is got exactly when it is kept. -/
theorem setGot_iff {m : Member} {v : m.Value} {updated : Bool} (hw : Sound w) (hp : m.On w p b x)
    (hm : m ≠ .ref .getTeacher) (hv : m.Live w v) : m.SetGot p v x.kind updated w ↔ m.Kept w p b x updated v := by
  obtain ⟨⟨w₁, hset⟩, hre⟩ := run_set hp.get hp.of hv
  have hre := hre w₁ hset
  have hsound₀ : Sound (w.put p ⟨some b, m.assigned v x⟩) := (quiet_assigned v hp).sound hw
  have hafter : m.SetGot p v x.kind updated w ↔ ∃ w₂, (if updated then
      ∃ r, run (Controller.update x.kind p) w₁ = .ok (r, w₂) else w₂ = w₁) ∧ ∃ w₃, run (m.get p) w₂ = .ok (v, w₃) := by
    constructor
    · rintro ⟨w₁', w₂, w₃, hset', hup, hget⟩
      obtain rfl : w₁' = w₁ := by simpa using hset'.symm.trans hset
      exact ⟨w₂, hup, w₃, hget⟩
    · rintro ⟨w₂, hup, w₃, hget⟩
      exact ⟨w₁, w₂, w₃, hset, hup, hget⟩
  rw [hafter]
  cases updated with
  | false =>
    simp only [Bool.false_eq_true, if_false, exists_eq_left, ← get_assigned_iff hw hp hv]
    constructor <;> rintro ⟨w', h⟩
    · exact (hre.symm.member (hre.sound hsound₀) h).imp fun _ h => h.1
    · exact (hre.member hsound₀ h).imp fun _ h => h.1
  | true =>
    simp only [if_true, Member.Kept, ← and_assoc, ← update_assigned_iff hp hv hre]
    constructor
    · rintro ⟨w₂, ⟨r, hup⟩, hget⟩
      exact ⟨⟨r, w₂, hup⟩, (get_updated_iff hw hp hm hv hre hup).mp hget⟩
    · rintro ⟨⟨r, w₂, hup⟩, h⟩
      exact ⟨w₂, ⟨r, hup⟩, (get_updated_iff hw hp hm hv hre hup).mpr h⟩

/-! ### Got, then set -/

/-- A getter returns exactly when it has what it needs. -/
theorem Member.returns_iff {m : Member} (hw : Sound w) (hp : m.On w p b x) :
    (∃ v w', run (m.get p) w = .ok (v, w')) ↔ m.Answerable w p b x := by
  cases m with
  | ref g =>
    obtain ⟨v, hv⟩ := Fields.mem_refs.mp hp.of
    refine (Getter.returns_iff hw hp.get hp.exist hv hp.value).trans ⟨fun h => ⟨v, hv, h⟩, ?_⟩
    rintro ⟨v', hv', h⟩
    obtain rfl := Option.some.inj (hv.symm.trans hv')
    exact h
  | students =>
    obtain ⟨g, rfl⟩ : ∃ g, x = .group g := by
      have hx := hp.of
      cases x <;> first | exact ⟨_, rfl⟩ | cases hx
    set w₀ := w.put p ⟨some b, .group { g with students := [] }⟩ with hw₀
    have hg₀ : w₀.heap.get p = some ⟨some b, .group { g with students := [] }⟩ := by
      rw [hw₀, Lib.Conf.get_put hp.get, if_pos rfl]
    have hsound : Sound w₀ := (quiet_assignStudents (L := never) hp.get _).sound hw
    have hload : ∀ i, w₀.Loadable .infos (some .studentInfoDB) i ↔ w.Loadable .infos (some .studentInfoDB) i := by
      intro i
      simp only [Lib.Conf.Loadable, hw₀, cached_assignStudents hp.get]
      rfl
    constructor
    · rintro ⟨l, w', h⟩ vs hvs
      obtain ⟨b', g', v, hg', hv, hr, -⟩ := run_getStudents_iff.mp h
      obtain ⟨rfl, rfl⟩ : b = b' ∧ g = g' := by simpa [hp.get] using hg'
      rcases hr with ⟨vs', rfl, hr⟩ | ⟨hno, -⟩
      · obtain rfl : vs' = vs := by simpa using hv.symm.trans hvs
        obtain ⟨ids, hids, hall⟩ := loadable_of_run hsound hg₀ hr
        exact ⟨ids, hids, fun i hi => (hload i).mp (hall i hi)⟩
      · exact absurd (Option.some.inj (hv.symm.trans hvs)) (hno vs)
    · intro h
      obtain ⟨v, hv⟩ := hp.value
      by_cases hvs : ∃ vs, v = .array vs
      · obtain ⟨_, rfl⟩ := hvs
        obtain ⟨ids, rfl, hall⟩ := h _ hv
        obtain ⟨w', hr⟩ := exists_loadStudents_of hsound hg₀ fun i hi hn d hd => (hload i).mpr (hall i hi) hn d hd _ rfl
        obtain ⟨ids', l, -, hl⟩ := loaded_of_run hsound hg₀ hr
        exact ⟨_, w', run_getStudents_iff.mpr ⟨b, g, _, hp.get, hv, .inl ⟨_, rfl, hr⟩, _, _, hl.get, rfl⟩⟩
      · exact ⟨[], w₀, run_getStudents_iff.mpr ⟨b, g, v, hp.get, hv, .inr ⟨fun vs he => hvs ⟨vs, he⟩, rfl⟩, _, _, hg₀, rfl⟩⟩

/-- A getter and the setter with its answer return; the setter leaves every later answer and every document as they were. -/
def Member.GotSet (m : Member) (p : ℕ) (w : World) : Prop :=
  ∃ u w₁ w₂, run (m.get p) w = .ok (u, w₁) ∧ run (m.set p u) w₁ = .ok ((), w₂) ∧ SameAnswers w₁ w₂

/-- The same, and the entity's document and the getter's answer are as before the getter too. -/
def Member.GotSetBack (m : Member) (p : ℕ) (w : World) : Prop :=
  ∃ d u w₁ w₂, run (toDoc p) w = .ok (d, w) ∧ run (m.get p) w = .ok (u, w₁) ∧ run (m.set p u) w₁ = .ok ((), w₂) ∧
    SameAnswers w₁ w₂ ∧ run (toDoc p) w₂ = .ok (d, w₂) ∧ ∃ w', run (m.get p) w₂ = .ok (u, w')

theorem exists_run_toDoc_iff (hp : w.heap.get p = some ⟨some b, x⟩) :
    (∃ d, run (toDoc p) w = .ok (d, w)) ↔ Referring w.heap x := by
  rw [← exists_toDoc_iff]
  simp only [run_toDoc_of hp, toDoc_eq_ok]
  constructor
  · rintro ⟨_, ref, members, hwr, -⟩
    exact ⟨_, ref, members, hwr, rfl⟩
  · rintro ⟨_, ref, members, hwr, -⟩
    exact ⟨_, ref, members, hwr, rfl⟩

/-- In every state a client reaches, and for every member of an entity that was loaded: what is set is got exactly when it is
kept, without an update and with one; setting what the getter answered changes nothing exactly when the getter returns; and
nothing since before the getter either exactly when also the entity's document can be built and the member held the answer. -/
theorem set_get_iff {c : Client} {m : Member} {v : m.Value} (hc : c.Reachable) (hm : m ≠ .ref .getTeacher)
    (hp : m.On c.world p b x) (hv : m.Live c.world v) :
    (∀ updated, m.SetGot p v x.kind updated c.world ↔ m.Kept c.world p b x updated v) ∧
      (m.GotSet p c.world ↔ m.Answerable c.world p b x) ∧
      (m.GotSetBack p c.world ↔
        m.Answerable c.world p b x ∧ Referring c.world.heap x ∧ m.Holds c.world p b x) := by
  have hw := hc.sound
  obtain ⟨Γ, ht⟩ := hc.wellTyped
  refine ⟨fun updated => setGot_iff hw hp hm hv, ?_, ?_⟩
  · rw [← Member.returns_iff hw hp]
    constructor
    · rintro ⟨u, w₁, -, hg, -⟩
      exact ⟨u, w₁, hg⟩
    · rintro ⟨u, w₁, hg⟩
      obtain ⟨⟨w₂, hs⟩, hre⟩ := set_of_get hw ht hp hg
      exact ⟨u, w₁, w₂, hg, hs, (hre w₂ hs).sameAnswers (sound_get hw hg)⟩
  · rw [← Member.returns_iff hw hp, ← exists_run_toDoc_iff hp.get]
    constructor
    · rintro ⟨d, u, w₁, w₂, hd, hg, hs, -, hback⟩
      exact ⟨⟨u, w₁, hg⟩, ⟨d, hd⟩, (again_iff hw ht hp hg hs hd).mp hback⟩
    · rintro ⟨⟨u, w₁, hg⟩, ⟨d, hd⟩, hholds⟩
      obtain ⟨⟨w₂, hs⟩, hre⟩ := set_of_get hw ht hp hg
      have hback := (again_iff hw ht hp hg hs hd).mpr hholds
      exact ⟨d, u, w₁, w₂, hd, hg, hs, (hre w₂ hs).sameAnswers (sound_get hw hg), hback.1, hback.2⟩

/-- A group whose curator is the teacher, without members. -/
def oneCurated : Database :=
  oneTeacher.insert .groups [("Name", .string "name"), ("Curator", .oid 0), ("Members", nullValue)]

/-- The teacher that was set as curator of the group is got, without an update and with one. -/
theorem set_get_of_curator : ∃ c : Client, (yields (Group.setCurator 0 (some 1)) c.world).isSome = true ∧
    ∀ updated, (Member.ref .getCurator).SetGot 0 (some 1) .groups updated c.world := by
  have hplay : (Client.play [.call (.getFromDB .groups 1 .admin), .call (.getFromDB .infos 0 .teacher)]
      (Client.start oneCurated .null)).any (fun c => (yields (Group.setCurator 0 (some 1)) c.world).isSome ∧
        (c.world.heap.get 0).any (fun o => o.fields = .group { name := "name" } ∧ o.fromDB.any fun b => b.isExist ∧
          b.doc.get? "Curator" = some (.oid 0) ∧ (c.world.stored .groups b.id).isSome) ∧
        (c.world.heap.get 1).any fun o => o.fields.isTeacher ∧ o.fromDB.any (·.isExist)) = true := by decide
  obtain ⟨c, hc, h⟩ := Option.any_eq_true .. |>.mp hplay
  obtain ⟨hset, h₀, h₁⟩ := of_decide_eq_true h
  obtain ⟨⟨b?, x⟩, hget, h₀⟩ := Option.any_eq_true .. |>.mp h₀
  obtain ⟨hx, h₀⟩ := of_decide_eq_true h₀
  obtain ⟨b, rfl, h₀⟩ := Option.any_eq_true .. |>.mp h₀
  obtain ⟨hb, hdoc, hstored⟩ := of_decide_eq_true h₀
  obtain rfl : x = .group { name := "name" } := hx
  obtain ⟨⟨t?, y⟩, hteach, h₁⟩ := Option.any_eq_true .. |>.mp h₁
  obtain ⟨hy, h₁⟩ := of_decide_eq_true h₁
  obtain ⟨t, rfl, ht⟩ := Option.any_eq_true .. |>.mp h₁
  have hp : (Member.ref .getCurator).On c.world 0 b _ := ⟨hget, hb, by simp [Member.Of, Getter.field, Fields.cls, DBClass.refs], _, hdoc⟩
  have hv : (Member.ref .getCurator).Live c.world (some 1) := by
    intro q hq
    obtain rfl : q = 1 := by simpa [Member.toList] using hq
    exact ⟨t, y, hteach, ht, by cases y <;> first | rfl | cases hy⟩
  refine ⟨c, hset, fun updated => ?_⟩
  refine ((set_get_iff ⟨_, _, _, Client.run_of_play hc⟩ (by simp) hp hv).1 updated).mpr ?_
  cases updated with
  | false => exact .inl (by simp)
  | true =>
    refine ⟨hstored, ⟨fun f v hf hv => ?_, fun _ g hg q hq => ?_⟩, by simp⟩
    · cases f with
      | curator => exact absurd rfl (hf _ rfl)
      | _ => cases hv
    · obtain rfl := Fields.group.inj hg
      cases hq

/-- The curator that was set to NULL is still got. -/
theorem not_set_get_always : ¬ ∀ (c : Client) (m : Member) (p : ℕ) (b : IFromDB) (x : Fields) (v : m.Value) (updated : Bool),
    c.Reachable → m ≠ .ref .getTeacher → m.On c.world p b x → m.Live c.world v → m.SetGot p v x.kind updated c.world := by
  intro h
  have hplay : ((Event.call (.getFromDB .groups 1 .admin)).next? (Client.start oneCurated .null)).any (fun c =>
      (c.world.heap.get 0).any (fun o => o.fields.cls = .groupDB ∧
        o.fromDB.any fun b => b.isExist ∧ b.doc.get? "Curator" = some (.oid 0)) ∧
      (yields (Group.setCurator 0 none) c.world).any fun r => (yields (GroupDB.getCurator 0) r.2).any fun r' =>
        r'.1 = some 1) = true := by decide
  obtain ⟨c, hc, h₁⟩ := Option.any_eq_true .. |>.mp hplay
  obtain ⟨h₁, h₂⟩ := of_decide_eq_true h₁
  obtain ⟨⟨b?, x⟩, hget, h₁⟩ := Option.any_eq_true .. |>.mp h₁
  obtain ⟨hx, h₁⟩ := of_decide_eq_true h₁
  obtain ⟨b, rfl, h₁⟩ := Option.any_eq_true .. |>.mp h₁
  obtain ⟨hb, hdoc⟩ := of_decide_eq_true h₁
  obtain ⟨⟨u, w₂⟩, hset, h₂⟩ := Option.any_eq_true .. |>.mp h₂
  obtain ⟨⟨r, w₃⟩, hg, hr⟩ := Option.any_eq_true .. |>.mp h₂
  obtain rfl : r = some 1 := of_decide_eq_true hr
  obtain ⟨_, w₁, w', hset', rfl, hn⟩ := h c (.ref .getCurator) 0 b x none false
    ⟨_, _, _, .snoc .nil trivial (Event.step_of_next? hc)⟩ (by simp)
    ⟨hget, hb, by simp [Member.Of, hx, DBClass.refs, Getter.field], _, hdoc⟩ (fun q hq => by cases hq)
  obtain rfl : w₂ = w₁ := by simpa using (run_of_yields hset).symm.trans hset'
  have he := (run_of_yields hg).symm.trans hn
  simp at he

end Cbt
