import Mathlib.Data.List.Find
import Cbt.Effects.Answering

/-! Extensions of a world. A world is extended when objects are loaded into the
caches, some objects are edited in place and the others are at most counted; the
database stays as it is. What was cached under an id stays cached under it, and
what is cached under a new id was built from the stored document. The getters
of a freshly built object extend the world, and so does the listing of the
students of a group, which gives the cached students of the stored members. -/

namespace Cbt

open Lib.Command (run_bind_iff run_pure_iff run_fault_iff run_ofExcept_iff)

variable {w w₁ w' : World} {S : ℕ → Prop}

structure Extends (S : ℕ → Prop) (w w' : World) : Prop where
  env : w'.env = w.env
  sound : Sound w'
  other : ∀ p b x, ¬ S p → w.heap.get p = some ⟨some b, x⟩ → ∃ n, w'.heap.get p = some ⟨some (b.own n), x⟩
  same : ∀ p b x, w.heap.get p = some ⟨some b, x⟩ →
    ∃ b' x', w'.heap.get p = some ⟨some b', x'⟩ ∧ b'.core = b.core ∧ x'.cls = x.cls
  cached : ∀ k i p, w.cached k i = some p → w'.cached k i = some p
  loaded : ∀ k i p, w.cached k i = none → w'.cached k i = some p →
    ∃ c d, c ≠ .additionalInfoDB ∧ w.stored k i = some d ∧ (∃ x, c.fields d = .ok x) ∧
      ∃ o, w'.heap.get p = some o ∧ o.fields.cls = c

theorem own_own (b : IFromDB) (m n : ℤ) : (b.own m).own n = b.own (m + n) := by
  simp only [IFromDB.own, IFromDB.mk.injEq, and_true]
  omega

theorem own_zero (b : IFromDB) : b.own 0 = b := by simp [IFromDB.own]

/-- A load caches the new object under its id and no other. -/
theorem cached_load_of_entry {k k' : Kind} (he : ∀ p ∈ w.cash k', ∃ b x, w.heap.get p = some ⟨some b, x⟩)
    {b : IFromDB} (x : Fields) (hn : w.cached k b.id = none) (j : Oid) :
    (w.load k ⟨some b, x⟩).cached k' j = if k' = k ∧ j = b.id then some w.heap.next else w.cached k' j := by
  have hid : ∀ q ∈ w.cash k', (w.load k ⟨some b, x⟩).idOf q = w.idOf q := by
    intro q hq
    obtain ⟨b', y, hg⟩ := he q hq
    have hg' : (w.load k ⟨some b, x⟩).heap.get q = some ⟨some b', y⟩ := Lib.Heap.get_push_of_some _ hg
    rw [Lib.Conf.idOf_of_get hg, Lib.Conf.idOf_of_get hg']
  have hfind : (w.cash k').find? (fun q => (w.load k ⟨some b, x⟩).idOf q = some j) = w.cached k' j :=
    List.find?_congr fun q hq => by rw [hid q hq]
  have hnew : (w.load k ⟨some b, x⟩).idOf w.heap.next = some b.id :=
    Lib.Conf.idOf_of_get (Lib.Heap.get_push_next _ _)
  by_cases hk : k' = k
  · subst hk
    rw [Lib.Conf.cached, Lib.Conf.cash_load, if_pos rfl, List.find?_append, hfind]
    by_cases hj : j = b.id
    · subst hj
      simp [hn, hnew]
    · have hne : ¬ b.id = j := fun he => hj he.symm
      simp [hj, hne, hnew]
  · rw [if_neg fun h => hk h.1, Lib.Conf.cached, Lib.Conf.cash_load, if_neg hk, hfind]

theorem cached_load (hw : Sound w) {k : Kind} {b : IFromDB} (x : Fields) (hn : w.cached k b.id = none) (k' : Kind)
    (j : Oid) : (w.load k ⟨some b, x⟩).cached k' j =
      if k' = k ∧ j = b.id then some w.heap.next else w.cached k' j := by
  refine cached_load_of_entry (fun p hp => ?_) x hn j
  obtain ⟨b', y, hg, -⟩ := hw.entry k' p hp
  exact ⟨b', y, hg⟩

/-- What a look-up finds is cached under the id. -/
theorem Looked.cached (hw : Sound w) {k : Kind} {i : Oid} {c? : Option DBClass} {p : ℕ}
    (h : Looked w k i c? (some p) w') : w'.cached k i = some p := by
  cases h with
  | hit hc => exact hc
  | loaded hc hs hcl ho =>
    obtain ⟨x, j, -, hj, rfl⟩ := ofDoc_eq_ok.mp ho
    obtain rfl : i = j := by simpa [hj] using ((w.env.coll k).ids i _ hs).symm
    exact (Cbt.cached_load hw (b := IFromDB.own 1 { doc := _, id := i }) x hc k i).trans (if_pos ⟨rfl, rfl⟩)

/-- The caches find the same objects after an edit in place. -/
theorem cached_put {p : ℕ} {b b' : IFromDB} {x x' : Fields} (hp : w.heap.get p = some ⟨some b, x⟩)
    (hb : b'.core = b.core) : (w.put p ⟨some b', x'⟩).cached = w.cached := by
  have hid : (w.put p ⟨some b', x'⟩).idOf = w.idOf := by
    funext q
    simp only [Lib.Conf.idOf, Lib.Conf.get_put hp]
    split_ifs with hq
    · simp only [IFromDB.core, Prod.mk.injEq] at hb
      simp [hq, hp, hb.1]
    · rfl
  funext k i
  simp only [Lib.Conf.cached, hid, Lib.Conf.cash_put]

/-- What a getter yields for a null pointer is cached under the id in the document. -/
theorem GotBy.cached_of_null {g : Getter} {this p : ℕ} (hw : Sound w) (h : GotBy w g this (some p) w')
    (hn : w.refOf this g.field = some .null) :
    ∃ b x i, w.heap.get this = some ⟨some b, x⟩ ∧ b.doc.get? g.key = some (.oid i) ∧ w'.cached g.kind i = some p := by
  cases h with
  | settled ho hv hs => simp [refOf_of_get ho, hv] at hn
  | loaded ho hn hv hl hp hc h₁ =>
    rename_i b x i o₁ o₂ w₁
    obtain rfl := Option.some.inj ((hl.get ho).symm.trans h₁)
    refine ⟨b, x, i, ho, hv, ?_⟩
    rw [Obj.setRef, cached_put h₁ rfl, hl.cached hw]

/-- A getter whose pointer is null takes the cached object with the id the document names. -/
theorem GotBy.of_cached {g : Getter} {this q : ℕ} {r : Option ℕ} {b : IFromDB} {x : Fields} {i : Oid} {o : Obj} (h : GotBy w g this r w')
    (ht : w.heap.get this = some ⟨some b, x⟩) (hn : x.ref g.field = some .null) (hd : b.doc.get? g.key = some (.oid i))
    (hc : w.cached g.kind i = some q) (hq : w.heap.get q = some o) (hwants : g.wants o.fields = true) :
    r = some q ∧ w' = w.put this (Obj.setRef ⟨some b, x⟩ g.field (.to q)) := by
  cases h with
  | settled ho hv =>
    obtain rfl := Option.some.inj (ht.symm.trans ho)
    simp [hn] at hv
  | absent ho _ hv hi =>
    obtain ⟨rfl, rfl⟩ : b = _ ∧ x = _ := by simpa using Obj.mk.inj (Option.some.inj (ht.symm.trans ho))
    obtain rfl := Option.some.inj (hd.symm.trans hv)
    cases hi
  | missed ho _ hv hl hr =>
    obtain ⟨rfl, rfl⟩ : b = _ ∧ x = _ := by simpa using Obj.mk.inj (Option.some.inj (ht.symm.trans ho))
    obtain rfl := Bson.oid.inj (Option.some.inj (hd.symm.trans hv))
    cases hl with
    | hit hc' =>
      obtain rfl := Option.some.inj (hc.symm.trans hc')
      obtain ⟨o', ho', hno⟩ := hr _ rfl
      obtain rfl := Option.some.inj (hq.symm.trans ho')
      rw [hwants] at hno
      cases hno
    | absent hc' | loaded hc' =>
      rw [hc] at hc'
      cases hc'
  | loaded ho _ hv hl hp _ h₁ =>
    obtain ⟨rfl, rfl⟩ : b = _ ∧ x = _ := by simpa using Obj.mk.inj (Option.some.inj (ht.symm.trans ho))
    obtain rfl := Bson.oid.inj (Option.some.inj (hd.symm.trans hv))
    cases hl with
    | hit hc' =>
      obtain rfl := Option.some.inj (hc.symm.trans hc')
      obtain rfl := Option.some.inj (ht.symm.trans h₁)
      exact ⟨rfl, rfl⟩
    | loaded hc' =>
      rw [hc] at hc'
      cases hc'

namespace Extends

theorem refl (hw : Sound w) : Extends S w w where
  env := rfl
  sound := hw
  other p b x _ hp := ⟨0, by rw [own_zero, hp]⟩
  same p b x hp := ⟨b, x, hp, rfl, rfl⟩
  cached _ _ _ h := h
  loaded k i p h h' := by simp [h] at h'

theorem stored (h : Extends S w w') : w'.stored = w.stored := by
  funext k o
  simp [Lib.Conf.stored, h.env]

theorem trans (h : Extends S w w₁) (h' : Extends S w₁ w') : Extends S w w' where
  env := h'.env.trans h.env
  sound := h'.sound
  other p b x hS hp := by
    obtain ⟨m, hm⟩ := h.other p b x hS hp
    obtain ⟨n, hn⟩ := h'.other p _ x hS hm
    exact ⟨m + n, by rw [hn, own_own]⟩
  same p b x hp := by
    obtain ⟨b₁, x₁, h₁, hc₁, hx₁⟩ := h.same p b x hp
    obtain ⟨b₂, x₂, h₂, hc₂, hx₂⟩ := h'.same p b₁ x₁ h₁
    exact ⟨b₂, x₂, h₂, hc₂.trans hc₁, hx₂.trans hx₁⟩
  cached k i p hc := h'.cached k i p (h.cached k i p hc)
  loaded k i p hn hc := by
    cases hc₁ : w₁.cached k i with
    | none =>
      obtain ⟨c, d, hne, hs, hd⟩ := h'.loaded k i p hc₁ hc
      exact ⟨c, d, hne, h.stored ▸ hs, hd⟩
    | some q =>
      obtain rfl := Option.some.inj ((h'.cached k i q hc₁).symm.trans hc)
      obtain ⟨c, d, hne, hs, hd, o, ho, hcls⟩ := h.loaded k i q hn hc₁
      obtain ⟨b, x, hq, -⟩ := h.sound.entry k q (Lib.Conf.cached_mem hc₁)
      obtain rfl := Option.some.inj (hq.symm.trans ho)
      obtain ⟨b', x', hq', -, hx'⟩ := h'.same q b x hq
      exact ⟨c, d, hne, hs, hd, _, hq', hx'.trans hcls⟩

theorem mono {S' : ℕ → Prop} (hS : ∀ p, S p → S' p) (h : Extends S w w') : Extends S' w w' :=
  { h with other := fun p b x hp => h.other p b x fun hs => hp (hS p hs) }

theorem alive (h : Extends S w w') {p : ℕ} (hp : w.Alive p) : w'.Alive p := by
  obtain ⟨b, x, hg, hb⟩ := hp
  obtain ⟨b', x', hg', hc, -⟩ := h.same p b x hg
  simp only [IFromDB.core, Prod.mk.injEq] at hc
  exact ⟨b', x', hg', hc.2.2.trans hb⟩

theorem idOf (h : Extends S w w') {p : ℕ} {i : Oid} (hp : w.idOf p = some i) : w'.idOf p = some i := by
  cases hg : w.heap.get p with
  | none => simp [Lib.Conf.idOf, hg] at hp
  | some o =>
    obtain ⟨_ | b, x⟩ := o
    · simp [Lib.Conf.idOf, hg] at hp
    · obtain ⟨b', x', hg', hc, -⟩ := h.same p b x hg
      simp only [IFromDB.core, Prod.mk.injEq] at hc
      rw [Lib.Conf.idOf_of_get hg, Option.some.injEq] at hp
      rw [Lib.Conf.idOf_of_get hg', hc.1, hp]

/-- An object is edited in place. -/
theorem put (hw : Sound w) {p : ℕ} {b b' : IFromDB} {x x' : Fields} (hp : w.heap.get p = some ⟨some b, x⟩)
    (hb : b'.core = b.core) (hx : x'.cls = x.cls) (hS : S p ∨ ∃ n, b' = b.own n ∧ x' = x) :
    Extends S w (w.put p ⟨some b', x'⟩) := by
  have hcore : b'.id = b.id ∧ b'.isExist = b.isExist := by
    simp only [IFromDB.core, Prod.mk.injEq] at hb
    exact ⟨hb.1, hb.2.2⟩
  have hget : ∀ q, (w.put p ⟨some b', x'⟩).heap.get q = if q = p then some ⟨some b', x'⟩ else w.heap.get q :=
    Lib.Conf.get_put hp
  have hcached : (w.put p ⟨some b', x'⟩).cached = w.cached := cached_put hp hb
  have hnew : (w.put p ⟨some b', x'⟩).heap.get p = some ⟨some b', x'⟩ := by rw [hget, if_pos rfl]
  refine ⟨rfl, (steady_put hp hcore.1 hcore.2 hx).sound hw, ?_, ?_, ?_, ?_⟩
  · intro q c y hq hc
    by_cases he : q = p
    · subst he
      obtain ⟨rfl, rfl⟩ : b = c ∧ x = y := by simpa [hp] using hc
      obtain ⟨n, rfl, rfl⟩ := hS.resolve_left hq
      exact ⟨n, hnew⟩
    · exact ⟨0, by rw [hget, if_neg he, own_zero, hc]⟩
  · intro q c y hc
    by_cases he : q = p
    · subst he
      obtain ⟨rfl, rfl⟩ : b = c ∧ x = y := by simpa [hp] using hc
      exact ⟨b', x', hnew, hb, hx⟩
    · exact ⟨c, y, by rw [hget, if_neg he, hc], rfl, rfl⟩
  · intro k i q hq
    rw [hcached, hq]
  · intro k i q hq hq'
    rw [hcached, hq] at hq'
    cases hq'

/-- An object is loaded. -/
theorem load (hw : Sound w) {k : Kind} {i : Oid} {c : DBClass} {d : Doc} {o : Obj} (hn : w.cached k i = none)
    (hs : w.stored k i = some d) (hk : c.kind = k) (hc : c ≠ .additionalInfoDB) (ho : c.ofDoc d = .ok o) :
    Extends S w (w.load k (o.own 1)) := by
  obtain ⟨x, j, hx, hj, rfl⟩ := ofDoc_eq_ok.mp ho
  obtain rfl : i = j := by
    have := (w.env.coll k).ids i d hs
    simpa [hj] using this.symm
  have hcls : x.cls = c := DBClass.cls_fields hx
  have hcached := cached_load hw (b := IFromDB.own 1 { doc := d, id := i }) x hn
  refine ⟨rfl, ?_, ?_, ?_, ?_, ?_⟩
  · exact hw.load (b := IFromDB.own 1 { doc := d, id := i }) rfl (by rw [← hk, ← hcls, Fields.kind_cls])
  · exact fun q b y _ hq => ⟨0, by rw [own_zero]; exact Lib.Heap.get_push_of_some _ hq⟩
  · exact fun q b y hq => ⟨b, y, Lib.Heap.get_push_of_some _ hq, rfl, rfl⟩
  · intro k' j q hq
    change (w.load k ⟨some (IFromDB.own 1 { doc := d, id := i }), x⟩).cached k' j = _
    rw [hcached, if_neg, hq]
    rintro ⟨rfl, rfl⟩
    simp [hn] at hq
  · intro k' j q hq hq'
    change (w.load k ⟨some (IFromDB.own 1 { doc := d, id := i }), x⟩).cached k' j = _ at hq'
    rw [hcached] at hq'
    split_ifs at hq' with h
    · obtain ⟨rfl, rfl⟩ := h
      obtain rfl := Option.some.inj hq'
      exact ⟨c, d, hc, hs, ⟨x, hx⟩, _, Lib.Heap.get_push_next _ _, hcls⟩
    · simp [hq] at hq'

theorem looked (hw : Sound w) {k : Kind} {i : Oid} {c? : Option DBClass} {r : Option ℕ} (h : Looked w k i c? r w')
    (hc : ∀ c, c? = some c → c.kind = k ∧ c ≠ .additionalInfoDB) : Extends S w w' := by
  cases h with
  | hit => exact refl hw
  | absent => exact refl hw
  | loaded hn hs hcl ho => exact load hw hn hs (hc _ hcl).1 (hc _ hcl).2 ho

end Extends

/-! ### The students of a group -/

/-- The cached students among some ids. -/
def Lib.Conf.cachedStudents (w : World) (ids : List Oid) : List ℕ :=
  ids.filterMap fun o => (w.cached .infos o).filter fun p => ((w.heap.get p).map (·.fields.isStudent)).getD false

theorem isStudent_of_cls {x y : Fields} (h : x.cls = y.cls) : x.isStudent = y.isStudent := by
  cases x <;> cases y <;> first | rfl | cases h

theorem cachedStudents_cons {i : Oid} {ids : List Oid} {p : ℕ} {o : Obj} (hc : w.cached .infos i = some p)
    (hp : w.heap.get p = some o) :
    w.cachedStudents (i :: ids) = if o.fields.isStudent then p :: w.cachedStudents ids else w.cachedStudents ids := by
  cases hs : o.fields.isStudent <;>
    simp [Lib.Conf.cachedStudents, hc, Option.filter, hp, hs]

/-- The loop of `getStudents` over members that are cached or stored as students. -/
theorem run_loadStudents_of {this : ℕ} {b : IFromDB} {g : Group} {ids : List Oid} (hw : Sound w)
    (hg : w.heap.get this = some ⟨some b, .group g⟩)
    (hids : ∀ i ∈ ids, w.cached .infos i = none →
      ∃ d o, w.stored .infos i = some d ∧ DBClass.studentInfoDB.ofDoc d = .ok o) :
    ∃ w', run (GroupDB.loadStudents this (ids.map .oid)) w = .ok ((), w') ∧ Extends (· = this) w w' ∧
      w'.heap.get this = some ⟨some b, .group { g with students := g.students ++ w'.cachedStudents ids }⟩ ∧
        ∀ i ∈ ids, w'.cached .infos i ≠ none := by
  induction ids generalizing w g with
  | nil => exact ⟨w, by simp [GroupDB.loadStudents], .refl hw, by simp [Lib.Conf.cachedStudents, hg], by simp⟩
  | cons i ids ih =>
    -- the member is looked up
    obtain ⟨p, w₁, hl⟩ : ∃ p w₁, Looked w .infos i (some .studentInfoDB) (some p) w₁ := by
      cases hc : w.cached .infos i with
      | some p => exact ⟨p, w, .hit hc⟩
      | none =>
        obtain ⟨d, o, hs, ho⟩ := hids i (by simp) hc
        exact ⟨_, _, .loaded hc hs rfl ho⟩
    have hext : Extends (· = this) w w₁ := .looked hw hl fun c hc => by
      obtain rfl := Option.some.inj hc
      simp [DBClass.kind]
    have hg₁ : w₁.heap.get this = some ⟨some b, .group g⟩ := hl.get hg
    have hin : w₁.cached .infos i = some p := hl.cached hw
    obtain ⟨c, y, hp, hb, -⟩ := hext.sound.entry _ _ (Lib.Conf.cached_mem hin)
    have hrest : ∀ {v : World}, Extends (· = this) w v → ∀ j ∈ ids, v.cached .infos j = none →
        ∃ d o, v.stored .infos j = some d ∧ DBClass.studentInfoDB.ofDoc d = .ok o := by
      intro v hv j hj hn
      rw [hv.stored]
      refine hids j (by simp [hj]) ?_
      cases hc : w.cached .infos j with
      | none => rfl
      | some q => simp [hv.cached _ _ _ hc] at hn
    have hfound : run (InfosController.getFromDB i .student) w = .ok (some p, w₁) :=
      (run_infosGetFromDB_iff (hw.live .infos)).mpr hl
    cases hs : y.isStudent with
    | false =>
      obtain ⟨w', hr, he, hg', hall⟩ := ih hext.sound hg₁ (hrest hext)
      refine ⟨w', run_loadStudents_cons_iff.mpr ⟨i, some p, w₁, rfl, hfound, .inl ⟨.inr ⟨p, _, rfl, hp, hs⟩, hr⟩⟩,
        hext.trans he, ?_, ?_⟩
      · obtain ⟨c', y', hp', -, hy'⟩ := he.same p c y hp
        rw [cachedStudents_cons (he.cached _ _ _ hin) hp', if_neg, hg']
        simp [isStudent_of_cls hy', hs]
      · simpa [he.cached _ _ _ hin] using hall
    | true =>
      have hput : Extends (· = this) w₁ (w₁.put this ⟨some b, .group { g with students := g.students ++ [p] }⟩) :=
        .put hext.sound hg₁ rfl rfl (.inl rfl)
      obtain ⟨w', hr, he, hg', hall⟩ := ih hput.sound (g := { g with students := g.students ++ [p] })
        (by rw [Lib.Conf.get_put hg₁, if_pos rfl]) (hrest (hext.trans hput))
      refine ⟨w', run_loadStudents_cons_iff.mpr ⟨i, some p, w₁, rfl, hfound, .inr ⟨p, c, y, rfl, hp, hs, .inr
        ⟨hb, some b, g, hg₁, hr⟩⟩⟩, hext.trans (hput.trans he), ?_, by simpa [(hput.trans he).cached _ _ _ hin] using hall⟩
      · obtain ⟨c', y', hp', -, hy'⟩ := (hput.trans he).same p c y hp
        rw [cachedStudents_cons ((hput.trans he).cached _ _ _ hin) hp', if_pos, hg']
        · simp
        · simp [isStudent_of_cls hy', hs]

/-- `getStudents` of a group whose members are cached or stored as students. -/
theorem run_getStudents_of {this : ℕ} {b : IFromDB} {g : Group} {v : Bson} (hw : Sound w)
    (hg : w.heap.get this = some ⟨some b, .group g⟩) (hv : b.doc.get? "Members" = some v)
    (hform : v = nullValue ∨ ∃ ids : List Oid, v = .array (ids.map .oid))
    (hids : ∀ i ∈ b.doc.members, w.cached .infos i = none →
      ∃ d o, w.stored .infos i = some d ∧ DBClass.studentInfoDB.ofDoc d = .ok o) :
    ∃ w', run (GroupDB.getStudents this) w = .ok (w'.cachedStudents b.doc.members, w') ∧ Extends (· = this) w w' ∧
      w'.heap.get this = some ⟨some b, .group { g with students := w'.cachedStudents b.doc.members }⟩ ∧
        ∀ i ∈ b.doc.members, w'.cached .infos i ≠ none := by
  have hput : Extends (· = this) w (w.put this ⟨some b, .group { g with students := [] }⟩) :=
    .put hw hg rfl rfl (.inl rfl)
  have hg₀ : (w.put this ⟨some b, .group { g with students := [] }⟩).heap.get this =
      some ⟨some b, .group { g with students := [] }⟩ := by rw [Lib.Conf.get_put hg, if_pos rfl]
  rcases hform with rfl | ⟨ids, rfl⟩
  · have hm : b.doc.members = [] := by simp [Doc.members, hv, nullValue]
    refine ⟨_, run_getStudents_iff.mpr ⟨b, g, _, hg, hv, .inr ⟨by simp [nullValue], rfl⟩, some b, _, hg₀, ?_⟩, hput, ?_,
      by simp [hm]⟩
    · simp [hm, Lib.Conf.cachedStudents]
    · rw [hg₀]
      simp [hm, Lib.Conf.cachedStudents]
  · have hm : b.doc.members = ids := by simp [Doc.members, hv, List.filterMap_map, Element.oid?, Function.comp_def]
    rw [hm] at hids ⊢
    obtain ⟨w', hr, he, hg', hall⟩ := run_loadStudents_of hput.sound hg₀ fun i hi hn => by
      rw [hput.stored]
      refine hids i hi ?_
      cases hc : w.cached .infos i with
      | none => rfl
      | some q => simp [hput.cached _ _ _ hc] at hn
    exact ⟨w', run_getStudents_iff.mpr ⟨b, g, _, hg, hv, .inl ⟨_, rfl, hr⟩, some b, _, hg', by simp⟩, hput.trans he,
      by simpa using hg', hall⟩

end Cbt
