import Mathlib.Data.List.Induction
import Cbt.Updates.Edits

/-! Sessions of edits. After a session each edited object still has its own
document; a reference that nothing set is null until its getter was called and
found the entity, and then it designates an object with the id the document
names. Edits of other objects do not change this. -/

namespace Cbt

open Lib.Command (run_bind_iff run_pure_iff run_fault_iff run_ofExcept_iff fault)

variable {w w₁ w' : World} {S S' : ℕ → Prop} {p : ℕ} {b : IFromDB} {x y : Fields} {es : List Edit} {n : ℤ}

@[simp] theorem touched_append (es es' : List Edit) : touched (es ++ es') = touched es ++ touched es' := by
  simp [touched]

@[simp] theorem touched_get (g : Getter) : touched [.get g] = [] := rfl
@[simp] theorem touched_getStudents : touched [.getStudents] = [] := rfl
@[simp] theorem touched_assign (s : Scalar) : touched [.assign s] = [s.key] := rfl
@[simp] theorem touched_setRef (f : RefField) (v : Option ℕ) : touched [.setRef f v] = [f.key] := rfl

/-- A getter of a reference was called that finds the id. -/
def Called (w : World) (p : ℕ) (f : RefField) (i : Oid) (es : List Edit) : Prop :=
  ∃ g : Getter, g.field = f ∧ .get g ∈ es ∧ g.Finds w p i

theorem called_append {f : RefField} {i : Oid} {e : Edit} :
    Called w p f i (es ++ [e]) ↔ Called w p f i es ∨ ∃ g : Getter, g.field = f ∧ e = .get g ∧ g.Finds w p i := by
  simp only [Called, List.mem_append, List.mem_singleton]
  constructor
  · rintro ⟨g, hf, hm | rfl, hg⟩
    · exact .inl ⟨g, hf, hm, hg⟩
    · exact .inr ⟨g, hf, rfl, hg⟩
  · rintro (⟨g, hf, hm, hg⟩ | ⟨g, hf, rfl, hg⟩)
    · exact ⟨g, hf, .inl hm, hg⟩
    · exact ⟨g, hf, .inr rfl, hg⟩

/-- The info of an account can be loaded, or none was loaded since. -/
def Settles (w w' : World) (p : ℕ) (f : RefField) : Prop :=
  f = .additionalInfo → (Getter.classOf .getAdditionalInfo w p).isSome ∨ w'.cached .infos = w.cached .infos

structure Edited (w w' : World) (p : ℕ) (b : IFromDB) (x : Fields) (es : List Edit) (n : ℤ) (y : Fields) : Prop where
  get : w'.heap.get p = some ⟨some (b.own n), y⟩
  cls : y.cls = x.cls
  type : ∀ a, x = .account a → ∃ a', y = .account a' ∧ a'.accountType = a.accountType
  own : ∀ key, key ∉ touched es → ∀ ref m, Doc.get? (y.written ref m) key = Doc.get? (x.written ref m) key
  ref : ∀ f v, y.ref f = some v → v = .null ∨ ∃ q, v = .to q ∧ w'.Alive q
  students : ∀ g, y = .group g → ∀ q ∈ g.students, w'.Alive q
  unset : ∀ f ∈ x.cls.refs, f.key ∉ touched es → b.doc.get? f.key = some nullValue → y.ref f = some .null
  found : ∀ f ∈ x.cls.refs, f.key ∉ touched es → ∀ i, b.doc.get? f.key = some (.oid i) → Settles w w' p f →
    (Called w p f i es → ∃ q, y.ref f = some (.to q) ∧ w'.idOf q = some i) ∧
      (¬ Called w p f i es → y.ref f = some .null)
  listed : ∀ g, y = .group g → if .getStudents ∈ es then
    g.students = w'.cachedStudents b.doc.members ∧ ∀ i ∈ b.doc.members, w'.cached .infos i ≠ none else g.students = []

theorem Fresh.ref_null (h : Fresh w p b x) {f : RefField} (hf : f ∈ x.cls.refs) : x.ref f = some .null := by
  rw [← h.bare, ref_bare hf, if_neg h.cls.1]

/-- An object that was built and not edited. -/
theorem Fresh.edited (h : Fresh w p b x) : Edited w w p b x [] 0 x where
  get := by rw [own_zero, h.get]
  cls := rfl
  type a ha := ⟨a, ha, rfl⟩
  own _ _ _ _ := rfl
  ref f v hv := by
    rw [h.ref_null (Fields.mem_refs.mpr ⟨v, hv⟩), Option.some.injEq] at hv
    exact .inl hv.symm
  students g hg q hq := by
    have := h.bare
    subst hg
    simp only [Fields.bare, Fields.group.injEq] at this
    rw [← this] at hq
    cases hq
  unset f hf _ _ := h.ref_null hf
  found f hf _ i _ _ := by
    refine ⟨?_, fun _ => h.ref_null hf⟩
    rintro ⟨g, -, hm, -⟩
    cases hm
  listed g hg := by
    have := h.bare
    subst hg
    simp only [Fields.bare, Fields.group.injEq] at this
    rw [← this]
    simp

/-! ### Edits of other objects -/

theorem Extends.cached_eq (h : Extends S w w₁) (h' : Extends S' w₁ w') {k : Kind} (he : w'.cached k = w.cached k) :
    w₁.cached k = w.cached k := by
  funext i
  cases hc : w.cached k i with
  | some q => exact h.cached _ _ _ hc
  | none =>
    cases hc₁ : w₁.cached k i with
    | none => rfl
    | some q =>
      have := h'.cached _ _ _ hc₁
      rw [he, hc] at this
      cases this

theorem Extends.cachedStudents (h : Extends S w w') (hw : Sound w) {ids : List Oid}
    (hids : ∀ i ∈ ids, w.cached .infos i ≠ none) : w'.cachedStudents ids = w.cachedStudents ids := by
  induction ids with
  | nil => rfl
  | cons i ids ih =>
    obtain ⟨q, hq⟩ := Option.ne_none_iff_exists'.mp (hids i (by simp))
    obtain ⟨b, y, hg, -⟩ := hw.entry _ _ (Lib.Conf.cached_mem hq)
    obtain ⟨b', y', hg', -, hy⟩ := h.same _ _ _ hg
    rw [cachedStudents_cons hq hg, cachedStudents_cons (h.cached _ _ _ hq) hg', ih fun j hj => hids j (by simp [hj]),
      isStudent_of_cls hy]

/-- What is not edited stays as edited as it was. -/
theorem Edited.extend (h : Edited w w₁ p b x es n y) (he : Extends S w w₁) (he' : Extends S' w₁ w') (hp : ¬ S' p) :
    ∃ n', Edited w w' p b x es n' y := by
  obtain ⟨m, hm⟩ := he'.other p _ y hp h.get
  refine ⟨n + m, ⟨by rw [hm, own_own], h.cls, h.type, h.own, ?_, ?_, h.unset, ?_, ?_⟩⟩
  · intro f v hv
    rcases h.ref f v hv with rfl | ⟨q, rfl, hq⟩
    · exact .inl rfl
    · exact .inr ⟨q, rfl, he'.alive hq⟩
  · exact fun g hg q hq => he'.alive (h.students g hg q hq)
  · intro f hf hkey i hi hset
    obtain ⟨hyes, hno⟩ := h.found f hf hkey i hi fun ha => (hset ha).imp_right fun heq => he.cached_eq he' heq
    refine ⟨fun hc => ?_, hno⟩
    obtain ⟨q, hq, hid⟩ := hyes hc
    exact ⟨q, hq, he'.idOf hid⟩
  · intro g hg
    have := h.listed g hg
    split_ifs at this ⊢
    · obtain ⟨hs, hall⟩ := this
      refine ⟨by rw [hs, he'.cachedStudents he.sound hall], fun i hi => ?_⟩
      obtain ⟨q, hq⟩ := Option.ne_none_iff_exists'.mp (hall i hi)
      simp [he'.cached _ _ _ hq]
    · exact this

/-! ### Edits of the object itself -/

/-- A getter that leaves the pointer as it is. -/
theorem Edited.keep (h : Edited w w' p b x es n y) {g : Getter}
    (hk : y.ref g.field ≠ some .null ∨ b.doc.get? g.field.key = some nullValue ∨
      ∃ i, b.doc.get? g.field.key = some (.oid i) ∧ ¬ g.Finds w p i) : Edited w w' p b x (es ++ [.get g]) n y where
  get := h.get
  cls := h.cls
  type := h.type
  own key hkey := h.own key (by simpa using hkey)
  ref := h.ref
  students := h.students
  unset f hf hkey := h.unset f hf (by simpa using hkey)
  found f hf hkey i hi hset := by
    obtain ⟨hyes, hno⟩ := h.found f hf (by simpa using hkey) i hi hset
    refine ⟨fun hc => ?_, fun hc => hno fun hc' => hc (called_append.mpr (.inl hc'))⟩
    rcases called_append.mp hc with hc | ⟨g', rfl, he, hfind⟩
    · exact hyes hc
    obtain rfl : g = g' := by simpa using he
    -- the pointer is not null, so an earlier call had found the entity
    by_cases hc' : Called w p g.field i es
    · exact hyes hc'
    · rcases hk with hk | hk | ⟨j, hj, hk⟩
      · exact absurd (hno hc') hk
      · rw [hi] at hk
        cases hk
      · rw [hi, Option.some.injEq, Bson.oid.injEq] at hj
        exact absurd (hj ▸ hfind) hk
  listed gr hg := by simpa using h.listed gr hg

/-- An assignment to the object itself, in the facts that do not depend on which it was. -/
theorem Edited.put (h : Edited w w₁ p b x es n y) (hw : Sound w₁) {y' : Fields} (hy : y'.cls = y.cls) :
    Extends (· = p) w₁ (w₁.put p ⟨some (b.own n), y'⟩) ∧
      (w₁.put p ⟨some (b.own n), y'⟩).heap.get p = some ⟨some (b.own n), y'⟩ :=
  ⟨.put hw h.get rfl hy (.inl rfl), by rw [Lib.Conf.get_put h.get, if_pos rfl]⟩

theorem accountType_setRef {a : Account} (f : RefField) (v : Pointer) :
    ∃ a', (Fields.account a).setRef f v = .account a' ∧ a'.accountType = a.accountType := by
  cases f <;> exact ⟨_, rfl, rfl⟩

/-- A pointer is assigned by a setter, or by a getter that found the entity. -/
theorem Edited.assign (h : Edited w w₁ p b x es n y) (hE : Extends S w w₁) {e : Edit} {f : RefField} {v : Pointer}
    (hf : f ∈ x.cls.refs) (hv : v = .null ∨ ∃ q, v = .to q ∧ w₁.Alive q) (he : e ≠ .getStudents)
    (hcase : e.key? = some f.key ∨ ∃ g : Getter, e = .get g ∧ g.field = f ∧ ∃ i q, v = .to q ∧
      b.doc.get? f.key = some (.oid i) ∧ w₁.idOf q = some i ∧ (Settles w w₁ p f → g.Finds w p i)) :
    Edited w (w₁.put p ⟨some (b.own n), y.setRef f v⟩) p b x (es ++ [e]) n (y.setRef f v) := by
  obtain ⟨hext, hget⟩ := h.put hE.sound (Fields.cls_setRef y f v)
  obtain ⟨u, hu⟩ : ∃ u, y.ref f = some u := Fields.mem_refs.mp (h.cls ▸ hf)
  have hsub : ∀ {key}, key ∉ touched (es ++ [e]) → key ∉ touched es := fun hkey hm => hkey (by simp [hm])
  have hcalled : ∀ {f' i}, f' ≠ f → (Called w p f' i (es ++ [e]) ↔ Called w p f' i es) := by
    intro f' i hne
    rw [called_append, or_iff_left]
    rintro ⟨g, rfl, rfl, -⟩
    rcases hcase with hk | ⟨g', he', hg', -⟩
    · cases hk
    · obtain rfl : g = g' := by simpa using he'
      exact hne hg'
  refine ⟨hget, (Fields.cls_setRef y f v).trans h.cls, ?_, ?_, ?_, ?_, ?_, ?_, ?_⟩
  · intro a ha
    obtain ⟨a', rfl, ht⟩ := h.type a ha
    obtain ⟨a₁, h₁, ht₁⟩ := accountType_setRef (a := a') f v
    exact ⟨a₁, h₁, ht₁.trans ht⟩
  · intro key hkey ref m
    rw [written_setRef, h.own key (hsub hkey)]
  · intro f' v' hv'
    by_cases hff : f' = f
    · subst hff
      rw [Fields.ref_setRef hu, Option.some.injEq] at hv'
      subst hv'
      rcases hv with rfl | ⟨q, rfl, hq⟩
      · exact .inl rfl
      · exact .inr ⟨q, rfl, hext.alive hq⟩
    · rw [Fields.ref_setRef_of_ne hff] at hv'
      rcases h.ref f' v' hv' with rfl | ⟨q, rfl, hq⟩
      · exact .inl rfl
      · exact .inr ⟨q, rfl, hext.alive hq⟩
  · intro g hg q hq
    obtain ⟨g', rfl, hs⟩ := students_setRef hg
    exact hext.alive (h.students g' rfl q (hs ▸ hq))
  · intro f' hf' hkey hd
    by_cases hff : f' = f
    · subst hff
      rcases hcase with hk | ⟨-, -, -, i, q, -, hi, -⟩
      · exact absurd (by simp [touched, hk]) hkey
      · rw [hd] at hi
        cases hi
    · rw [Fields.ref_setRef_of_ne hff]
      exact h.unset f' hf' (hsub hkey) hd
  · intro f' hf' hkey i hi hset
    have hset₁ : Settles w w₁ p f' := fun ha => (hset ha).imp_right fun heq => hE.cached_eq hext heq
    by_cases hff : f' = f
    · subst hff
      rcases hcase with hk | ⟨g, rfl, hg, j, q, rfl, hj, hid, hfind⟩
      · exact absurd (by simp [touched, hk]) hkey
      obtain rfl : j = i := by simpa [hi] using hj.symm
      refine ⟨fun _ => ⟨q, Fields.ref_setRef hu _, hext.idOf hid⟩, fun hc => ?_⟩
      exact absurd (called_append.mpr (.inr ⟨g, hg, rfl, hfind hset₁⟩)) hc
    · rw [Fields.ref_setRef_of_ne hff, hcalled hff]
      obtain ⟨hyes, hno⟩ := h.found f' hf' (hsub hkey) i hi hset₁
      refine ⟨fun hc => ?_, hno⟩
      obtain ⟨q, hq, hid⟩ := hyes hc
      exact ⟨q, hq, hext.idOf hid⟩
  · intro g hg
    obtain ⟨g', rfl, hs⟩ := students_setRef hg
    have := h.listed g' rfl
    have hmem : Edit.getStudents ∈ es ++ [e] ↔ Edit.getStudents ∈ es := by
      simp [he.symm]
    rw [hs]
    simp only [hmem]
    split_ifs at this ⊢
    · obtain ⟨hst, hall⟩ := this
      refine ⟨by rw [hst, hext.cachedStudents hE.sound hall], fun i hi => ?_⟩
      obtain ⟨q, hq⟩ := Option.ne_none_iff_exists'.mp (hall i hi)
      simp [hext.cached _ _ _ hq]
    · exact this

namespace Scalar

variable {s : Scalar} {y' : Fields}

theorem cls_set (h : s.set y = some y') : y'.cls = y.cls := by
  cases s <;> cases y <;> cases h <;> rfl

theorem ref_set (h : s.set y = some y') (f : RefField) : y'.ref f = y.ref f := by
  cases s <;> cases y <;> cases h <;> cases f <;> rfl

theorem type_set {a : Account} (h : s.set (.account a) = some y') :
    ∃ a', y' = .account a' ∧ a'.accountType = a.accountType := by
  cases s <;> cases h
  all_goals exact ⟨_, rfl, rfl⟩

theorem students_set {g : Group} (h : s.set y = some (.group g)) : ∃ g', y = .group g' ∧ g.students = g'.students := by
  cases s <;> cases y <;> cases h
  exact ⟨_, rfl, rfl⟩

/-- An assignment changes what is written under its own key only. -/
theorem written_set (h : s.set y = some y') {k : String} (hk : k ≠ s.key) (ref : RefField → Bson) (m : Bson) :
    Doc.get? (y'.written ref m) k = Doc.get? (y.written ref m) k := by
  have hk' : ¬ s.key = k := fun he => hk he.symm
  cases s <;> cases y <;> cases h <;> simp only [key] at hk' <;> simp only [Fields.written] <;>
    (repeat' first | rfl | exact fun _ => rfl | exact fun hk => absurd hk hk' | refine Doc.get?_cons_congr ?_ ?_)

end Scalar

/-- A scalar member is assigned. -/
theorem Edited.assignScalar (h : Edited w w₁ p b x es n y) (hE : Extends S w w₁) {s : Scalar} {y' : Fields}
    (hs : s.set y = some y') : Edited w (w₁.put p ⟨some (b.own n), y'⟩) p b x (es ++ [.assign s]) n y' := by
  obtain ⟨hext, hget⟩ := h.put hE.sound (Scalar.cls_set hs)
  have hsub : ∀ {key}, key ∉ touched (es ++ [.assign s]) → key ∉ touched es := fun hkey hm => hkey (by simp [hm])
  refine ⟨hget, (Scalar.cls_set hs).trans h.cls, ?_, ?_, ?_, ?_, ?_, ?_, ?_⟩
  · intro a ha
    obtain ⟨a', rfl, ht⟩ := h.type a ha
    obtain ⟨a₁, h₁, ht₁⟩ := Scalar.type_set hs
    exact ⟨a₁, h₁, ht₁.trans ht⟩
  · intro key hkey ref m
    have hk : key ≠ s.key := fun he => hkey (by simp [he])
    rw [Scalar.written_set hs hk, h.own key (hsub hkey)]
  · intro f v hv
    rw [Scalar.ref_set hs] at hv
    rcases h.ref f v hv with rfl | ⟨q, rfl, hq⟩
    · exact .inl rfl
    · exact .inr ⟨q, rfl, hext.alive hq⟩
  · intro g hg q hq
    obtain ⟨g', rfl, hst⟩ := Scalar.students_set (hg ▸ hs)
    exact hext.alive (h.students g' rfl q (hst ▸ hq))
  · intro f hf hkey hd
    rw [Scalar.ref_set hs]
    exact h.unset f hf (hsub hkey) hd
  · intro f hf hkey i hi hset
    rw [Scalar.ref_set hs, called_append, or_iff_left (by simp)]
    obtain ⟨hyes, hno⟩ := h.found f hf (hsub hkey) i hi fun ha => (hset ha).imp_right fun heq => hE.cached_eq hext heq
    refine ⟨fun hc => ?_, hno⟩
    obtain ⟨q, hq, hid⟩ := hyes hc
    exact ⟨q, hq, hext.idOf hid⟩
  · intro g hg
    obtain ⟨g', rfl, hst⟩ := Scalar.students_set (hg ▸ hs)
    have := h.listed g' rfl
    have hmem : Edit.getStudents ∈ es ++ [.assign s] ↔ Edit.getStudents ∈ es := by simp
    rw [hst]
    simp only [hmem]
    split_ifs at this ⊢
    · obtain ⟨hl, hall⟩ := this
      refine ⟨by rw [hl, hext.cachedStudents hE.sound hall], fun i hi => ?_⟩
      obtain ⟨q, hq⟩ := Option.ne_none_iff_exists'.mp (hall i hi)
      simp [hext.cached _ _ _ hq]
    · exact this

theorem mem_cachedStudents {ids : List Oid} {q : ℕ} (h : q ∈ w.cachedStudents ids) : ∃ i ∈ ids, w.cached .infos i = some q := by
  obtain ⟨i, hi, hq⟩ := List.mem_filterMap.mp h
  exact ⟨i, hi, (Option.filter_eq_some_iff.mp hq).1⟩

theorem ref_students (g : Group) (l : List ℕ) (f : RefField) :
    (Fields.group { g with students := l }).ref f = (Fields.group g).ref f := by cases f <;> rfl

/-- The students of a group are listed. -/
theorem Edited.list {g : Group} (h : Edited w w₁ p b x es n (.group g)) (hE : Extends S w w₁)
    (hext : Extends (· = p) w₁ w')
    (hget : w'.heap.get p = some ⟨some (b.own n), .group { g with students := w'.cachedStudents b.doc.members }⟩)
    (hall : ∀ i ∈ b.doc.members, w'.cached .infos i ≠ none) :
    Edited w w' p b x (es ++ [.getStudents]) n (.group { g with students := w'.cachedStudents b.doc.members }) := by
  have hsub : ∀ {key}, key ∉ touched (es ++ [.getStudents]) → key ∉ touched es := fun hkey hm => hkey (by simp [hm])
  refine ⟨hget, h.cls, ?_, ?_, ?_, ?_, ?_, ?_, ?_⟩
  · intro a ha
    obtain ⟨a', ha', -⟩ := h.type a ha
    cases ha'
  · exact fun key hkey ref m => h.own key (hsub hkey) ref m
  · intro f v hv
    rw [ref_students] at hv
    rcases h.ref f v hv with rfl | ⟨q, rfl, hq⟩
    · exact .inl rfl
    · exact .inr ⟨q, rfl, hext.alive hq⟩
  · intro g' hg' q hq
    obtain rfl : _ = g' := by simpa using hg'
    obtain ⟨i, -, hc⟩ := mem_cachedStudents hq
    exact hext.sound.live _ q (Lib.Conf.cached_mem hc)
  · intro f hf hkey hd
    rw [ref_students]
    exact h.unset f hf (hsub hkey) hd
  · intro f hf hkey i hi hset
    rw [ref_students, called_append, or_iff_left (by simp)]
    obtain ⟨hyes, hno⟩ := h.found f hf (hsub hkey) i hi fun ha => (hset ha).imp_right fun heq => hE.cached_eq hext heq
    refine ⟨fun hc => ?_, hno⟩
    obtain ⟨q, hq, hid⟩ := hyes hc
    exact ⟨q, hq, hext.idOf hid⟩
  · intro g' hg'
    obtain rfl : _ = g' := by simpa using hg'
    simpa using hall

/-! ### One edit -/

/-- An edit that an object of a class may be asked for; a setter is given an object that exists. -/
def Edit.Fits (w : World) (x : Fields) : Edit → Prop
  | .get g => g.field ∈ x.cls.refs
  | .getStudents => x.cls = .groupDB
  | .assign s => (s.set x).isSome
  | .setRef f v => f ∈ x.cls.refs ∧
      ∀ q, v = some q → ∃ c z, w.heap.get q = some ⟨some c, z⟩ ∧ c.isExist = true ∧ f.admits z = true

theorem Scalar.isSome_set {s : Scalar} (h : y.cls = x.cls) : (s.set y).isSome = (s.set x).isSome := by
  cases x <;> cases y <;> first | (cases h; done) | (cases s <;> rfl)

theorem Edited.classOf (h : Edited w w₁ p b x es n y) (hF : Fresh w p b x) {g : Getter} (hg : g.field ∈ x.cls.refs) :
    g.classOf w₁ p = g.classOf w p := by
  cases g with
  | getAdditionalInfo =>
    obtain ⟨a, rfl⟩ : ∃ a, x = .account a := by
      cases x <;> simp [Getter.field, Fields.cls, DBClass.refs] at hg
      exact ⟨_, rfl⟩
    obtain ⟨a', rfl, ht⟩ := h.type a rfl
    rw [Getter.classOf_account h.get, Getter.classOf_account hF.get, ht]
  | _ => rfl

theorem RefField.admits_of_cls {f : RefField} (h : x.cls = y.cls) : f.admits x = f.admits y := by
  cases x <;> cases y <;> first | (cases h; done) | (cases f <;> rfl)

/-- A getter of an edited object returns. -/
theorem Edited.step_get (hw : Sound w) (hF : Fresh w p b x) (hE : Extends S w w₁) (h : Edited w w₁ p b x es n y)
    {g : Getter} (hg : g.field ∈ x.cls.refs) : ∃ r w', run (g.call p) w₁ = .ok (r, w') ∧ Extends (· = p) w₁ w' ∧
      (∃ n' y', Edited w w' p b x (es ++ [.get g]) n' y') ∧
      (g.classOf w p = none → w'.cached .infos = w₁.cached .infos) := by
  have hgy : g.field ∈ y.cls.refs := h.cls ▸ hg
  have hkey : g.field.key = g.key := by
    refine Getter.field_key ?_
    rintro rfl
    have := hF.cls.1
    cases x <;> simp_all [Getter.field, Fields.cls, DBClass.refs, Fields.kind]
  have hrun {r : Option ℕ} {w' : World} (hgot : GotBy w₁ g p r w') : run (g.call p) w₁ = .ok (r, w') :=
    (run_getter_iff hE.sound h.get hgy).mpr hgot
  obtain ⟨v, hv⟩ := Fields.mem_refs.mp hgy
  rcases h.ref _ v hv with rfl | ⟨q, rfl, hq⟩
  · rcases hF.ref _ hg with hd | ⟨i, c, hd, hname, hent⟩
    · -- the document names nothing
      exact ⟨_, _, hrun (.absent h.get hv (hkey ▸ hd) rfl), .refl hE.sound, ⟨_, _, h.keep (.inr (.inl hd))⟩, fun _ => rfl⟩
    · obtain ⟨r, w₂, hl, hr⟩ := hF.look hw hE hg hd (h.classOf hF hg)
      have hext : Extends (fun _ => False) w₁ w₂ := .looked hE.sound hl fun c' hc' => by
        rw [h.classOf hF hg] at hc'
        obtain rfl := hF.classOf hg hname hc'
        exact ⟨hname.kind.1.trans g.field_kind, hname.kind.2⟩
      have hext' {S' : ℕ → Prop} : Extends S' w₁ w₂ := hext.mono fun _ hf => hf.elim
      have hcached : g.classOf w p = none → w₂.cached .infos = w₁.cached .infos := by
        intro hno
        cases hl with
        | hit | absent => rfl
        | loaded hn hs hcl => simp [h.classOf hF hg, hno] at hcl
      obtain ⟨n', h'⟩ := h.extend hE hext fun hp => hp
      rcases hr with ⟨q, o, rfl, ho, hwants, hid, hfind⟩ | ⟨hno, hfind⟩
      · have hga : w₂.heap.get p = some ⟨some (b.own n'), y⟩ := h'.get
        refine ⟨_, _, hrun (.loaded h.get hv (hkey ▸ hd) hl ho hwants hga), ?_, ?_, fun hc => ?_⟩
        · exact hext'.trans (.put hext.sound hga rfl (Fields.cls_setRef y _ _) (.inl rfl))
        · refine ⟨n', _, h'.assign (hE.trans hext') hg (.inr ⟨q, rfl, hl.alive hE.sound rfl⟩) (by simp) (.inr
            ⟨g, rfl, rfl, i, q, rfl, hd, hid, fun hset => hfind fun ha => ?_⟩)⟩
          rcases hset ha with hs | hs
          · have : g = .getAdditionalInfo := by cases g <;> first | rfl | cases ha
            exact .inl (this ▸ hs)
          · exact .inr (hE.cached_eq hext hs)
        · exact (congrFun (cached_put hga rfl) _).trans (hcached hc)
      · exact ⟨_, _, hrun (.missed h.get hv (hkey ▸ hd) hl hno), hext', ⟨n', y, h'.keep (.inr (.inr ⟨i, hd, hfind⟩))⟩, hcached⟩
  · obtain ⟨c, z, hz, hc⟩ := hq
    exact ⟨_, _, hrun (.settled h.get hv (.held hz hc)), .refl hE.sound, ⟨_, _, h.keep (.inl (by simp [hv]))⟩, fun _ => rfl⟩

/-- A setter of an edited object returns. -/
theorem Edited.step_setRef (hE : Extends S w w₁) (h : Edited w w₁ p b x es n y) {f : RefField} {v : Option ℕ}
    (he : (Edit.setRef f v).Fits w x) : ∃ w', run (setRef f p v) w₁ = .ok ((), w') ∧ Extends (· = p) w₁ w' ∧
      (∃ n' y', Edited w w' p b x (es ++ [.setRef f v]) n' y') ∧ w'.cached = w₁.cached := by
  obtain ⟨hf, hv⟩ := he
  obtain ⟨u, hu⟩ := Fields.mem_refs.mp (h.cls ▸ hf)
  cases v with
  | none =>
    have hput := h.put hE.sound (Fields.cls_setRef y f .null)
    exact ⟨_, run_setRef_none_iff.mpr ⟨_, u, h.get, hu, rfl⟩, hput.1,
      ⟨n, _, h.assign hE hf (.inl rfl) (by simp) (.inl rfl)⟩, cached_put h.get rfl⟩
  | some q =>
    obtain ⟨c, z, hq, hc, hadm⟩ := hv q rfl
    obtain ⟨c', z', hq', hcore, hz⟩ := hE.same q c z hq
    have hadm' : f.admits z' = true := by rw [RefField.admits_of_cls hz, hadm]
    have hc' : c'.isExist = true := by
      simp only [IFromDB.core, Prod.mk.injEq] at hcore
      exact hcore.2.2.trans hc
    have hqp : q ≠ p := by
      rintro rfl
      obtain ⟨-, rfl⟩ : b.own n = c' ∧ y = z' := by simpa [h.get] using hq'
      rw [not_admits_self (h.cls ▸ hf)] at hadm'
      cases hadm'
    have hedit := h.assign hE hf (.inr ⟨q, rfl, c', z', hq', hc'⟩) (by simp) (.inl rfl) (e := .setRef f (some q))
    have hput := h.put hE.sound (Fields.cls_setRef y f (.to q))
    have hq₂ : (w₁.put p ⟨some (b.own n), y.setRef f (.to q)⟩).heap.get q = some ⟨some c', z'⟩ := by
      rw [Lib.Conf.get_put h.get, if_neg hqp, hq']
    have hown : Extends (fun _ => False) (w₁.put p ⟨some (b.own n), y.setRef f (.to q)⟩)
        ((w₁.put p ⟨some (b.own n), y.setRef f (.to q)⟩).put q ⟨some (c'.own 1), z'⟩) :=
      .put hput.1.sound hq₂ rfl rfl (.inr ⟨1, rfl, rfl⟩)
    obtain ⟨n', h'⟩ := hedit.extend (S := fun r => S r ∨ r = p)
      ((hE.mono fun _ => .inl).trans (hput.1.mono fun _ => .inr)) hown fun hp => hp
    refine ⟨_, ?_, hput.1.trans (hown.mono fun _ hf => hf.elim), ⟨n', _, h'⟩, ?_⟩
    · exact run_setRef_some_iff.mpr ⟨_, u, _, c', z', h.get, hu, hq', hadm', hq₂, rfl⟩
    · exact (cached_put hq₂ (IFromDB.core_own c' 1)).trans (cached_put h.get rfl)

/-- Every edit of an object returns, and leaves the object edited and the others as they were. -/
theorem Edited.step (hw : Sound w) (hF : Fresh w p b x) (hE : Extends S w w₁) (h : Edited w w₁ p b x es n y) {e : Edit}
    (he : e.Fits w x) : ∃ w', run (e.cmd p) w₁ = .ok ((), w') ∧ Extends (· = p) w₁ w' ∧
      (∃ n' y', Edited w w' p b x (es ++ [e]) n' y') ∧
      (x.cls = .accountDB → Getter.classOf .getAdditionalInfo w p = none → w'.cached .infos = w₁.cached .infos) := by
  cases e with
  | get g =>
    obtain ⟨r, w', hr, hext, hed, hc⟩ := h.step_get hw hF hE he
    refine ⟨w', ?_, hext, hed, fun hx hno => ?_⟩
    · simp only [Edit.cmd, run_bind_iff, run_pure_iff]
      exact ⟨r, w', hr, trivial, rfl⟩
    · have hg : g = .getAdditionalInfo := by
        have he : g.field ∈ x.cls.refs := he
        rw [hx] at he
        cases g <;> simp [DBClass.refs, Getter.field] at he
        rfl
      exact hc (hg ▸ hno)
  | getStudents =>
    obtain ⟨g, rfl⟩ : ∃ g, y = .group g := by
      have hy : y.cls = .groupDB := h.cls.trans he
      cases y <;> first | exact ⟨_, rfl⟩ | cases hy
    obtain ⟨v, hv, hform, hent⟩ := hF.members he
    obtain ⟨w', hr, hext, hget, hall⟩ := run_getStudents_of (b := b.own n) hE.sound h.get hv hform fun i hi hn => by
      obtain ⟨d, hs, -⟩ := id (hent i hi)
      obtain ⟨o, ho, -⟩ := (hent i hi).ofDoc hs
      exact ⟨d, o, hE.stored ▸ hs, ho⟩
    refine ⟨w', ?_, hext, ⟨n, _, h.list hE hext hget hall⟩, fun hx => ?_⟩
    · simp only [Edit.cmd, run_bind_iff, run_pure_iff]
      exact ⟨_, w', hr, trivial, rfl⟩
    · rw [show x.cls = .groupDB from he] at hx
      cases hx
  | assign s =>
    obtain ⟨y', hs⟩ : ∃ y', s.set y = some y' := Option.isSome_iff_exists.mp (by rw [Scalar.isSome_set h.cls]; exact he)
    refine ⟨_, ?_, (h.put hE.sound (Scalar.cls_set hs)).1, ⟨n, y', h.assignScalar hE hs⟩, fun _ _ => ?_⟩
    · simp only [Edit.cmd, Cbt.assignScalar, run_bind_iff, run_obj_iff]
      refine ⟨_, w₁, ⟨h.get, rfl⟩, ?_⟩
      simp only [hs, run_setObj_iff]
    · exact congrFun (cached_put h.get rfl) _
  | setRef f v =>
    obtain ⟨w', hr, hext, hed, hc⟩ := h.step_setRef hE he
    exact ⟨w', hr, hext, hed, fun _ _ => congrFun hc _⟩

/-! ### Sessions -/

/-- The edits of one object in a session. -/
def editsOf (p : ℕ) (es : List (ℕ × Edit)) : List Edit := (es.filter (·.1 = p)).map (·.2)

theorem run_edits_append {es es' : List (ℕ × Edit)} {u : Unit} :
    run (edits (es ++ es')) w = .ok (u, w') ↔ ∃ w₁, run (edits es) w = .ok ((), w₁) ∧ run (edits es') w₁ = .ok (u, w') := by
  induction es generalizing w with
  | nil => simp [edits]
  | cons e es ih =>
    simp only [List.cons_append, edits, run_bind_iff, ih]
    constructor
    · rintro ⟨u, w₁, h₁, w₂, h₂, h₃⟩
      exact ⟨w₂, ⟨u, w₁, h₁, h₂⟩, h₃⟩
    · rintro ⟨w₂, ⟨u, w₁, h₁, h₂⟩, h₃⟩
      exact ⟨u, w₁, h₁, w₂, h₂, h₃⟩

/-- A session on fresh objects returns, and leaves each of them edited. -/
theorem run_edits (hw : Sound w) {P : ℕ → IFromDB → Fields → Prop} (hP : ∀ p b x, P p b x → Fresh w p b x)
    {es : List (ℕ × Edit)} (hes : ∀ p e, (p, e) ∈ es → ∃ b x, P p b x ∧ e.Fits w x) :
    ∃ w', run (edits es) w = .ok ((), w') ∧ Extends (fun p => ∃ b x, P p b x) w w' ∧
      (∀ p b x, P p b x → ∃ n y, Edited w w' p b x (editsOf p es) n y) ∧
      ((∀ p b x, P p b x → x.cls = .accountDB ∧ Getter.classOf .getAdditionalInfo w p = none) →
        w'.cached .infos = w.cached .infos) := by
  induction es using List.reverseRecOn with
  | nil => exact ⟨w, by simp [edits], .refl hw, fun p b x hp => ⟨0, x, (hP p b x hp).edited⟩, fun _ => rfl⟩
  | append_singleton es e ih =>
    obtain ⟨q, e⟩ := e
    obtain ⟨w₁, hr, hE, hed, hc⟩ := ih fun p e he => hes p e (by simp [he])
    obtain ⟨c, z, hz, hfit⟩ := hes q e (by simp)
    obtain ⟨n, y, hq⟩ := hed q c z hz
    obtain ⟨w', hr', hext, ⟨n', y', hq'⟩, hc'⟩ := hq.step hw (hP q c z hz) hE hfit
    have hP' : ∀ p, p = q → ∃ b x, P p b x := fun p hp => hp ▸ ⟨c, z, hz⟩
    refine ⟨w', run_edits_append.mpr ⟨w₁, hr, by simp [edits, hr']⟩, hE.trans (hext.mono hP'),
      fun p b x hp => ?_, fun hall => ?_⟩
    · by_cases hpq : p = q
      · subst hpq
        obtain ⟨rfl, rfl⟩ : c = b ∧ z = x := by simpa [(hP _ _ _ hz).get] using (hP _ _ _ hp).get
        exact ⟨n', y', by simpa [editsOf] using hq'⟩
      · obtain ⟨m, y, hp'⟩ := hed p b x hp
        obtain ⟨m', hp''⟩ := hp'.extend hE hext hpq
        exact ⟨m', y, by simpa [editsOf, Ne.symm hpq] using hp''⟩
    · rw [hc' (hall q c z hz).1 (hall q c z hz).2, hc hall]

end Cbt
