import Cbt.Codec.Shape
import Cbt.Caches.Counts

/-! Pointers and the documents behind them. In a traced world every object that
exists holds the stored document and is the only one with its id, unless it is an
account that somebody logged in to when it was cached already; no pointer of such
an object designates a destroyed one, and a pointer to an object that no longer
exists stands for no stored document. Every small step that keeps the world
traced says under which condition it does. -/

namespace Cbt

/-- There is an object that exists at an address. -/
def Lib.Conf.Has (w : World) (p : ℕ) (b : IFromDB) (x : Fields) : Prop :=
  w.heap.get p = some ⟨some b, x⟩ ∧ b.isExist = true

/-- At most one object that exists stands for an account. -/
def Lib.Conf.Untwinned (w : World) (i : Oid) : Prop :=
  ∀ p q b x b' x', w.Has p b x → w.Has q b' x' → x.kind = .accounts → x'.kind = .accounts → b.id = i → b'.id = i → p = q

/-- No stored document is named under the key of a member by an object's own document. -/
def Lib.Conf.Unnamed (w : World) (p : ℕ) (f : RefField) : Prop :=
  ∀ i, w.docRef p f.key = some i → w.stored f.kind i = none

/-- The stored documents have the shape of their collections and name older documents, and curators are teachers. -/
structure Formed (w : World) : Prop where
  shape : ∀ k o d, w.stored k o = some d → k.Shaped d
  older : ∀ k o d key i, w.stored k o = some d → d.get? key = some (.oid i) → i < w.env.nextOid
  curator : ∀ o d i d', w.stored .groups o = some d → d.get? "Curator" = some (.oid i) →
    w.stored .infos i = some d' → d'.IsOf .teacherInfoDB

/-- The info an account document names is an object of the process, or can be loaded for the type of the account. -/
def Typed (w : World) : Prop :=
  ∀ o d i d', w.stored .accounts o = some d → d.get? "AdditionalInfo" = some (.oid i) → w.stored .infos i = some d' →
    (∃ p b x, w.Has p b x ∧ x.kind = .infos ∧ b.id = i) ∨
      ∃ a c, DBClass.accountDB.fields d = .ok (.account a) ∧ InfosController.classOf a.accountType = some c ∧ d'.IsOf c

/-- Objects that `pend` allows are not cached yet, and accounts whose id `twin` allows may have several objects. -/
structure Traced (w : World) (pend : ℕ → Prop) (twin : Oid → Prop) : Prop where
  sound : Sound w
  formed : Formed w
  typed : Typed w
  unique : ∀ p q b x b' x', w.Has p b x → w.Has q b' x' → x.kind = x'.kind → b.id = b'.id →
    (x.kind = .accounts → ¬ twin b.id) → p = q
  doc : ∀ p b x, w.Has p b x → w.stored x.kind b.id = some b.doc
  filed : ∀ p b x, w.Has p b x → p ∈ w.cash x.kind ∨ pend p
  gone : ∀ p b x, w.heap.get p = some ⟨some b, x⟩ → b.isExist = false →
    w.stored x.kind b.id = none ∧ b.id < w.env.nextOid
  bare : ∀ p b x, w.Has p b x → x.cls.fields b.doc = .ok x.bare
  kinds : ∀ p o, w.heap.get p = some o → o.fields.cls ≠ .additionalInfoDB ∧ (o.fromDB.isSome → o.fields.kind ≠ .schedules)
  given : ∀ p o f, w.heap.get p = some o → o.fields.ref f = some .uninit → o.fields.kind = .schedules
  below : ∀ p o f q, w.heap.get p = some o → o.fields.ref f = some (.to q) → q < w.heap.next
  closed : ∀ p b x f q, w.Has p b x → x.ref f = some (.to q) → ∃ b' y, w.heap.get q = some ⟨some b', y⟩
  admits : ∀ p o f q o', w.heap.get p = some o → o.fields.ref f = some (.to q) → w.heap.get q = some o' →
    f.admits o'.fields = true
  lost : ∀ p b x f q, w.Has p b x → x.ref f = some (.to q) → ¬ w.Alive q → w.Unnamed p f

variable {w w' : World} {k : Kind} {pend : ℕ → Prop} {twin : Oid → Prop}

theorem Lib.Conf.Has.alive {p : ℕ} {b : IFromDB} {x : Fields} (h : w.Has p b x) : w.Alive p := ⟨b, x, h⟩

/-! ### The class and the own values -/

theorem RefField.admits_of_bare {f : RefField} {x y : Fields} (h : x.bare = y.bare) : f.admits x = f.admits y := by
  cases x <;> cases y <;> simp only [Fields.bare, reduceCtorEq] at h <;> cases f <;> rfl

namespace Traced

/-! ### Objects that are overwritten -/

/-- What may be assigned to a member: null, or the address of an object of the right class; an object that no
longer exists only where the member's document names no stored one. -/
def Assignable (w : World) (p : ℕ) (f : RefField) (v : Pointer) : Prop :=
  v = .null ∨ ∃ q b y, v = .to q ∧ w.heap.get q = some ⟨some b, y⟩ ∧ f.admits y = true ∧
    (w.Alive p → w.Alive q ∨ w.Unnamed p f)

/-- An object is overwritten without touching its document, its id, its existence or its own values. -/
theorem put (h : Traced w pend twin) {p : ℕ} {c c' : Option IFromDB} {x x' : Fields} (hp : w.heap.get p = some ⟨c, x⟩)
    (hc : c'.map IFromDB.core = c.map IFromDB.core) (hx : x'.bare = x.bare)
    (hr : ∀ f v, x'.ref f = some v → x.ref f = some v ∨ Assignable w p f v) : Traced (w.put p ⟨c', x'⟩) pend twin := by
  have hget : ∀ q, (w.put p ⟨c', x'⟩).heap.get q = if q = p then some ⟨c', x'⟩ else w.heap.get q := Lib.Conf.get_put hp
  have hcls : x'.cls = x.cls := Fields.cls_of_bare hx
  have hkind : x'.kind = x.kind := Fields.kind_of_bare hx
  -- every object was there before, with the same core and the same own values
  have back : ∀ q o', (w.put p ⟨c', x'⟩).heap.get q = some o' → ∃ o, w.heap.get q = some o ∧
      o'.fromDB.map IFromDB.core = o.fromDB.map IFromDB.core ∧ o'.fields.bare = o.fields.bare ∧
      ∀ f v, o'.fields.ref f = some v → o.fields.ref f = some v ∨ q = p ∧ Assignable w p f v := by
    intro q o' hq
    rw [hget] at hq
    split_ifs at hq with he
    · obtain rfl := Option.some.inj hq
      subst he
      exact ⟨_, hp, hc, hx, fun f v hv => (hr f v hv).imp_right fun ha => ⟨rfl, ha⟩⟩
    · exact ⟨o', hq, rfl, rfl, fun _ _ hv => .inl hv⟩
  have backDB : ∀ q b' y', (w.put p ⟨c', x'⟩).heap.get q = some ⟨some b', y'⟩ → ∃ b y, w.heap.get q = some ⟨some b, y⟩ ∧
      b.core = b'.core ∧ y.bare = y'.bare ∧ ∀ f v, y'.ref f = some v → y.ref f = some v ∨ q = p ∧ Assignable w p f v := by
    intro q b' y' hq
    obtain ⟨⟨_ | b, y⟩, hg, hcore, hbare, href⟩ := back q _ hq
    · simp at hcore
    · exact ⟨b, y, hg, by simpa using hcore.symm, hbare.symm, href⟩
  have backHas : ∀ q b' y', (w.put p ⟨c', x'⟩).Has q b' y' → ∃ b y, w.Has q b y ∧ b.core = b'.core ∧ y.bare = y'.bare ∧
      ∀ f v, y'.ref f = some v → y.ref f = some v ∨ q = p ∧ Assignable w p f v := by
    rintro q b' y' ⟨hq, he⟩
    obtain ⟨b, y, hg, hcore, hbare, href⟩ := backDB q b' y' hq
    refine ⟨b, y, ⟨hg, ?_⟩, hcore, hbare, href⟩
    simp only [IFromDB.core, Prod.mk.injEq] at hcore
    rw [hcore.2.2, he]
  have forth : ∀ q b y, w.heap.get q = some ⟨some b, y⟩ → ∃ b' y', (w.put p ⟨c', x'⟩).heap.get q = some ⟨some b', y'⟩ ∧
      b'.core = b.core ∧ y'.bare = y.bare := by
    intro q b y hq
    rw [hget]
    split_ifs with he
    · subst he
      obtain ⟨rfl, rfl⟩ : c = some b ∧ x = y := by simpa [hp] using hq
      obtain ⟨b', rfl⟩ : ∃ b', c' = some b' := by cases c' <;> simp_all
      exact ⟨b', x', rfl, by simpa using hc, hx⟩
    · exact ⟨b, y, hq, rfl, rfl⟩
  have alive : ∀ q, (w.put p ⟨c', x'⟩).Alive q ↔ w.Alive q := by
    intro q
    constructor
    · rintro ⟨b', y', hq⟩
      obtain ⟨b, y, hb, -⟩ := backHas q b' y' hq
      exact ⟨b, y, hb⟩
    · rintro ⟨b, y, hq, hb⟩
      obtain ⟨b', y', hg, hcore, -⟩ := forth q b y hq
      simp only [IFromDB.core, Prod.mk.injEq] at hcore
      exact ⟨b', y', hg, by rw [hcore.2.2, hb]⟩
  have unnamed : ∀ q f, (∃ b y, w.heap.get q = some ⟨some b, y⟩) → w.Unnamed q f → (w.put p ⟨c', x'⟩).Unnamed q f := by
    rintro q f ⟨b, y, hq⟩ hu i hi
    obtain ⟨b', y', hg, hcore, -⟩ := forth q b y hq
    simp only [IFromDB.core, Prod.mk.injEq] at hcore
    rw [docRef_of_get hg, hcore.2.1, ← docRef_of_get hq] at hi
    exact hu i hi
  have hsame : Obj.Same ⟨c, x⟩ ⟨c', x'⟩ := ⟨hc, hx⟩
  refine ⟨Micro.sound (L := never) (.put hp hsame) h.sound, ⟨h.formed.shape, h.formed.older, h.formed.curator⟩,
    ?_, ?_, ?_, ?_, ?_, ?_, ?_, ?_, ?_, ?_, ?_, ?_⟩
  · intro o d i d' hd hi hd'
    refine (h.typed o d i d' hd hi hd').imp_left ?_
    rintro ⟨q, b, y, ⟨hq, hb⟩, hk, hid⟩
    obtain ⟨b', y', hg, hcore, hbare⟩ := forth q b y hq
    simp only [IFromDB.core, Prod.mk.injEq] at hcore
    exact ⟨q, b', y', ⟨hg, by rw [hcore.2.2, hb]⟩, (Fields.kind_of_bare hbare).trans hk, hcore.1.trans hid⟩
  · intro q r b₁ x₁ b₂ x₂ hq hr' hk hid ht
    obtain ⟨b, y, hb, hcb, hy, -⟩ := backHas q _ _ hq
    obtain ⟨b', y', hb', hcb', hy', -⟩ := backHas r _ _ hr'
    simp only [IFromDB.core, Prod.mk.injEq] at hcb hcb'
    refine h.unique q r b y b' y' hb hb' ?_ (by rw [hcb.1, hcb'.1, hid]) (by rwa [Fields.kind_of_bare hy, hcb.1])
    rw [Fields.kind_of_bare hy, Fields.kind_of_bare hy', hk]
  · intro q b' y' hq
    obtain ⟨b, y, hb, hcb, hy, -⟩ := backHas q _ _ hq
    simp only [IFromDB.core, Prod.mk.injEq] at hcb
    rw [Lib.Conf.stored_put, ← Fields.kind_of_bare hy, ← hcb.1, ← hcb.2.1]
    exact h.doc q b y hb
  · intro q b' y' hq
    obtain ⟨b, y, hb, -, hy, -⟩ := backHas q _ _ hq
    rw [← Fields.kind_of_bare hy]
    exact h.filed q b y hb
  · intro q b' y' hq he
    obtain ⟨b, y, hb, hcb, hy, -⟩ := backDB q _ _ hq
    simp only [IFromDB.core, Prod.mk.injEq] at hcb
    rw [Lib.Conf.stored_put, ← Fields.kind_of_bare hy, ← hcb.1]
    exact h.gone q b y hb (by rw [hcb.2.2, he])
  · intro q b' y' hq
    obtain ⟨b, y, hb, hcb, hy, -⟩ := backHas q _ _ hq
    simp only [IFromDB.core, Prod.mk.injEq] at hcb
    rw [← hy, ← hcb.2.1, ← Fields.cls_of_bare hy]
    exact h.bare q b y hb
  · intro q o' hq
    obtain ⟨o, ho, hcore, hbare, -⟩ := back q o' hq
    rw [Fields.cls_of_bare hbare, Fields.kind_of_bare hbare]
    refine ⟨(h.kinds q o ho).1, fun hs => (h.kinds q o ho).2 ?_⟩
    have := congrArg Option.isSome hcore
    simpa [hs] using this.symm
  · intro q o' f hq hu
    obtain ⟨o, ho, -, hbare, href⟩ := back q o' hq
    rw [Fields.kind_of_bare hbare]
    rcases href f _ hu with hu | ⟨-, hu | ⟨r, -, -, hu, -⟩⟩
    · exact h.given q o f ho hu
    · cases hu
    · cases hu
  · intro q o' f r hq hv
    obtain ⟨o, ho, -, -, href⟩ := back q o' hq
    rw [Lib.Conf.heap_put, Lib.Heap.next_set]
    rcases href f _ hv with hv | ⟨-, hv | ⟨r', b₁, y₁, hv, hr', -⟩⟩
    · exact h.below q o f r ho hv
    · cases hv
    · obtain rfl : r = r' := by simpa using hv
      exact Lib.Heap.lt_next hr'
  · intro q b' y' f r hq hv
    obtain ⟨b, y, hb, -, -, href⟩ := backHas q _ _ hq
    have hdb : ∃ b₁ y₁, w.heap.get r = some ⟨some b₁, y₁⟩ := by
      rcases href f _ hv with hv | ⟨-, hv | ⟨r', b₁, y₁, hv, hr', -⟩⟩
      · exact h.closed q b y f r hb hv
      · cases hv
      · obtain rfl : r = r' := by simpa using hv
        exact ⟨b₁, y₁, hr'⟩
    obtain ⟨b₁, y₁, hr₁⟩ := hdb
    obtain ⟨b₂, y₂, hr₂, -⟩ := forth r b₁ y₁ hr₁
    exact ⟨b₂, y₂, hr₂⟩
  · intro q o' f r o₁' hq hv hr'
    obtain ⟨o, ho, -, -, href⟩ := back q o' hq
    obtain ⟨o₁, ho₁, -, hbare, -⟩ := back r o₁' hr'
    rw [RefField.admits_of_bare hbare]
    rcases href f _ hv with hv | ⟨-, hv | ⟨r', b₁, y₁, hv, hr₁, ha, -⟩⟩
    · exact h.admits q o f r o₁ ho hv ho₁
    · cases hv
    · obtain rfl : r = r' := by simpa using hv
      obtain rfl := Option.some.inj (ho₁.symm.trans hr₁)
      exact ha
  · intro q b' y' f r hq hv hdead
    obtain ⟨b, y, hb, -, -, href⟩ := backHas q _ _ hq
    rw [alive] at hdead
    refine unnamed q f ⟨b, y, hb.1⟩ ?_
    rcases href f _ hv with hv | ⟨rfl, hv | ⟨r', b₁, y₁, hv, -, -, ha⟩⟩
    · exact h.lost q b y f r hb hv hdead
    · cases hv
    · obtain rfl : r = r' := by simpa using hv
      exact (ha hb.alive).resolve_left hdead

/-- A count changes. -/
theorem own (h : Traced w pend twin) {p : ℕ} {n : ℤ} {u : Unit} (hr : run (own p n) w = .ok (u, w')) : Traced w' pend twin := by
  obtain ⟨b, x, hp, rfl⟩ := run_own_iff.mp hr
  exact h.put hp (by simp) rfl fun _ _ hv => .inl hv

theorem assignStudents (h : Traced w pend twin) {this : ℕ} {c : Option IFromDB} {g : Group}
    (hg : w.heap.get this = some ⟨c, .group g⟩) (l : List ℕ) :
    Traced (w.put this ⟨c, .group { g with students := l }⟩) pend twin :=
  h.put hg rfl rfl fun f v hv => .inl (by cases f <;> exact hv)

/-- A member is assigned. -/
theorem assign (h : Traced w pend twin) {p : ℕ} {o : Obj} {f : RefField} {v : Pointer} (ho : w.heap.get p = some o)
    (hv : Assignable w p f v) : Traced (w.put p (o.setRef f v)) pend twin := by
  refine h.put (c := o.fromDB) (x := o.fields) ho rfl (Fields.bare_setRef _ _ _) fun f' v' hv' => ?_
  by_cases hf : f' = f
  · subst hf
    cases hx : o.fields.ref f' with
    | none =>
      have hn : o.fields.setRef f' v = o.fields := by
        cases hof : o.fields <;> cases f' <;> simp_all [Fields.ref, Fields.setRef]
      rw [hn, hx] at hv'
      cases hv'
    | some v₀ =>
      rw [Fields.ref_setRef hx, Option.some.injEq] at hv'
      exact .inr (hv' ▸ hv)
  · rw [Fields.ref_setRef_of_ne hf] at hv'
    exact .inl hv'

/-- A setter is given an object that exists, or there is nothing to lose. -/
theorem setRef (h : Traced w pend twin) {f : RefField} {this : ℕ} {v : Option ℕ} {u : Unit}
    (hr : run (setRef f this v) w = .ok (u, w'))
    (hg : ∀ q, v = some q → w.Alive this → w.Alive q ∨ w.Unnamed this f) : Traced w' pend twin := by
  cases v with
  | none =>
    obtain ⟨o, v, ho, -, rfl⟩ := run_setRef_none_iff.mp hr
    exact h.assign ho (.inl rfl)
  | some q =>
    obtain ⟨o, v, oq, b, x, ho, hv, hq, ha, hb, rfl⟩ := run_setRef_some_iff.mp hr
    have hdb : oq.fromDB.isSome := by
      rw [Lib.Conf.get_put ho] at hb
      split_ifs at hb with he
      · subst he
        obtain rfl := Option.some.inj (ho.symm.trans hq)
        have hc : o.fromDB = some b := by simpa using congrArg (fun o : Option Obj => o.bind (·.fromDB)) hb
        rw [hc]; rfl
      · rw [hq, Option.some.injEq] at hb
        rw [hb]; rfl
    obtain ⟨bq, hbq⟩ := Option.isSome_iff_exists.mp hdb
    have hq' : w.heap.get q = some ⟨some bq, oq.fields⟩ := by rw [hq, ← hbq]
    have h₁ := h.assign ho (.inr ⟨q, bq, oq.fields, rfl, hq', ha, hg q rfl⟩)
    exact h₁.put hb (by simp) rfl fun _ _ hv => .inl hv

/-! ### Objects that are made and destroyed -/

theorem waive {pend' : ℕ → Prop} (h : Traced w pend twin)
    (hp : ∀ p b x, w.Has p b x → pend p → p ∈ w.cash x.kind ∨ pend' p) : Traced w pend' twin :=
  { h with filed := fun p b x hx => (h.filed p b x hx).elim .inl (hp p b x hx) }

theorem setChanged (h : Traced w pend twin) (b : Bool) : Traced (w.setChanged k b) pend twin :=
  { h with
    sound := h.sound.setChanged b
    formed := ⟨h.formed.shape, h.formed.older, h.formed.curator⟩
    filed := fun p b x hx => by rw [Lib.Conf.cash_setChanged]; exact h.filed p b x hx }

/-- A new object is a plain one, or the first one built from a stored document. -/
theorem push (h : Traced w pend twin) {o : Obj} (hb : o.fields.bare = o.fields) (hc : o.fields.cls ≠ .additionalInfoDB)
    (hdb : ∀ b, o.fromDB = some b → b.isExist = true ∧ o.fields.kind ≠ .schedules ∧
      w.stored o.fields.kind b.id = some b.doc ∧ o.fields.cls.fields b.doc = .ok o.fields ∧
      ((o.fields.kind = .accounts → ¬ twin b.id) → ∀ p b' x', w.Has p b' x' → x'.kind = o.fields.kind → b'.id ≠ b.id)) :
    Traced (w.push o) (fun p => pend p ∨ p = w.heap.next) twin := by
  have hget : ∀ q, (w.push o).heap.get q = if q = w.heap.next then some o else w.heap.get q := Lib.Heap.get_push _ _
  have hold : ∀ {q o₁}, w.heap.get q = some o₁ → (w.push o).heap.get q = some o₁ := Lib.Heap.get_push_of_some _
  have hcases : ∀ q b x, (w.push o).Has q b x → w.Has q b x ∨ q = w.heap.next ∧ o = ⟨some b, x⟩ := by
    rintro q b x ⟨hq, he⟩
    rw [hget] at hq
    split_ifs at hq with hqn
    · exact .inr ⟨hqn, Option.some.inj hq⟩
    · exact .inl ⟨hq, he⟩
  have hnull : ∀ f q, o.fields.ref f ≠ some (.to q) := by
    intro f q hf
    rcases ref_of_bare hb hf with he | ⟨he, -⟩ <;> cases he
  have alive : ∀ q, w.Alive q → (w.push o).Alive q := fun q ⟨b, x, hq, he⟩ => ⟨b, x, hold hq, he⟩
  refine ⟨sound_push h.sound o, ⟨h.formed.shape, h.formed.older, h.formed.curator⟩, ?_, ?_, ?_, ?_, ?_, ?_, ?_, ?_, ?_,
    ?_, ?_, ?_⟩
  · intro i d j d' hd hj hd'
    refine (h.typed i d j d' hd hj hd').imp_left ?_
    rintro ⟨q, b, x, ⟨hq, he⟩, hr⟩
    exact ⟨q, b, x, ⟨hold hq, he⟩, hr⟩
  · intro p q b x b' x' hp hq hk hid ht
    rcases hcases p b x hp with hp' | ⟨rfl, rfl⟩ <;> rcases hcases q b' x' hq with hq' | ⟨rfl, he⟩
    · exact h.unique p q b x b' x' hp' hq' hk hid ht
    · subst he
      exact absurd hid ((hdb b' rfl).2.2.2.2 (hk ▸ hid ▸ ht) p b x hp' hk)
    · exact absurd hid.symm ((hdb b rfl).2.2.2.2 ht q b' x' hq' hk.symm)
    · rfl
  · intro p b x hp
    rcases hcases p b x hp with hp | ⟨rfl, rfl⟩
    · exact h.doc p b x hp
    · exact (hdb b rfl).2.2.1
  · intro p b x hp
    rcases hcases p b x hp with hp | ⟨rfl, rfl⟩
    · exact (h.filed p b x hp).imp_right .inl
    · exact .inr (.inr rfl)
  · intro p b x hp he
    rw [hget] at hp
    split_ifs at hp with hpn
    · obtain rfl := Option.some.inj hp
      rw [(hdb b rfl).1] at he
      cases he
    · exact h.gone p b x hp he
  · intro p b x hp
    rcases hcases p b x hp with hp | ⟨rfl, rfl⟩
    · exact h.bare p b x hp
    · rw [hb]; exact (hdb b rfl).2.2.2.1
  · intro p o₁ hp
    rw [hget] at hp
    split_ifs at hp with hpn
    · obtain rfl := Option.some.inj hp
      refine ⟨hc, fun hs => ?_⟩
      obtain ⟨b, hb'⟩ := Option.isSome_iff_exists.mp hs
      exact (hdb b hb').2.1
    · exact h.kinds p o₁ hp
  · intro p o₁ f hp hu
    rw [hget] at hp
    split_ifs at hp with hpn
    · obtain rfl := Option.some.inj hp
      rcases ref_of_bare hb hu with he | ⟨-, hk⟩
      · cases he
      · exact hk
    · exact h.given p o₁ f hp hu
  · intro p o₁ f q hp hf
    rw [hget] at hp
    split_ifs at hp with hpn
    · obtain rfl := Option.some.inj hp
      exact absurd hf (hnull f q)
    · rw [Lib.Conf.heap_push, Lib.Heap.next_push]
      exact Nat.lt_succ_of_lt (h.below p o₁ f q hp hf)
  · intro p b x f q hp hf
    rcases hcases p b x hp with hp | ⟨rfl, rfl⟩
    · obtain ⟨b', y, hq⟩ := h.closed p b x f q hp hf
      exact ⟨b', y, hold hq⟩
    · exact absurd hf (hnull f q)
  · intro p o₁ f q o₂ hp hf hq
    rw [hget] at hp hq
    split_ifs at hp with hpn
    · obtain rfl := Option.some.inj hp
      exact absurd hf (hnull f q)
    · rw [if_neg (h.below p o₁ f q hp hf).ne] at hq
      exact h.admits p o₁ f q o₂ hp hf hq
  · intro p b x f q hp hf hd i hi
    rcases hcases p b x hp with hp | ⟨rfl, rfl⟩
    · rw [docRef_of_get (hold hp.1), ← docRef_of_get hp.1] at hi
      exact h.lost p b x f q hp hf (fun ha => hd (alive q ha)) i hi
    · exact absurd hf (hnull f q)

/-- A new object enters its cache. -/
theorem cache {q : ℕ} (h : Traced w (fun p => pend p ∨ p = q) twin) {b : IFromDB} {x : Fields} (hq : w.Has q b x) (hk : x.kind = k)
    (hn : q ∉ w.cash k) : Traced (w.setCash k (w.cash k ++ [q])) pend twin :=
  { h with
    sound := h.sound.cache (p := q) (o := b.id) (c := x.cls) ⟨b, x, hq.1, hq.2, rfl, rfl⟩ (by simpa using hk) hn
    formed := ⟨h.formed.shape, h.formed.older, h.formed.curator⟩
    filed := by
      intro p b' x' hp
      have hp : w.Has p b' x' := hp
      rw [Lib.Conf.cash_setCash]
      rcases h.filed p b' x' hp with hin | hpend | rfl
      · refine .inl ?_
        split_ifs with he
        · exact List.mem_append_left _ (he ▸ hin)
        · exact hin
      · exact .inr hpend
      · obtain ⟨rfl, rfl⟩ : b = b' ∧ x = x' := by simpa [hq.1] using hp.1
        rw [if_pos hk]
        exact .inl (List.mem_append_right _ (List.mem_singleton.mpr rfl)) }

/-- The first object built from a stored document is loaded. -/
theorem load (h : Traced w pend twin) {c : DBClass} {d : Doc} {b : IFromDB} {x : Fields} (hs : w.stored k b.id = some d)
    (hx : c.fields d = .ok x) (hb : b.doc = d ∧ b.isExist = true) (hk : x.kind = k) (hc : c ≠ .additionalInfoDB)
    (hns : k ≠ .schedules)
    (hn : (k = .accounts → ¬ twin b.id) → ∀ p b' x', w.Has p b' x' → x'.kind = k → b'.id ≠ b.id) :
    Traced (w.load k ⟨some b, x⟩) pend twin := by
  obtain ⟨rfl, he⟩ := hb
  have hcls := DBClass.cls_fields hx
  subst hk
  have h₁ := h.push (o := ⟨some b, x⟩) (DBClass.bare_fields hx) (hcls ▸ hc) fun b' hb' => by
    obtain rfl := Option.some.inj hb'
    exact ⟨he, hns, hs, hcls ▸ hx, hn⟩
  exact h₁.cache (b := b) (x := x) ⟨by simp, he⟩ rfl fun hin => (h.sound.lt_next hin).ne rfl

/-- The classes of the objects and of what they point to are kept where every object was there before with its values. -/
theorem carried (h : Traced w pend twin) (w' : World) (hn : w'.heap.next = w.heap.next)
    (hback : ∀ {q o'}, w'.heap.get q = some o' →
      ∃ o, w.heap.get q = some o ∧ o'.fields = o.fields ∧ (o'.fromDB.isSome → o.fromDB.isSome)) :
    (∀ p o, w'.heap.get p = some o → o.fields.cls ≠ .additionalInfoDB ∧ (o.fromDB.isSome → o.fields.kind ≠ .schedules)) ∧
    (∀ p o f, w'.heap.get p = some o → o.fields.ref f = some .uninit → o.fields.kind = .schedules) ∧
    (∀ p o f q, w'.heap.get p = some o → o.fields.ref f = some (.to q) → q < w'.heap.next) ∧
    ∀ p o f q o', w'.heap.get p = some o → o.fields.ref f = some (.to q) → w'.heap.get q = some o' →
      f.admits o'.fields = true := by
  refine ⟨fun p o hp => ?_, fun p o f hp hu => ?_, fun p o f q hp hf => ?_, fun p o f q o' hp hf hq => ?_⟩ <;>
    obtain ⟨o₁, ho₁, he, hdb⟩ := hback hp
  · rw [he]
    exact ⟨(h.kinds p o₁ ho₁).1, fun hs => (h.kinds p o₁ ho₁).2 (hdb hs)⟩
  · rw [he] at hu ⊢
    exact h.given p o₁ f ho₁ hu
  · rw [hn]
    exact h.below p o₁ f q ho₁ (he ▸ hf)
  · obtain ⟨o₂, ho₂, he', -⟩ := hback hq
    rw [he']
    exact h.admits p o₁ f q o₂ ho₁ (he ▸ hf) ho₂

/-- What no object that exists points to and what does not exist may be destroyed. -/
theorem free (h : Traced w pend twin) {p : ℕ} (hp : ¬ w.Alive p) (hn : ∀ q b x f, w.Has q b x → x.ref f ≠ some (.to p)) :
    Traced (w.free p) pend twin := by
  have hget : ∀ q, (w.free p).heap.get q = if q = p then none else w.heap.get q := Lib.Heap.get_free _ _
  have hold : ∀ {q o}, (w.free p).heap.get q = some o → w.heap.get q = some o := by
    intro q o hq
    rw [hget] at hq
    split_ifs at hq
    exact hq
  have back : ∀ {q b x}, (w.free p).Has q b x → w.Has q b x := fun hq => ⟨hold hq.1, hq.2⟩
  have forth : ∀ {q b x}, w.Has q b x → (w.free p).Has q b x := by
    rintro q b x ⟨hq, he⟩
    refine ⟨?_, he⟩
    rw [hget, if_neg, hq]
    rintro rfl
    exact hp ⟨b, x, hq, he⟩
  obtain ⟨hkinds, hgiven, hbelow, hadmits⟩ := h.carried (w.free p) (Lib.Heap.next_free _ _)
    fun hq => ⟨_, hold hq, rfl, id⟩
  refine ⟨(steady_free hp).sound h.sound, ⟨h.formed.shape, h.formed.older, h.formed.curator⟩, ?_,
    fun q r b x b' x' hq hr hk => h.unique q r b x b' x' (back hq) (back hr) hk, fun q b x hq => h.doc q b x (back hq),
    fun q b x hq => h.filed q b x (back hq), fun q b x hq => h.gone q b x (hold hq), fun q b x hq => h.bare q b x (back hq),
    hkinds, hgiven, hbelow, ?_, hadmits, ?_⟩
  · intro o d i d' hd hi hd'
    refine (h.typed o d i d' hd hi hd').imp_left ?_
    rintro ⟨q, b, x, hq, hr⟩
    exact ⟨q, b, x, forth hq, hr⟩
  · intro q b x f r hq hf
    obtain ⟨b', y, hr⟩ := h.closed q b x f r (back hq) hf
    refine ⟨b', y, ?_⟩
    rw [hget, if_neg, hr]
    rintro rfl
    exact hn q b x f (back hq) hf
  · intro q b x f r hq hf hd i hi
    rw [docRef_of_get hq.1, ← docRef_of_get (back hq).1] at hi
    refine h.lost q b x f r (back hq) hf (fun ⟨b', y, ha⟩ => hd ?_) i hi
    exact ⟨b', y, forth ha⟩

/-- A plain object may be destroyed. -/
theorem freePlain (h : Traced w pend twin) {p : ℕ} {x : Fields} (hp : w.heap.get p = some ⟨none, x⟩) : Traced (w.free p) pend twin := by
  refine h.free (fun ⟨b, y, hb, _⟩ => by simp [hp] at hb) fun q b y f hq hf => ?_
  obtain ⟨b', z, hz⟩ := h.closed q b y f p hq hf
  simp [hp] at hz

end Traced

end Cbt
