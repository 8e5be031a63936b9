import Cbt.Caches.Listing
import Cbt.Lib.Total
import Cbt.Windows.Legible

/-! Drawing the screen of groups. A legible memory can be asked for everything the
tables and the box of curators show, so the screen can be drawn, and every command
of the drawing leaves a memory that is legible again. -/

namespace Cbt

open Lib.Command (Returns run_bind_iff run_pure_iff)

variable {κ : Oid → Option DBClass} {w w' : World} {k : Kind} {p acc this : ℕ} {g : Getter}

/-- A sequence of steps of asking. -/
abbrev Asked (κ : Oid → Option DBClass) : World → World → Prop := Relation.ReflTransGen (Asks κ)

/-- A sound memory that is legible. -/
structure Lib.Conf.Drawable (κ : Oid → Option DBClass) (w : World) : Prop where
  sound : Sound w
  legible : w.Legible κ

namespace Asked

theorem looks (h : Asked κ w w') : Looks w w' := by
  induction h with
  | refl => exact .refl
  | tail _ h ih => exact ih.trans h.looks

/-- What every step of asking keeps in a legible memory is kept. -/
theorem induct {P : World → Prop} (hP : ∀ w w', w.Drawable κ → Sound w' → Looks w w' → Renews κ w w' → P w → P w') (h : Asked κ w w')
    (hd : w.Drawable κ) (hp : P w) : w'.Drawable κ ∧ P w' := by
  induction h with
  | refl => exact ⟨hd, hp⟩
  | tail _ h ih =>
    obtain ⟨hd, hp⟩ := ih
    have hr := h.renews hd.sound hd.legible.outlives
    have hw' := h.looks.sound hd.sound
    exact ⟨⟨hw', hr.legible hd.sound hw' hd.legible⟩, hP _ _ hd hw' h.looks hr hp⟩

theorem drawable (h : Asked κ w w') (hd : w.Drawable κ) : w'.Drawable κ :=
  (h.induct (P := fun _ => True) (fun _ _ _ _ _ _ _ => trivial) hd trivial).1

end Asked

/-- The command returns, and only asks. -/
abbrev Draws (κ : Oid → Option DBClass) {α : Type} (m : Cmd α) (w : World) (post : α → World → Prop) : Prop :=
  Returns Database.serve m w fun a w' => Asked κ w w' ∧ post a w'

namespace Draws

variable {α β : Type} {m : Cmd α} {f : α → Cmd β} {post mid : α → World → Prop} {after : β → World → Prop}

theorem pure {a : α} (hp : post a w) : Draws κ (Pure.pure a : Cmd α) w post := Returns.pure ⟨.refl, hp⟩

/-- A command that changes nothing, and what comes after it. -/
theorem seq {a : α} (hr : run m w = .ok (a, w)) (hf : Draws κ (f a) w after) : Draws κ (m >>= f) w after := by
  obtain ⟨b, w', h, hp⟩ := hf
  exact .of_run ((run_bind_iff _).mpr ⟨a, w, hr, h⟩) hp

theorem bind (hm : Draws κ m w mid) (hf : ∀ a w₁, Asked κ w w₁ → mid a w₁ → Draws κ (f a) w₁ after) :
    Draws κ (m >>= f) w after := by
  refine Returns.bind hm fun a w₁ h => (hf a w₁ h.1 h.2).mono fun b w₂ h' => ?_
  exact ⟨h.1.trans h'.1, h'.2⟩

theorem mono (hm : Draws κ m w mid) (hp : ∀ a w', Asked κ w w' → mid a w' → post a w') : Draws κ m w post :=
  Returns.mono hm fun a w' h => ⟨h.1, hp a w' h.1 h.2⟩

end Draws

/-- The object at an address is what the reference of another one leads to. -/
def Lib.Conf.Bears (w : World) (this : ℕ) (f : RefField) (q : ℕ) : Prop :=
  w.refOf this f = some (.to q) ∧ w.Alive q ∨
    w.refOf this f = some .null ∧ ∃ i, w.docRef this f.key = some i ∧ w.cached f.kind i = some q

theorem Lib.Conf.Bears.alive {f : RefField} {q : ℕ} (h : w.Bears this f q) (hw : Sound w) : w.Alive q := by
  rcases h with ⟨-, hq⟩ | ⟨-, i, -, hc⟩
  · exact hq
  · exact hw.live _ q (Lib.Conf.cached_mem hc)

/-- The pointer of an object that exists, before and after others were asked for. -/
theorem Renews.refOf {b : IFromDB} {x : Fields} {f : RefField} {v : Pointer} (h : Renews κ w w') (hl : Looks w w')
    (hg : w.heap.get this = some ⟨some b, x⟩) (hb : b.isExist = true) (hv : x.ref f = some v) : ∃ b' x' v',
      w'.heap.get this = some ⟨some b', x'⟩ ∧ b'.doc = b.doc ∧ x'.ref f = some v' ∧ Renewed w w' b.doc f v v' := by
  obtain ⟨b', x', hg', hcore, hbare⟩ := hl.kept hg hb
  obtain ⟨b₀, x₀, hg₀, -, hren⟩ := h.back this b' x' (Lib.Heap.lt_next hg) hg'
  obtain ⟨rfl, rfl⟩ : b = b₀ ∧ x = x₀ := by simpa [hg] using hg₀
  obtain ⟨v', hv'⟩ : ∃ v', x'.ref f = some v' := by
    rw [← Fields.mem_refs, Fields.cls_of_bare hbare, Fields.mem_refs]
    exact ⟨v, hv⟩
  obtain ⟨v₀, hv₀, hren⟩ := hren.ref f v' hv'
  obtain rfl := Option.some.inj (hv.symm.trans hv₀)
  simp only [IFromDB.core, Prod.mk.injEq] at hcore
  exact ⟨b', x', v', hg', hcore.2.1, hv', hren⟩

/-- A pointer to an object that exists stays. -/
theorem Renews.held {f : RefField} {q : ℕ} (h : Renews κ w w') (hl : Looks w w') (hp : w.Alive this) (hq : w.Alive q)
    (hr : w.refOf this f = some (.to q)) : w'.refOf this f = some (.to q) := by
  obtain ⟨b, x, hg, hb⟩ := hp
  rw [refOf_of_get hg] at hr
  obtain ⟨b', x', v', hg', -, hv', hren⟩ := h.refOf hl hg hb hr
  rw [refOf_of_get hg', hv']
  cases hren with
  | same => rfl
  | dropped h => exact absurd hq h.not_alive
  | taken h => exact absurd hq h.not_alive

/-- What a reference leads to it leads to when others were asked for. -/
theorem Renews.bears {f : RefField} {q : ℕ} (h : Renews κ w w') (hw' : Sound w') (hl : Looks w w') (hp : w.Alive this)
    (hb : w.Bears this f q) : w'.Bears this f q := by
  rcases hb with ⟨hr, hq⟩ | ⟨hr, i, hi, hc⟩
  · exact .inl ⟨h.held hl hp hq hr, hl.alive hq⟩
  · obtain ⟨b, x, hg, hb⟩ := hp
    rw [refOf_of_get hg] at hr
    obtain ⟨b', x', v', hg', hdoc, hv', hren⟩ := h.refOf hl hg hb hr
    have hc' := h.cached _ _ _ hc
    have hi' : w'.docRef this f.key = some i := by rw [← hi, docRef_of_get hg', docRef_of_get hg, hdoc]
    rw [Lib.Conf.Bears, refOf_of_get hg', hv']
    cases hren with
    | same => exact .inr ⟨rfl, i, hi', hc'⟩
    | dropped => exact .inr ⟨rfl, i, hi', hc'⟩
    | taken _ hj hcp =>
      rw [docRef_of_get hg, hj, Option.bind_some, Bson.oid?_oid, Option.some.injEq] at hi
      subst hi
      obtain rfl := Option.some.inj (hc'.symm.trans hcp)
      exact .inl ⟨rfl, hw'.live _ _ (Lib.Conf.cached_mem hcp)⟩

theorem Asked.cached {i : Oid} (h : Asked κ w w') (hd : w.Drawable κ) (hc : w.cached k i = some p) : w'.cached k i = some p :=
  (h.induct (P := fun w => w.cached k i = some p) (fun _ _ _ _ _ hr hc => hr.cached k i p hc) hd hc).2

theorem Asked.held {f : RefField} {q : ℕ} (h : Asked κ w w') (hd : w.Drawable κ) (hp : w.Alive this) (hq : w.Alive q)
    (hr : w.refOf this f = some (.to q)) : w'.refOf this f = some (.to q) :=
  (h.induct (P := fun w => (w.Alive this ∧ w.Alive q) ∧ w.refOf this f = some (.to q))
    (fun _ _ _ _ hl hr hP => ⟨⟨hl.alive hP.1.1, hl.alive hP.1.2⟩, hr.held hl hP.1.1 hP.1.2 hP.2⟩) hd ⟨⟨hp, hq⟩, hr⟩).2.2

theorem Asked.bears {f : RefField} {q : ℕ} (h : Asked κ w w') (hd : w.Drawable κ) (hp : w.Alive this)
    (hb : w.Bears this f q) : w'.Bears this f q :=
  (h.induct (P := fun w => w.Alive this ∧ w.Bears this f q)
    (fun _ _ _ hw' hl hr hP => ⟨hl.alive hP.1, hr.bears hw' hl hP.1 hP.2⟩) hd ⟨hp, hb⟩).2.2

/-! ### Getters -/

/-- A getter answers with what the reference leads to, unless it has to let go of an object first. -/
theorem GotBy.leads {b : IFromDB} {x y : Fields} {v : Pointer} {d : Doc} {r : Option ℕ} (h : GotBy w g this r w') (hw : Sound w)
    (ho : w.heap.get this = some ⟨some b, x⟩) (hg : g ≠ .getTeacher) (hgw : ∀ x, g.wants x = true)
    (hv : x.ref g.field = some v) (hf : w.Follows κ b.doc g.field (g.classOf w this) v) (hd : ∀ p, v = .to p → w.Alive p)
    (hl : w.Leads κ b.doc g.field v d y) : ∃ q b' y', r = some q ∧ w'.heap.get q = some ⟨some b', y'⟩ ∧ y'.bare = y.bare := by
  have hkey : g.field.key = g.key := Getter.field_key hg
  have hsame {c : IFromDB} {z : Fields} (hc : w.heap.get this = some ⟨some c, z⟩) : b = c ∧ x = z := by simpa [ho] using hc
  cases h with
  | settled ho' hv' hs =>
    obtain rfl := Option.some.inj (ho.symm.trans ho')
    obtain rfl := Option.some.inj (hv.symm.trans hv')
    obtain ⟨rfl, rfl⟩ := hs.of_alive (hd _ rfl)
    cases hl with
    | held hp => exact ⟨_, _, y, rfl, hp, rfl⟩
    | found hloose => exact absurd (hd _ rfl) hloose.not_alive
  | absent ho' hn hk hi =>
    obtain ⟨rfl, rfl⟩ := hsame ho'
    obtain rfl := Option.some.inj (hv.symm.trans hn)
    cases hl with
    | found _ hj =>
      rw [hkey, hk, Option.some.injEq] at hj
      simp [hj] at hi
  | missed ho' hn hk hlk hr =>
    obtain ⟨rfl, rfl⟩ := hsame ho'
    obtain rfl := Option.some.inj (hv.symm.trans hn)
    have hnone {r₀ : Option ℕ} (hr : ∀ p, r₀ = some p → ∃ o, w'.heap.get p = some o ∧ g.wants o.fields = false) : r₀ = none := by
      cases r₀ with
      | none => rfl
      | some p =>
        obtain ⟨o, -, hw⟩ := hr p rfl
        rw [hgw] at hw
        cases hw
    obtain rfl := hnone hr
    cases hl with
    | found hloose hj hfd =>
      have hj' := hj
      rw [hkey, hk, Option.some.injEq, Bson.oid.injEq] at hj
      subst hj
      rw [g.field_kind] at hfd
      cases hlk with
      | absent hn hs =>
        cases hfd with
        | cached hc => simp [hn] at hc
        | stored _ hst hcl =>
          have hcl' := (hf.loads hloose _ hj' (by rw [g.field_kind, hn]) _ (by rw [g.field_kind, hst])).1
          rcases hs with hs | hs
          · simp [hst] at hs
          · rw [g.field_kind, hcl, hs] at hcl'
            cases hcl'
  | loaded ho' hn hk hlk hp hwants h₁ =>
    obtain ⟨rfl, rfl⟩ := hsame ho'
    obtain rfl := Option.some.inj (hv.symm.trans hn)
    obtain rfl := Option.some.inj ((hlk.get ho).symm.trans h₁)
    rename_i q o₂ w₁
    -- the pointer that is taken changes nothing of what was found
    have hput {c : IFromDB} {z : Fields} (hq : w₁.heap.get q = some ⟨some c, z⟩) :
        ∃ c' z', (w₁.put this (Obj.setRef ⟨some b, x⟩ g.field (.to q))).heap.get q = some ⟨some c', z'⟩ ∧ z'.bare = z.bare := by
      rw [Lib.Conf.get_put h₁]
      split_ifs with he
      · subst he
        obtain ⟨rfl, rfl⟩ : b = c ∧ x = z := by simpa [h₁] using hq
        exact ⟨b, _, rfl, Fields.bare_setRef _ _ _⟩
      · exact ⟨c, z, hq, rfl⟩
    cases hl with
    | found hloose hj hfd =>
      have hj' := hj
      rw [hkey, hk, Option.some.injEq, Bson.oid.injEq] at hj
      subst hj
      rw [g.field_kind] at hfd
      have : ∃ c z, w₁.heap.get q = some ⟨some c, z⟩ ∧ z = y := by
        cases hlk with
        | hit hc =>
          cases hfd with
          | cached hc' hp' =>
            obtain rfl := Option.some.inj (hc.symm.trans hc')
            exact ⟨_, y, hp', rfl⟩
          | stored hn => simp [hc] at hn
        | loaded hn hs hcl hof =>
          cases hfd with
          | cached hc' => simp [hn] at hc'
          | stored _ hst hcl' hx =>
            have hcl'' := (hf.loads hloose _ hj' (by rw [g.field_kind, hn]) _ (by rw [g.field_kind, hst])).1
            rw [g.field_kind, hcl', hcl] at hcl''
            obtain rfl := Option.some.inj hcl''
            obtain rfl := Option.some.inj (hst.symm.trans hs)
            obtain ⟨x', i, hx', -, rfl⟩ := ofDoc_eq_ok.mp hof
            obtain rfl := Except.ok.inj (hx.symm.trans hx')
            exact ⟨_, _, Lib.Heap.get_push_next _ _, rfl⟩
      obtain ⟨c, z, hq, rfl⟩ := this
      obtain ⟨c', z', hq', hbare⟩ := hput hq
      exact ⟨q, c', z', rfl, hq', hbare⟩

/-- A getter of an account or a student whose reference can be followed returns. -/
theorem draws_get {b : IFromDB} {x : Fields} {v : Pointer} (hw : Sound w) (ho : w.heap.get this = some ⟨some b, x⟩)
    (hb : b.isExist = true) (hg : g ≠ .getTeacher) (hgw : ∀ x, g.wants x = true) (ha : x.asks g.field = true)
    (hv : x.ref g.field = some v) (hf : w.Follows κ b.doc g.field (g.classOf w this) v) :
    Draws κ (g.call this) w fun r w' => (∀ q, r = some q → w'.Alive q ∧ w'.refOf this g.field = some (.to q)) ∧
      (∀ q, w.Bears this g.field q → r = some q) ∧
      ∀ d y, (∀ p, v = .to p → w.Alive p) → w.Leads κ b.doc g.field v d y →
        ∃ q b' y', r = some q ∧ w'.heap.get q = some ⟨some b', y'⟩ ∧ y'.bare = y.bare := by
  have hgot : ∃ r w', GotBy w g this r w' ∧ Asked κ w w' := by
    cases v with
    | uninit => exact absurd rfl hf.given
    | «to» p =>
      obtain ⟨c, y, hp⟩ := hf.held p rfl
      cases hc : c.isExist with
      | true => exact ⟨_, _, .settled ho hv (.held hp hc), .refl⟩
      | false =>
        have hne : this ≠ p := by
          rintro rfl
          obtain ⟨rfl, rfl⟩ : b = c ∧ x = y := by simpa [ho] using hp
          simp [hb] at hc
        by_cases hn : c.ownedCount = 1
        · exact ⟨_, _, .settled ho hv (.freed hp hc hn hne ho), .single (.freed ho ha hv hp hc hne hn)⟩
        · exact ⟨_, _, .settled ho hv (.letGo hp hc hn (by rw [Lib.Conf.get_put hp, if_neg hne, ho])),
            .single (.letGo ho ha hv hp hc hne hn)⟩
    | null =>
      obtain ⟨u, hu⟩ := hf.key .null
      rw [Getter.field_key hg] at hu
      cases hoid : u.oid? with
      | none => exact ⟨_, _, .absent ho hv hu hoid, .refl⟩
      | some i =>
        obtain rfl := Bson.oid?_eq_some.mp hoid
        have hi : b.doc.get? g.field.key = some (.oid i) := by rw [Getter.field_key hg, hu]
        cases hc : w.cached g.kind i with
        | some q =>
          obtain ⟨c, y, hq, -⟩ := hw.entry _ q (Lib.Conf.cached_mem hc)
          exact ⟨_, _, .loaded ho hv hu (.hit hc) hq (hgw _) ho, .single (.take ho ha hv hi (by rw [g.field_kind, hc]))⟩
        | none =>
          cases hs : w.stored g.kind i with
          | none => exact ⟨_, _, .missed ho hv hu (.absent hc (.inl hs)) (by simp), .refl⟩
          | some d =>
            obtain ⟨hcl, hload⟩ := hf.loads .null i hi (by rw [g.field_kind, hc]) d (by rw [g.field_kind, hs])
            cases hcl' : g.classOf w this with
            | none => exact ⟨_, _, .missed ho hv hu (.absent hc (.inr hcl')) (by simp), .refl⟩
            | some c =>
              obtain ⟨y, hy⟩ := hload c hcl'
              have hof : c.ofDoc d = .ok ⟨some { doc := d, id := i }, y⟩ := ofDoc_eq_ok.mpr ⟨y, i, hy, stored_id hs, rfl⟩
              have hload₁ : Asks κ w (w.load g.kind ⟨some (IFromDB.own 1 { doc := d, id := i }), y⟩) :=
                .load hc hs (by rw [← g.field_kind, hcl, hcl']) (Getter.kind_classOf hcl') hy
              have ho₁ : (w.load g.kind ⟨some (IFromDB.own 1 { doc := d, id := i }), y⟩).heap.get this = some ⟨some b, x⟩ :=
                Lib.Heap.get_push_of_some _ ho
              refine ⟨_, _, .loaded ho hv hu (.loaded hc hs hcl' hof) (Lib.Heap.get_push_next _ _) (hgw _) ho₁,
                .tail (.single hload₁) (.take ho₁ ha hv hi ?_)⟩
              rw [g.field_kind]
              exact (cached_load hw (b := IFromDB.own 1 { doc := d, id := i }) y hc _ _).trans (if_pos ⟨rfl, rfl⟩)
  obtain ⟨r, w', hgot, hasked⟩ := hgot
  refine ⟨r, w', (run_getter_iff hw ho (Fields.mem_refs.mpr ⟨v, hv⟩)).mpr hgot, hasked, fun q hq => ?_, fun q hq => ?_,
    fun d y hd hl => hgot.leads hw ho hg hgw hv hf hd hl⟩
  · subst hq
    exact hgot.alive hw
  · rcases hq with ⟨hr, hq⟩ | ⟨hn, i, hi, hc⟩
    · exact (hgot.of_to hr hq).1
    · rw [docRef_of_get ho, Getter.field_key hg] at hi
      obtain ⟨u, hu, hi⟩ := Option.bind_eq_some_iff.mp hi
      obtain rfl := Bson.oid?_eq_some.mp hi
      rw [g.field_kind] at hc
      obtain ⟨c, y, hq, -⟩ := hw.entry _ q (Lib.Conf.cached_mem hc)
      exact (hgot.of_cached ho (by rw [← hn, refOf_of_get ho]) hu hc hq (hgw y)).1

/-! ### Listings -/

theorem draws_collect {docs : List Doc} (hk : k ≠ .infos) (hw : Sound w) (hd : Listed w k docs)
    (hof : ∀ d ∈ docs, ∃ i, d.get? "_id" = some (.oid i) ∧ (w.cached k i = none → ∃ x, k.dbClass.fields d = .ok x)) :
    Draws κ (Controller.collect k (fun _ => .ok true) false docs) w fun r w' => (∀ p ∈ r, p ∈ w'.cash k) ∧
      ∀ d ∈ docs, ∀ i p, d.get? "_id" = some (.oid i) → w.cached k i = some p → p ∈ r := by
  induction docs generalizing w with
  | nil => exact Draws.pure (by simp)
  | cons d docs ih =>
    obtain ⟨i, hi, hx⟩ := hof d (by simp)
    have hof' : ∀ d ∈ docs, ∃ i, d.get? "_id" = some (.oid i) ∧ (w.cached k i = none → ∃ x, k.dbClass.fields d = .ok x) :=
      fun d hd => hof d (List.mem_cons_of_mem _ hd)
    cases hc : w.cached k i with
    | some p =>
      obtain ⟨r, w', hr, ha, hin, hall⟩ := ih hw hd.tail hof'
      refine ⟨p :: r, w', (run_collect_cons_iff (hw.live k)).mpr (.inr ⟨i, r, rfl, hi, .inl ⟨p, hc, rfl, hr⟩⟩), ha, ?_, ?_⟩
      · exact List.forall_mem_cons.mpr ⟨ha.looks.mem_cash (Lib.Conf.cached_mem hc), hin⟩
      · rw [List.forall_mem_cons]
        refine ⟨fun j q hj hq => ?_, fun e he j q hj hq => List.mem_cons_of_mem _ (hall e he j q hj hq)⟩
        obtain rfl : i = j := by simpa [hi] using hj
        obtain rfl := Option.some.inj (hc.symm.trans hq)
        exact List.mem_cons_self
    | none =>
      obtain ⟨x, hx⟩ := hx hc
      have hs := hd d (by simp) i hi
      have hof₀ : k.dbClass.ofDoc d = .ok ⟨some { doc := d, id := i }, x⟩ := ofDoc_eq_ok.mpr ⟨x, i, hx, hi, rfl⟩
      have hask : Asks κ w (w.load k ⟨some { doc := d, id := i }, x⟩) :=
        .load hc hs (by simp [Kind.classIn, hk]) (by cases k <;> rfl) hx
      have hcached := cached_load hw (b := { doc := d, id := i }) x hc
      obtain ⟨r, w', hr, ha, hin, hall⟩ := ih (hask.looks.sound hw) (hd.tail.of_stored rfl) fun e he => by
        obtain ⟨j, hj, hx⟩ := hof' e he
        refine ⟨j, hj, fun hn => hx ?_⟩
        rw [hcached] at hn
        split_ifs at hn
        exact hn
      refine ⟨w.heap.next :: r, w', (run_collect_cons_iff (hw.live k)).mpr (.inr ⟨i, r, rfl, hi, .inr ⟨_, hc, hof₀, rfl, hr⟩⟩),
        .head hask ha, ?_, ?_⟩
      · refine List.forall_mem_cons.mpr ⟨ha.looks.mem_cash ?_, hin⟩
        simp [Lib.Conf.cash_load]
      · rw [List.forall_mem_cons]
        refine ⟨fun j q hj hq => ?_, fun e he j q hj hq => List.mem_cons_of_mem _ (hall e he j q hj ?_)⟩
        · obtain rfl : i = j := by simpa [hi] using hj
          simp [hc] at hq
        · rw [hcached, if_neg, hq]
          rintro ⟨-, rfl⟩
          simp [hc] at hq

/-- A listing of a collection of one class lists cached objects, and each that is the cached one of a stored document. -/
theorem draws_getAll (hk : k ≠ .infos) (hw : Sound w)
    (hx : ∀ i d, w.cached k i = none → w.stored k i = some d → ∃ x, k.dbClass.fields d = .ok x) :
    Draws κ (Controller.getAll k) w fun r w' => (∀ p ∈ r, p ∈ w'.cash k) ∧
      ∀ i p, w.stored k i ≠ none → w.cached k i = some p → p ∈ r := by
  cases hc : w.isChanged k with
  | false => exact .of_run (run_getAll_iff.mpr (.inl ⟨hc, rfl, rfl⟩)) ⟨.refl, fun _ hp => hp, fun i p _ hp => Lib.Conf.cached_mem hp⟩
  | true =>
    obtain ⟨r, w₁, hr, ha, hin, hall⟩ := draws_collect (κ := κ) hk hw (listed_docs w k) fun d hd => by
      obtain ⟨i, hi⟩ := Collection.mem_docs.mp hd
      exact ⟨i, stored_id hi, fun hn => hx i d hn hi⟩
    refine .of_run (run_getAll_iff.mpr (.inr ⟨hc, w₁, ?_, rfl⟩)) ⟨.tail ha .listed, fun p hp => by simpa using hin p hp, ?_⟩
    · rwa [admits_eq hk]
    · intro i p hs hp
      obtain ⟨d, hd⟩ := Option.ne_none_iff_exists'.mp hs
      exact hall d (mem_docs_of_stored hd) i p (stored_id hd) hp

namespace Lib.Conf.Drawable

/-! ### The infos of accounts -/

theorem account (h : w.Drawable κ) (hp : acc ∈ w.cash .accounts) : ∃ b a, w.heap.get acc = some ⟨some b, .account a⟩ ∧
    b.isExist = true ∧ w.Kept κ .accounts b.doc (.account a) := by
  obtain ⟨b, x, hg, hb, hk⟩ := h.sound.entry .accounts acc hp
  cases x with
  | account a => exact ⟨b, a, hg, hb, .cached hp hg⟩
  | group | additionalInfo | student | teacher | schedule => cases hk

/-- The info of a listed account can be asked for. -/
theorem draws_info (h : w.Drawable κ) (hp : acc ∈ w.cash .accounts) :
    Draws κ (AccountDB.getAdditionalInfo acc) w fun r w' =>
      (∀ q, r = some q → w'.Alive q ∧ w'.refOf acc .additionalInfo = some (.to q)) ∧
        ∀ q, w.Bears acc .additionalInfo q → r = some q := by
  obtain ⟨b, a, hg, hb, hk⟩ := h.account hp
  refine (draws_get (g := .getAdditionalInfo) h.sound hg hb (by decide) (fun _ => rfl) rfl rfl ?_).mono
    fun r w' _ hr => ⟨hr.1, hr.2.1⟩
  · rw [Getter.classOf_account hg]
    exact h.legible.account _ _ hk

/-- The group of a student that is a listed account's info can be asked for, and the account is not a teacher's. -/
theorem student {q : ℕ} {b : IFromDB} {s : StudentInfo} (h : w.Drawable κ) (hp : acc ∈ w.cash .accounts)
    (hr : w.refOf acc .additionalInfo = some (.to q)) (hq : w.heap.get q = some ⟨some b, .student s⟩) (hb : b.isExist = true) :
    (∃ c a, w.heap.get acc = some ⟨some c, .account a⟩ ∧ a.accountType ≠ .teacher) ∧
      w.Follows κ b.doc .group (some .groupDB) s.group := by
  obtain ⟨c, a, hg, -, hk⟩ := h.account hp
  rw [refOf_of_get hg] at hr
  have hl : w.Leads κ c.doc .additionalInfo a.additionalInfo b.doc (.student s) := Option.some.inj hr ▸ .held hq hb
  obtain ⟨hne, hf⟩ := h.legible.student _ _ _ _ hk hl
  exact ⟨⟨c, a, hg, hne⟩, hf⟩

theorem draws_accounts (h : w.Drawable κ) : Draws κ (Controller.getAll .accounts) w fun r w' =>
    (∀ p ∈ r, p ∈ w'.cash .accounts) ∧ ∀ i p, w.stored .accounts i ≠ none → w.cached .accounts i = some p → p ∈ r :=
  draws_getAll (by decide) h.sound h.legible.accounts

/-! ### The box of curators -/

theorem draws_curators {accs : List ℕ} (h : w.Drawable κ) (hp : ∀ p ∈ accs, p ∈ w.cash .accounts) :
    Draws κ (AdminWindow.curators accs) w fun r w' =>
      (∀ q ∈ r, w'.Alive q ∧ (w'.curatorText q).isSome ∧ ∃ p ∈ accs, w'.refOf p .additionalInfo = some (.to q)) ∧
        ∀ p ∈ accs, ∀ q, w.Bears p .additionalInfo q → (w.curatorText q).isSome → q ∈ r := by
  induction accs generalizing w with
  | nil => exact Draws.pure (by simp)
  | cons acc accs ih =>
    rw [List.forall_mem_cons] at hp
    refine (h.draws_info hp.1).bind fun info w₁ ha₁ hinfo => ?_
    have h₁ := ha₁.drawable h
    have halive : w.Alive acc := h.sound.live _ _ hp.1
    -- the rest of the list, once this account's info is known
    have hrest {w₂ : World} (ha : Asked κ w w₂) : Draws κ (AdminWindow.curators accs) w₂ fun r w' =>
        (∀ q ∈ r, w'.Alive q ∧ (w'.curatorText q).isSome ∧ ∃ p ∈ acc :: accs, w'.refOf p .additionalInfo = some (.to q)) ∧
          ∀ p ∈ accs, ∀ q, w.Bears p .additionalInfo q → (w.curatorText q).isSome → q ∈ r := by
      refine (ih (ha.drawable h) fun p hp' => ha.looks.mem_cash (hp.2 p hp')).mono fun r w' _ hr => ⟨fun q hq => ?_, ?_⟩
      · obtain ⟨hq, ht, p, hp, hpq⟩ := hr.1 q hq
        exact ⟨hq, ht, p, List.mem_cons_of_mem _ hp, hpq⟩
      · intro p hp' q hb ht
        refine hr.2 p hp' q (ha.bears h (h.sound.live _ _ (hp.2 p hp')) hb) ?_
        rwa [ha.looks.curatorText (hb.alive h.sound)]
    cases info with
    | none =>
      refine (hrest ha₁).mono fun r w' _ hr => ⟨hr.1, List.forall_mem_cons.mpr ⟨fun q hb => ?_, hr.2⟩⟩
      cases hinfo.2 q hb
    | some q =>
      obtain ⟨hq, hr⟩ := hinfo.1 q rfl
      have hb₁ : w₁.Bears acc .additionalInfo q := .inl ⟨hr, hq⟩
      refine (h₁.draws_info (ha₁.looks.mem_cash hp.1)).bind fun info w₂ ha₂ hinfo' => ?_
      obtain rfl := hinfo'.2 q hb₁
      obtain ⟨b, x, hg, hb⟩ := (hinfo'.1 q rfl).1
      have ha : Asked κ w w₂ := ha₁.trans ha₂
      have hsame : ∀ q', w.Bears acc .additionalInfo q' → q' = q := fun q' hb' => by simpa using (hinfo.2 q' hb').symm
      refine .seq (run_cast_iff.mpr ⟨rfl, .inr ⟨q, _, rfl, hg, rfl⟩⟩) ?_
      cases x with
      | teacher t =>
        refine (hrest ha).bind fun r w₃ ha₃ hr' => Draws.pure ⟨List.forall_mem_cons.mpr ⟨?_, hr'.1⟩, ?_⟩
        · have ht : w₃.curatorText q = w₂.curatorText q := ha₃.looks.curatorText ⟨b, _, hg, hb⟩
          refine ⟨ha₃.looks.alive ⟨b, _, hg, hb⟩, by simp [ht, curatorText_of_get hg], acc, List.mem_cons_self, ?_⟩
          exact ha₃.held (ha.drawable h) (ha.looks.alive halive) ⟨b, _, hg, hb⟩ (hinfo'.1 q rfl).2
        · refine List.forall_mem_cons.mpr ⟨fun q' hb' _ => ?_, fun p hp' q' hb' ht => List.mem_cons_of_mem _ (hr'.2 p hp' q' hb' ht)⟩
          rw [hsame q' hb']
          exact List.mem_cons_self
      | account | group | additionalInfo | student | schedule =>
        refine (hrest ha).mono fun r w' _ hr' => ⟨hr'.1, List.forall_mem_cons.mpr ⟨fun q' hb' ht => ?_, hr'.2⟩⟩
        obtain rfl := hsame q' hb'
        rw [← ha.looks.curatorText (hb'.alive h.sound)] at ht
        simp [Lib.Conf.curatorText, hg, Fields.curatorText] at ht

theorem draws_curatorNames {curs : List ℕ} (hc : ∀ p ∈ curs, (w.curatorText p).isSome) :
    Draws κ (AdminWindow.curatorNames curs) w fun _ w' => w' = w := by
  induction curs with
  | nil => exact Draws.pure rfl
  | cons cur curs ih =>
    rw [List.forall_mem_cons] at hc
    obtain ⟨text, ht⟩ := Option.isSome_iff_exists.mp hc.1
    obtain ⟨c, t, hg⟩ := teacher_of_curatorText ht
    have hname : run (AdminWindow.curatorName cur) w = .ok (cStr (t.firstName ++ " " ++ t.secondName), w) :=
      (run_bind_iff _).mpr ⟨t, w, run_teacherOf_iff.mpr ⟨⟨c, hg⟩, rfl⟩, rfl⟩
    refine .seq hname ((ih hc.2).bind fun _ _ _ hw₁ => ?_)
    subst hw₁
    exact Draws.pure rfl

end Lib.Conf.Drawable

/-! ### Rows -/

/-- An account can be shown as a row: if its type has an info, that is there and of the class. -/
structure Lib.Conf.Fills (κ : Oid → Option DBClass) (w : World) (d : Doc) (a : Account) : Prop where
  follows : w.Follows κ d .additionalInfo (InfosController.classOf a.accountType) a.additionalInfo
  held : a.accountType ≠ .admin → ∀ p, a.additionalInfo = .to p → w.Alive p
  shown : ∀ c, InfosController.classOf a.accountType = some c → ∃ d' x, w.Leads κ d .additionalInfo a.additionalInfo d' x ∧ x.cls = c

/-- The account at an address can be shown as a row. -/
def Lib.Conf.Presents (κ : Oid → Option DBClass) (w : World) (acc : ℕ) : Prop :=
  ∃ b a, w.heap.get acc = some ⟨some b, .account a⟩ ∧ b.isExist = true ∧ w.Fills κ b.doc a

theorem Renews.fills {d : Doc} {a a' : Account} (h : Renews κ w w') (hw : Sound w) (hw' : Sound w') (hl : Looks w w')
    (ht : a'.accountType = a.accountType) (hr : Renewed w w' d .additionalInfo a.additionalInfo a'.additionalInfo)
    (hs : w'.Seen (.account a')) (hrow : w.Fills κ d a) : w'.Fills κ d a' where
  follows := by
    rw [ht]
    exact h.follows hw' hr hrow.follows (h.firm_of_seen (f := .additionalInfo) hs rfl rfl)
  held hne p hp := by
    rw [ht] at hne
    rw [hp] at hr
    generalize hv : a.additionalInfo = v at hr
    cases hr with
    | same => exact hl.alive (hrow.held hne p hv)
    | taken _ _ hc => exact hw'.live _ p (Lib.Conf.cached_mem hc)
  shown c hc := by
    rw [ht] at hc
    obtain ⟨d', x, hd, hx⟩ := hrow.shown c hc
    obtain ⟨x', hd', hbare⟩ := h.leads hw hw' hl hr (h.firm_of_seen (f := .additionalInfo) hs rfl rfl) hd
    exact ⟨d', x', hd', (Fields.cls_of_bare hbare).trans hx⟩

theorem Renews.presents (h : Renews κ w w') (hw : Sound w) (hw' : Sound w') (hl : Looks w w') (hp : w.Presents κ acc) :
    w'.Presents κ acc := by
  obtain ⟨b, a, hg, hb, hrow⟩ := hp
  obtain ⟨b', x', hg', hcore, -⟩ := hl.kept hg hb
  obtain ⟨b₀, x₀, hg₀, -, hren⟩ := h.back acc b' x' (Lib.Heap.lt_next hg) hg'
  obtain ⟨rfl, rfl⟩ : b = b₀ ∧ Fields.account a = x₀ := by simpa [hg] using hg₀
  simp only [IFromDB.core, Prod.mk.injEq] at hcore
  have hbare := hren.bare
  cases x' with
  | account a' =>
    obtain ⟨a₀, ha₀, ht, hr⟩ := hren.account
    obtain rfl := Fields.account.inj ha₀
    refine ⟨b', a', hg', hcore.2.2.trans hb, ?_⟩
    rw [hcore.2.1]
    exact h.fills hw hw' hl ht.symm hr (.inl ⟨acc, b', hg'⟩) hrow
  | group | additionalInfo | student | teacher | schedule => cases hbare

theorem Asked.presents (h : Asked κ w w') (hd : w.Drawable κ) (hp : w.Presents κ acc) : w'.Presents κ acc :=
  (h.induct (P := fun w => w.Presents κ acc) (fun _ _ hd hw' hl hr hp => hr.presents hd.sound hw' hl hp) hd hp).2

namespace Lib.Conf.Drawable

theorem draws_row (h : w.Drawable κ) (hp : w.Presents κ acc) : Draws κ (AccountsTable.row acc) w fun _ _ => True := by
  obtain ⟨b, a, hg, hb, hrow⟩ := hp
  have hinfo : Draws κ (AccountDB.getAdditionalInfo acc) w fun r w' =>
      ∀ c, InfosController.classOf a.accountType = some c → ∃ q b' y', r = some q ∧ w'.heap.get q = some ⟨some b', y'⟩ ∧ y'.cls = c := by
    refine (draws_get (g := .getAdditionalInfo) h.sound hg hb (by decide) (fun _ => rfl) rfl rfl ?_).mono fun r w' _ hr c hc => ?_
    · rw [Getter.classOf_account hg]
      exact hrow.follows
    · obtain ⟨d', x, hd, hx⟩ := hrow.shown c hc
      have hne : a.accountType ≠ .admin := fun he => by simp [he, InfosController.classOf] at hc
      obtain ⟨q, b', y', hq, hgq, hbare⟩ := hr.2.2 d' x (hrow.held hne) hd
      exact ⟨q, b', y', hq, hgq, (Fields.cls_of_bare hbare).trans hx⟩
  refine hinfo.bind fun info w₁ ha hinfo => ?_
  obtain ⟨b', x', hg', -, hbare⟩ := ha.looks.kept hg hb
  obtain ⟨a', rfl, ht⟩ : ∃ a', x' = .account a' ∧ a'.accountType = a.accountType := by
    cases x' with
    | account a' =>
      simp only [Fields.bare, Fields.account.injEq, Account.mk.injEq] at hbare
      exact ⟨a', rfl, hbare.2.1⟩
    | group | additionalInfo | student | teacher | schedule => cases hbare
  rw [← ht] at hinfo
  refine .seq (run_accountType_iff.mpr ⟨⟨_, a', hg', rfl⟩, rfl⟩) ?_
  cases hty : a'.accountType with
  | student =>
    obtain ⟨q, bq, y, rfl, hq, hy⟩ := hinfo .studentInfoDB (by rw [hty]; rfl)
    cases y <;> simp only [Fields.cls, reduceCtorEq] at hy
    refine .seq (run_castDeref_iff.mpr ⟨rfl, ⟨_, hq, rfl⟩, rfl⟩) ?_
    exact .seq (run_studentOf_iff.mpr ⟨⟨_, hq⟩, rfl⟩) (Draws.pure trivial)
  | teacher =>
    obtain ⟨q, bq, y, rfl, hq, hy⟩ := hinfo .teacherInfoDB (by rw [hty]; rfl)
    cases y <;> simp only [Fields.cls, reduceCtorEq] at hy
    refine .seq (run_castDeref_iff.mpr ⟨rfl, ⟨_, hq, rfl⟩, rfl⟩) ?_
    exact .seq (run_teacherOf_iff.mpr ⟨⟨_, hq⟩, rfl⟩) (Draws.pure trivial)
  | admin => exact .seq (run_fromDB_iff.mpr ⟨header_eq_ok.mpr ⟨_, hg'⟩, rfl⟩) (Draws.pure trivial)

theorem draws_updateTable {accs : List (Option ℕ)} (h : w.Drawable κ) (hp : ∀ p, some p ∈ accs → w.Presents κ p) :
    Draws κ (AccountsTable.updateTable accs) w fun _ _ => True := by
  induction accs generalizing w with
  | nil => exact Draws.pure trivial
  | cons acc? accs ih =>
    have htail : ∀ p, some p ∈ accs → w.Presents κ p := fun p hp' => hp p (List.mem_cons_of_mem _ hp')
    cases acc? with
    | none => exact ih h htail
    | some acc =>
      refine (h.draws_row (hp acc (by simp))).bind fun row w₁ ha _ => ?_
      exact (ih (ha.drawable h) fun p hp' => ha.presents h (htail p hp')).bind fun _ _ _ _ => Draws.pure trivial

/-! ### The accounts without a group -/

theorem draws_ungrouped {accs : List ℕ} (h : w.Drawable κ) (hp : ∀ p ∈ accs, p ∈ w.cash .accounts) :
    Draws κ (UngroupedAccountsTable.ungrouped accs) w fun r w' => ∀ p, some p ∈ r → w'.Presents κ p := by
  induction accs generalizing w with
  | nil => exact Draws.pure (by simp)
  | cons acc accs ih =>
    rw [List.forall_mem_cons] at hp
    refine (h.draws_info hp.1).bind fun info w₁ ha₁ hinfo => ?_
    have h₁ := ha₁.drawable h
    have hrest {w₂ : World} (ha : Asked κ w w₂) := ih (ha.drawable h) fun p hp' => ha.looks.mem_cash (hp.2 p hp')
    cases info with
    | none => exact .seq (run_cast_iff.mpr ⟨rfl, .inl ⟨rfl, rfl⟩⟩) (hrest ha₁)
    | some q =>
      obtain ⟨⟨b, x, hg, hb⟩, hr⟩ := hinfo.1 q rfl
      refine .seq (run_cast_iff.mpr ⟨rfl, .inr ⟨q, _, rfl, hg, rfl⟩⟩) ?_
      cases x with
      | student s =>
        have hacc := ha₁.looks.mem_cash hp.1
        obtain ⟨⟨c, a, hga, hne⟩, hf⟩ := h₁.student hacc hr hg hb
        obtain ⟨c', a', hga', hc, hk⟩ := h₁.account hacc
        obtain ⟨rfl, rfl⟩ : c = c' ∧ a = a' := by simpa [hga] using hga'
        have hv : a.additionalInfo = .to q := by
          rw [refOf_of_get hga] at hr
          exact Option.some.inj hr
        have hpres : w₁.Presents κ acc := by
          refine ⟨c, a, hga, hc, h₁.legible.account _ _ hk, fun _ p hp => ?_, fun cl hcl => ?_⟩
          · obtain rfl := Pointer.to.inj (hv.symm.trans hp)
            exact ⟨b, _, hg, hb⟩
          · refine ⟨b.doc, .student s, hv ▸ .held hg hb, ?_⟩
            cases ht : a.accountType with
            | student =>
              rw [ht] at hcl
              exact Option.some.inj hcl
            | teacher => exact absurd ht hne
            | admin =>
              rw [ht] at hcl
              cases hcl
        refine (draws_get (g := .getStudentGroup) h₁.sound hg hb (by decide) (fun _ => rfl) rfl rfl hf).bind fun grp w₂ ha₂ _ => ?_
        have ha := ha₁.trans ha₂
        split_ifs
        · refine (hrest ha).bind fun r w₃ ha₃ hr' => Draws.pure fun p hp' => ?_
          rcases List.mem_cons.mp hp' with hp' | hp'
          · obtain rfl := Option.some.inj hp'
            exact Asked.presents (ha₂.trans ha₃) h₁ hpres
          · exact hr' p hp'
        · exact hrest ha
      | account | group | additionalInfo | teacher | schedule => exact hrest ha₁

/-! ### The table of groups -/

theorem draws_groupNames {grps : List ℕ} (hw : Sound w) (hp : ∀ p ∈ grps, p ∈ w.cash .groups) :
    Draws κ (groupNames grps) w fun _ _ => True := by
  induction grps with
  | nil => exact Draws.pure trivial
  | cons grp grps ih =>
    rw [List.forall_mem_cons] at hp
    obtain ⟨b, x, hg, -, hk⟩ := hw.entry .groups grp hp.1
    cases x with
    | group g => exact .seq (run_groupOf_iff.mpr ⟨⟨_, hg⟩, rfl⟩) ((ih hp.2).bind fun _ _ _ _ => Draws.pure trivial)
    | account | additionalInfo | student | teacher | schedule => cases hk

theorem draws_groupsTable (h : w.Drawable κ) : Draws κ GroupsDBTable.updateTable w fun _ _ => True :=
  (draws_getAll (by decide) h.sound h.legible.groups).bind fun _ _ ha hr =>
    (draws_groupNames (ha.drawable h).sound hr.1).bind fun _ _ _ _ => Draws.pure trivial

end Lib.Conf.Drawable

end Cbt
