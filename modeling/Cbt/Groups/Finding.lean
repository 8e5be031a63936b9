import Cbt.Groups.Joining
import Cbt.Windows.Pointers

/-! What the window finds for a group. `AddAccToGroup` looks through the owners of
the students it lists and takes the info of the account; these are the ids that the
pointers of the objects designate or, for a null pointer, that their documents name,
and looking them up changes none of them. -/

namespace Cbt

open Lib.Command (run_bind_iff run_pure_iff run_fault_iff)

variable {w w₁ w₂ w' : World} {S : ℕ → Prop}

/-- The id a reference designates: that of its target or, with a null pointer, the one in the document. -/
def Lib.Conf.namedBy (w : World) (p : ℕ) (f : RefField) : Option Oid :=
  match w.refOf p f with
  | some (.to q) => w.idOf q
  | some .null => w.docRef p f.key
  | _ => none

/-- The owner of the student that an id finds. -/
def Lib.Conf.ownerOf (w : World) (i : Oid) : Option Oid :=
  match w.cached .infos i with
  | some q => w.namedBy q .owner
  | none => (w.stored .infos i).bind fun d => (d.get? "Owner").bind Bson.oid?

/-! ### Getters -/

/-- A getter that yields an object changes no other object. -/
theorem GotBy.extends {g : Getter} {this p : ℕ} (hw : Sound w) (h : GotBy w g this (some p) w') :
    Extends (· = this) w w' := by
  cases h with
  | settled ho hv hs =>
    cases hs with
    | held => exact .refl hw
  | @loaded b x oid _ o₁ o₂ w₁ ho hn hv hl hp hc h₁ =>
    obtain rfl := Option.some.inj ((hl.get ho).symm.trans h₁)
    have hext : Extends (· = this) w w₁ := .looked hw hl fun c hc =>
      ⟨Getter.kind_classOf hc, fun he => Getter.classOf_ne g w this (he ▸ hc)⟩
    exact hext.trans (.put hext.sound h₁ rfl (Fields.cls_setRef _ _ _) (.inl rfl))

/-- What a getter yields has the id that the reference designated. -/
theorem GotBy.idOf {g : Getter} {this p : ℕ} (hw : Sound w) (h : GotBy w g this (some p) w') (hg : g ≠ .getTeacher) :
    w'.idOf p = w.namedBy this g.field := by
  have hkey : g.field.key = g.key := by cases g <;> first | rfl | exact absurd rfl hg
  cases h with
  | settled ho hv hs =>
    cases hs with
    | held => rw [Lib.Conf.namedBy, refOf_of_get ho, hv]
  | @loaded b x oid _ o₁ o₂ w₁ ho hn hv hl hp hc h₁ =>
    obtain rfl := Option.some.inj ((hl.get ho).symm.trans h₁)
    have hid : (w₁.put this (Obj.setRef ⟨some b, x⟩ g.field (.to p))).cached g.kind oid = some p := by
      rw [Obj.setRef, cached_put h₁ rfl, hl.cached hw]
    have hdoc : w.docRef this g.key = some oid := by
      rw [docRef_of_get ho, hv]
      rfl
    rw [Lib.Conf.cached_idOf hid, Lib.Conf.namedBy, refOf_of_get ho, hn, hkey, hdoc]

/-! ### Ids that stay designated -/

theorem Extends.namedBy {p : ℕ} {b : IFromDB} {x : Fields} {f : RefField} {i : Oid} (h : Extends S w w') (hp : ¬ S p)
    (hg : w.heap.get p = some ⟨some b, x⟩) (hi : w.namedBy p f = some i) : w'.namedBy p f = some i := by
  obtain ⟨n, hg'⟩ := h.other p b x hp hg
  unfold Lib.Conf.namedBy at hi ⊢
  rw [refOf_of_get hg] at hi
  rw [refOf_of_get hg']
  cases hv : x.ref f with
  | none => simp [hv] at hi
  | some v =>
    cases v with
    | uninit => simp [hv] at hi
    | null =>
      simp only [hv] at hi ⊢
      rw [docRef_of_get hg] at hi
      rw [docRef_of_get hg', ← hi]
      rfl
    | «to» q =>
      simp only [hv] at hi ⊢
      exact h.idOf hi

/-- A world that grew out of another one by looking up. -/
structure Visits (S : ℕ → Prop) (w w' : World) : Prop where
  grown : Extends S w w'
  looks : Looks w w'

namespace Visits

theorem trans (h : Visits S w w₁) (h' : Visits S w₁ w') : Visits S w w' :=
  ⟨h.grown.trans h'.grown, h.looks.trans h'.looks⟩

theorem mono {S' : ℕ → Prop} (hS : ∀ p, S p → S' p) (h : Visits S w w') : Visits S' w w' := ⟨h.grown.mono hS, h.looks⟩

theorem idOf_back (h : Visits S w w') {q : ℕ} {i : Oid} (hlt : q < w.heap.next) (hi : w'.idOf q = some i) :
    w.idOf q = some i := by
  cases hq : w'.heap.get q with
  | none => simp [Lib.Conf.idOf, hq] at hi
  | some o' =>
    obtain ⟨o, ho, hs⟩ := h.looks.back hq hlt
    obtain ⟨_ | b', x'⟩ := o'
    · simp [Lib.Conf.idOf, hq] at hi
    · obtain ⟨_ | b, x⟩ := o
      · cases hs.core
      · rw [h.grown.idOf (Lib.Conf.idOf_of_get ho)] at hi
        rwa [Lib.Conf.idOf_of_get ho]

/-- An object that was there and was not changed. -/
theorem back (h : Visits S w w') {q : ℕ} {b' : IFromDB} {x : Fields} (hq : ¬ S q) (hlt : q < w.heap.next)
    (hg : w'.heap.get q = some ⟨some b', x⟩) : ∃ b, w.heap.get q = some ⟨some b, x⟩ ∧ b'.core = b.core := by
  obtain ⟨⟨_ | b, y⟩, ho, hs⟩ := h.looks.back hg hlt
  · cases hs.core
  · obtain ⟨n, hg'⟩ := h.grown.other q b y hq ho
    obtain ⟨rfl, rfl⟩ : b' = b.own n ∧ x = y := by simpa [hg] using hg'
    exact ⟨b, ho, rfl⟩

theorem namedBy_back {Γ : Classes} (h : Visits S w w') (ht : WellTyped Γ w) {p : ℕ} {b : IFromDB} {x : Fields}
    {f : RefField} {i : Oid} (hp : ¬ S p) (hg : w.heap.get p = some ⟨some b, x⟩) (hi : w'.namedBy p f = some i) :
    w.namedBy p f = some i := by
  obtain ⟨n, hg'⟩ := h.grown.other p b x hp hg
  unfold Lib.Conf.namedBy at hi ⊢
  rw [refOf_of_get hg'] at hi
  rw [refOf_of_get hg]
  cases hv : x.ref f with
  | none => simp [hv] at hi
  | some v =>
    cases v with
    | uninit => simp [hv] at hi
    | null =>
      simp only [hv] at hi ⊢
      rw [docRef_of_get hg'] at hi
      rw [docRef_of_get hg, ← hi]
      rfl
    | «to» q =>
      simp only [hv] at hi ⊢
      obtain ⟨c, hc, -⟩ := ht.ref p _ f q hg hv
      exact h.idOf_back (ht.below q c hc) hi

/-- The list of a group that was there is as it was. -/
theorem inStep {Γ : Classes} (h : Visits S w w') (ht : WellTyped Γ w) {this : ℕ} (hS : ¬ S this) (hlt : this < w.heap.next)
    (hs : w.InStep this) : w'.InStep this := by
  intro b g ids d hg hids hd
  obtain ⟨b₀, hg₀, hcore⟩ := h.back hS hlt hg
  have hids₀ : existingIds w.heap g.students = .ok ids := by
    refine existingIds_of_ident (fun q hq i hqi => ?_) hids
    obtain ⟨c, z, hz, hc⟩ := ident_eq_ok.mp hqi
    obtain ⟨⟨_ | c₀, z₀⟩, ho, hsame⟩ := h.looks.back hz (ht.below q _ (ht.students this _ g hg₀ q hq))
    · cases hsame.core
    · have hcz : c.core = c₀.core := by simpa using hsame.core
      simp only [IFromDB.core, Prod.mk.injEq] at hcz
      exact ident_eq_ok.mpr ⟨c₀, z₀, ho, by rw [← hc, hcz.1, hcz.2.2]⟩
  simp only [IFromDB.core, Prod.mk.injEq] at hcore
  have hst := h.grown.stored
  rw [hst, hcore.1] at hd
  rw [hst]
  exact hs b₀ g ids d hg₀ hids₀ hd

end Visits

/-- The objects a getter that yields one leaves. -/
theorem visits_getter {g : Getter} {this p : ℕ} (hw : Sound w) (h : run (g.call this) w = .ok (some p, w')) :
    Visits (· = this) w w' :=
  ⟨(run_getter hw h).extends hw, .of_quiet (quiet_getter hw h)⟩

/-! ### The owners of the students -/

theorem Extends.ownerOf {i o : Oid} (hw : Sound w) (h : Extends S w w') (hS : ∀ q ∈ w.cash .infos, ¬ S q)
    (hc : w'.cached .infos i = none ∨ w.cached .infos i ≠ none) (ho : w.ownerOf i = some o) : w'.ownerOf i = some o := by
  unfold Lib.Conf.ownerOf at ho ⊢
  cases hq : w.cached .infos i with
  | none =>
    have hn : w'.cached .infos i = none := hc.resolve_right fun hne => hne hq
    simp only [hq, hn] at ho ⊢
    rwa [h.stored]
  | some q =>
    simp only [hq, h.cached _ _ _ hq] at ho ⊢
    obtain ⟨b, x, hg, -⟩ := hw.entry _ _ (Lib.Conf.cached_mem hq)
    exact h.namedBy (hS q (Lib.Conf.cached_mem hq)) hg ho

/-- A student that is loaded has the owner its document names. -/
theorem Looked.ownerOf {j i o : Oid} {r : Option ℕ} (hw : Sound w) (h : Looked w .infos j (some .studentInfoDB) r w')
    (ho : w.ownerOf i = some o) : w'.ownerOf i = some o := by
  cases h with
  | hit | absent => exact ho
  | @loaded _ d _ hc hs hcl hof =>
    obtain rfl := Option.some.inj hcl
    obtain ⟨y, k, hy, hk, rfl⟩ := ofDoc_eq_ok.mp hof
    obtain rfl : j = k := by simpa [hk] using ((w.env.coll .infos).ids j _ hs).symm
    have hcached : (w.load .infos (Obj.own 1 ⟨some { doc := d, id := j }, y⟩)).cached .infos i = _ :=
      cached_load hw (b := IFromDB.own 1 { doc := d, id := j }) y hc .infos i
    have hext : Extends (fun _ => False) w (w.load .infos (Obj.own 1 ⟨some { doc := d, id := j }, y⟩)) :=
      .load hw hc hs rfl (by simp) hof
    by_cases hi : i = j
    · subst hi
      rw [if_pos ⟨rfl, rfl⟩] at hcached
      have hnew : (w.load .infos (Obj.own 1 ⟨some { doc := d, id := i }, y⟩)).heap.get w.heap.next =
          some ⟨some (IFromDB.own 1 { doc := d, id := i }), y⟩ := Lib.Heap.get_push_next _ _
      have hnull : y.ref .owner = some .null := by
        have hcls := DBClass.cls_fields hy
        rw [← DBClass.bare_fields hy, ref_bare (by rw [hcls]; simp [DBClass.refs]), if_neg]
        intro hk
        rw [← Fields.kind_cls, hcls] at hk
        cases hk
      simp only [Lib.Conf.ownerOf, hc, hs, Option.bind_some] at ho
      simp only [Lib.Conf.ownerOf, hcached, Lib.Conf.namedBy, refOf_of_get hnew, hnull, docRef_of_get hnew]
      exact ho
    · rw [if_neg fun h => hi h.2] at hcached
      refine hext.ownerOf hw (fun _ _ h => h) ?_ ho
      rw [hcached]
      cases w.cached .infos i with
      | none => exact .inl rfl
      | some q => exact .inr (by simp)

theorem ownerOf_assignStudents {p : ℕ} {b : IFromDB} {g : Group} {i o : Oid} (hw : Sound w)
    (hg : w.heap.get p = some ⟨some b, .group g⟩) (l : List ℕ) (ho : w.ownerOf i = some o) :
    (w.put p ⟨some b, .group { g with students := l }⟩).ownerOf i = some o := by
  have hext : Extends (· = p) w (w.put p ⟨some b, .group { g with students := l }⟩) := .put hw hg rfl rfl (.inl rfl)
  refine hext.ownerOf hw ?_ ?_ ho
  · rintro q hq rfl
    obtain ⟨c, x, hx, -, hk⟩ := hw.entry _ _ hq
    obtain ⟨-, rfl⟩ : b = c ∧ Fields.group g = x := by simpa [hg] using hx
    cases hk
  · rw [cached_assignStudents hg]
    cases w.cached .infos i with
    | none => exact .inl rfl
    | some q => exact .inr (by simp)

theorem ownerOf_loadStudents {p : ℕ} {b : IFromDB} {g : Group} {vs : List Element} {i o : Oid} {u : Unit} (hw : Sound w)
    (hg : w.heap.get p = some ⟨some b, .group g⟩) (ho : w.ownerOf i = some o)
    (hr : run (GroupDB.loadStudents p vs) w = .ok (u, w')) : w'.ownerOf i = some o := by
  induction vs generalizing w g with
  | nil =>
    obtain ⟨-, rfl⟩ := (run_pure_iff _).mp hr
    exact ho
  | cons v vs ih =>
    obtain ⟨j, r, w₁, rfl, hlook, hrest⟩ := run_loadStudents_cons_iff.mp hr
    have hl := (run_infosGetFromDB_iff (hw.live .infos)).mp hlook
    have hext : Extends (· = p) w w₁ := .looked hw hl fun c hc => by
      obtain rfl := Option.some.inj hc
      simp [DBClass.kind]
    have hw₁ := hext.sound
    have ho₁ := hl.ownerOf hw ho
    have hg₁ := hl.get hg
    rcases hrest with ⟨-, hr⟩ | ⟨q, c, x, -, -, -, ⟨-, hr⟩ | ⟨-, b', g', hg', hr⟩⟩
    · exact ih hw₁ hg₁ ho₁ hr
    · exact ih hw₁ hg₁ ho₁ hr
    · obtain ⟨rfl, rfl⟩ : some b = b' ∧ g = g' := by simpa [hg₁] using hg'
      have hput : Extends (· = p) w₁ (w₁.put p ⟨some b, .group { g with students := g.students ++ [q] }⟩) :=
        .put hw₁ hg₁ rfl rfl (.inl rfl)
      exact ih (g := { g with students := g.students ++ [q] }) hput.sound (by rw [Lib.Conf.get_put hg₁, if_pos rfl])
        (ownerOf_assignStudents hw₁ hg₁ _ ho₁) hr

/-- The owners of the students are the same after they were listed. -/
theorem ownerOf_getStudents {p : ℕ} {l : List ℕ} {i o : Oid} (hw : Sound w) (ho : w.ownerOf i = some o)
    (hr : run (GroupDB.getStudents p) w = .ok (l, w')) : w'.ownerOf i = some o := by
  obtain ⟨b, g, v, hg, -, hr, -⟩ := run_getStudents_iff.mp hr
  have hput : Extends (· = p) w (w.put p ⟨some b, .group { g with students := [] }⟩) := .put hw hg rfl rfl (.inl rfl)
  have hg₀ : (w.put p ⟨some b, .group { g with students := [] }⟩).heap.get p =
      some ⟨some b, .group { g with students := [] }⟩ := by rw [Lib.Conf.get_put hg, if_pos rfl]
  have ho₀ := ownerOf_assignStudents hw hg [] ho
  rcases hr with ⟨vs, -, hr⟩ | ⟨-, rfl⟩
  · exact ownerOf_loadStudents hput.sound hg₀ ho₀ hr
  · exact ho₀

/-! ### The loop over the students -/

theorem run_hasAccount_cons {acc q : ℕ} {l : List ℕ} {r : Bool} (hw : Sound w)
    (hr : run (AdminWindow.hasAccount acc (q :: l)) w = .ok (r, w')) : ∃ p w₁ i j, GotBy w .getStudentOwner q (some p) w₁ ∧
      Visits (· = q) w w₁ ∧ w₁.idOf p = some i ∧ w₁.idOf acc = some j ∧
        (i = j ∧ r = true ∧ w' = w₁ ∨ i ≠ j ∧ run (AdminWindow.hasAccount acc l) w₁ = .ok (r, w')) := by
  simp only [AdminWindow.hasAccount, run_bind_iff] at hr
  obtain ⟨owner, w₁, hget, hr⟩ := hr
  cases owner with
  | none => exact ((run_fault_iff _).mp hr).elim
  | some p =>
    simp only [run_bind_iff, run_fromDB_iff] at hr
    obtain ⟨b, _, ⟨hb, rfl⟩, c, _, ⟨hc, rfl⟩, hr⟩ := hr
    obtain ⟨x, hx⟩ := header_eq_ok.mp hb
    obtain ⟨y, hy⟩ := header_eq_ok.mp hc
    refine ⟨p, _, b.id, c.id, run_getter (g := .getStudentOwner) hw hget, visits_getter (g := .getStudentOwner) hw hget,
      Lib.Conf.idOf_of_get hx, Lib.Conf.idOf_of_get hy, ?_⟩
    split_ifs at hr with he
    · obtain ⟨rfl, rfl⟩ := (run_pure_iff _).mp hr
      exact .inl ⟨he, rfl, rfl⟩
    · exact .inr ⟨he, hr⟩

/-- The loop changes the students only. -/
theorem visits_hasAccount {acc : ℕ} {l : List ℕ} {r : Bool} (hw : Sound w)
    (hr : run (AdminWindow.hasAccount acc l) w = .ok (r, w')) : Visits (· ∈ l) w w' := by
  induction l generalizing w with
  | nil =>
    obtain ⟨-, rfl⟩ := (run_pure_iff _).mp hr
    exact ⟨.refl hw, .refl⟩
  | cons q l ih =>
    have hhead : ∀ p, p = q → p ∈ q :: l := fun p hp => List.mem_cons.mpr (.inl hp)
    obtain ⟨p, w₁, i, j, -, hv, -, -, ⟨-, -, rfl⟩ | ⟨-, hr⟩⟩ := run_hasAccount_cons hw hr
    · exact hv.mono hhead
    · exact (hv.mono hhead).trans ((ih hv.grown.sound hr).mono fun p => List.mem_cons_of_mem _)

/-- The loop finds a student that the account owns. -/
theorem hasAccount_finds {acc q : ℕ} {l : List ℕ} {o : Oid} (hw : Sound w)
    (hr : run (AdminWindow.hasAccount acc l) w = .ok (false, w')) (hq : q ∈ l) (hacc : w.idOf acc = some o)
    (hl : ∀ p ∈ l, ∃ b x, w.heap.get p = some ⟨some b, x⟩) : w.namedBy q .owner ≠ some o := by
  induction l generalizing w with
  | nil => cases hq
  | cons p l ih =>
    obtain ⟨t, w₁, i, j, hgot, hv, hi, hj, ⟨-, hf, -⟩ | ⟨hne, hr⟩⟩ := run_hasAccount_cons hw hr
    · cases hf
    have hown : w₁.namedBy p .owner = w.namedBy p .owner := by
      exact (by rw [Lib.Conf.namedBy, show w₁.refOf p .owner = _ from (hgot.alive hw).2] :
        w₁.namedBy p .owner = w₁.idOf t).trans (hgot.idOf hw (by simp))
    have hj' : j = o := by
      have := hv.grown.idOf hacc
      rw [hj] at this
      exact Option.some.inj this
    subst hj'
    intro hnamed
    have hnamed₁ : w₁.namedBy q .owner = some j := by
      by_cases hqp : q = p
      · subst hqp
        rw [hown, hnamed]
      · obtain ⟨b, x, hg⟩ := hl q hq
        exact hv.grown.namedBy hqp hg hnamed
    rcases List.mem_cons.mp hq with rfl | hq
    · have := hgot.idOf hw (by simp)
      rw [hi] at this
      exact hne (Option.some.inj (this.trans hnamed))
    · refine ih hv.grown.sound hr hq hj (fun p' hp' => ?_) hnamed₁
      obtain ⟨b, x, hg⟩ := hl p' (List.mem_cons_of_mem _ hp')
      obtain ⟨b', x', hg', -⟩ := hv.grown.same _ _ _ hg
      exact ⟨b', x', hg'⟩

end Cbt
