import Cbt.Caches.Identity

/-! `GetAll` without a query. While `IsChanged` is false the cache of a controller
holds an object for every document the query admits and for no other, so the
cache is the listing in another order. Infos are admitted by their owner: what
is loaded or written while nothing has changed has to agree with that. -/

namespace Cbt

open Lib.Command (run_bind_iff run_pure_iff run_fault_iff run_ofExcept_iff)

variable {w w' : World} {k : Kind}

/-- Every stored document is admitted or not, and the cached ids are those of the admitted ones. -/
def Exact (w : World) (k : Kind) : Prop :=
  ∀ o d, w.stored k o = some d → ∃ b, Controller.admits k d = .ok b ∧
    (b = true ↔ ∃ p ∈ w.cash k, w.idOf p = some o)

/-- The cache is the listing when nothing has changed. -/
def Complete (w : World) (k : Kind) : Prop := w.isChanged k = false → Exact w k

/-- What may be loaded is admitted when nothing has changed. -/
def AdmitsLoads (L : Loads) (w : World) : Prop :=
  w.isChanged .infos = false → ∀ o d, L .infos o → w.cached .infos o = none → w.stored .infos o = some d →
    Controller.admits .infos d = .ok true

theorem admits_of_ne (hk : k ≠ .infos) (d : Doc) : Controller.admits k d = .ok true := by
  cases k <;> first | rfl | exact absurd rfl hk

/-- A cache stays complete when it, its flag and its documents stay, up to the ids. -/
theorem Complete.congr (h : Complete w k) (hc : w'.isChanged k = w.isChanged k) (hcash : w'.cash k = w.cash k)
    (hid : ∀ p ∈ w.cash k, w'.idOf p = w.idOf p) (hs : w'.stored k = w.stored k) : Complete w' k := by
  intro hn o d hd
  obtain ⟨b, hb, hiff⟩ := h (by rw [← hc, hn]) o d (by rw [← hs, hd])
  refine ⟨b, hb, hiff.trans ?_⟩
  rw [hcash]
  constructor
  · rintro ⟨p, hp, ho⟩; exact ⟨p, hp, by rw [hid p hp, ho]⟩
  · rintro ⟨p, hp, ho⟩; exact ⟨p, hp, by rw [← hid p hp, ho]⟩

/-- In a complete cache nothing admitted is missing. -/
theorem Complete.not_load {o : Oid} {d : Doc} (h : Complete w k) (hn : w.isChanged k = false)
    (hc : w.cached k o = none) (hs : w.stored k o = some d) (ha : Controller.admits k d = .ok true) : False := by
  obtain ⟨b, hb, hiff⟩ := h hn o d hs
  obtain rfl : true = b := Except.ok.inj (ha.symm.trans hb)
  obtain ⟨p, hp, ho⟩ := hiff.mp rfl
  exact Lib.Conf.cached_eq_none.mp hc p hp ho

theorem Micro.complete {L : Loads} (h : Micro L w w') (hw : Sound w) (hc : ∀ k, Complete w k)
    (ha : AdmitsLoads L w) (k : Kind) : Complete w' k := by
  have his : ∀ p ∈ w.cash k, w'.idOf p = w.idOf p := fun p hp =>
    idOf_of_is (fun o c => Quiet.is (.single h)) (hw.live k p hp)
  have hst : w'.stored = w.stored := by unfold Lib.Conf.stored; rw [h.env]
  rcases h.cash k with he | ⟨b, x, hm, hn, hs, -, -, rfl⟩
  · exact (hc k).congr (by rw [h.isChanged]) he his (by rw [hst])
  · intro hch
    rw [Lib.Conf.isChanged_load] at hch
    refine (hc k |>.not_load hch hn hs ?_).elim
    by_cases hk : k = .infos
    · subst hk; exact ha hch _ _ hm hn hs
    · exact admits_of_ne hk _

/-- An id that is not cached after loading was not cached before. -/
theorem cached_eq_none_of_grows {o : Oid} (hw : Sound w) (h : Grows w w') (hc : w'.cached k o = none) :
    w.cached k o = none := by
  rw [Lib.Conf.cached_eq_none] at hc ⊢
  intro p hp ho
  exact hc p (h.1 k p hp) (by rw [idOf_of_is (h.2 p) (hw.live k p hp), ho])

theorem AdmitsLoads.quiet {L : Loads} (ha : AdmitsLoads L w) (hw : Sound w) (h : Quiet L w w') :
    AdmitsLoads L w' := by
  intro hn o d hm hc hs
  rw [h.isChanged] at hn
  rw [h.stored] at hs
  exact ha hn o d hm (cached_eq_none_of_grows hw h.grows hc) hs

theorem Quiet.complete {L : Loads} (h : Quiet L w w') (hw : Sound w) (hc : ∀ k, Complete w k)
    (ha : AdmitsLoads L w) : ∀ k, Complete w' k := by
  induction h with
  | refl => exact hc
  | tail h h' ih => exact h'.complete (Quiet.sound h hw) ih (ha.quiet hw h)

/-! ### Updates -/

/-- The owner of the object at an address exists. -/
def Lib.Conf.Owned (w : World) (p : ℕ) : Prop := ∃ q, w.refOf p .owner = some (.to q) ∧ w.Alive q

/-- The object at an address has a place for an owner, and none that exists. -/
def Lib.Conf.Ownerless (w : World) (p : ℕ) : Prop :=
  w.refOf p .owner = some .null ∨ ∃ q, w.refOf p .owner = some (.to q) ∧ ¬ w.Alive q

/-- What an update of an info writes agrees with the cache: a cached info has an owner, another one has none. -/
def Agrees (w : World) (p : ℕ) : Prop :=
  w.isChanged .infos = false → p ∈ w.cash .infos ∧ w.Owned p ∨ p ∉ w.cash .infos ∧ w.Ownerless p

/-- The owner an info writes. -/
theorem toDoc_owner {b : IFromDB} {x : Fields} {d : Doc} {p : ℕ} (hp : w.heap.get p = some ⟨some b, x⟩)
    (hd : Obj.toDoc w.heap ⟨some b, x⟩ = .ok d) :
    (w.Owned p → ∃ o, d.get? "Owner" = some (.oid o)) ∧ (w.Ownerless p → d.get? "Owner" = some nullValue) := by
  have halive : ∀ {q b'}, header w.heap q = .ok b' → (w.Alive q ↔ b'.isExist = true) := by
    intro q b' hq
    obtain ⟨y, hy⟩ := header_eq_ok.mp hq
    constructor
    · rintro ⟨b₁, y₁, h₁, hb₁⟩
      obtain ⟨rfl, rfl⟩ : b' = b₁ ∧ y = y₁ := by simpa [hy] using h₁
      exact hb₁
    · exact fun hb => ⟨b', y, hy, hb⟩
  have main : ∀ {i : AdditionalInfo} {rest : Doc} {di : Doc}, x.ref .owner = some i.owner →
      i.build w.heap = .ok di → d = b.build ++ (di ++ rest) →
      (w.Owned p → ∃ o, d.get? "Owner" = some (.oid o)) ∧ (w.Ownerless p → d.get? "Owner" = some nullValue) := by
    intro i rest di hx hi hd
    simp only [AdditionalInfo.build, bind, Except.bind, pure, Except.pure] at hi
    split at hi
    · cases hi
    rename_i dr hr
    cases hi
    have href : w.refOf p .owner = some i.owner := by rw [refOf_of_get hp, hx]
    rcases buildRef_eq_ok hr with ⟨rfl, hn⟩ | ⟨q, b', hq, hb', he, rfl⟩
    · refine ⟨?_, fun _ => by simp [hd, IFromDB.build]⟩
      rintro ⟨q, hq, ha⟩
      rw [href, Option.some.injEq] at hq
      rcases hn with hn | ⟨q', b', hq', hb', he⟩
      · rw [hn] at hq; cases hq
      · rw [hq'] at hq
        obtain rfl : q' = q := by simpa using hq
        rw [(halive hb').mp ha] at he
        cases he
    · refine ⟨fun _ => ⟨b'.id, by simp [hd, IFromDB.build]⟩, ?_⟩
      rintro (hn | ⟨q', hq', hna⟩)
      · rw [href, Option.some.injEq, hq] at hn; cases hn
      · rw [href, Option.some.injEq, hq] at hq'
        obtain rfl : q = q' := by simpa using hq'
        exact absurd ((halive hb').mpr he) hna
  simp only [Obj.toDoc, bind, Except.bind, pure, Except.pure] at hd
  split at hd
  · cases hd
  rename_i dx hx
  cases hd
  cases x with
  | student s =>
    simp only [Fields.toDoc, bind, Except.bind, pure, Except.pure] at hx
    split at hx
    · cases hx
    rename_i di hi
    split at hx
    · cases hx
    cases hx
    exact main rfl hi rfl
  | teacher t =>
    simp only [Fields.toDoc, bind, Except.bind, pure, Except.pure] at hx
    split at hx
    · cases hx
    rename_i di hi
    cases hx
    exact main rfl hi rfl
  | _ => exact ⟨by rintro ⟨q, hq, -⟩; simp [refOf_of_get hp, Fields.ref] at hq,
      by rintro (hq | ⟨q, hq, -⟩) <;> simp [refOf_of_get hp, Fields.ref] at hq⟩

theorem admits_infos {d : Doc} {v : Bson} (h : d.get? "Owner" = some v) :
    Controller.admits .infos d = .ok v.isOid := by
  simp [Controller.admits, Doc.elem, h, bind, Except.bind, pure, Except.pure]

/-- An update keeps the caches complete. -/
theorem complete_update {el : ℕ} {r : Bool} (hc : ∀ k, Complete w k)
    (h : run (Controller.update k el) w = .ok (r, w')) (hn : NoTwin w k el) (ha : k = .infos → Agrees w el) :
    ∀ k, Complete w' k := by
  have hid := fun q => idOf_update (p := q) h
  obtain ⟨b, x, d, hd, hel, hk, hs, -, rfl⟩ := run_update_iff.mp h
  intro k' hch o d' hd'
  rw [isChanged_refresh] at hch
  rw [stored_refresh hd hs] at hd'
  simp only [cash_refresh, hid]
  split_ifs at hd' with he
  · obtain ⟨rfl, rfl⟩ := he
    obtain rfl := Option.some.inj hd'
    by_cases hki : k' = .infos
    · subst hki
      rcases ha rfl hch with ⟨hin, ho⟩ | ⟨hout, ho⟩
      · obtain ⟨i, hi⟩ := (toDoc_owner hel hd).1 ho
        exact ⟨true, admits_infos hi, by simpa using ⟨el, hin, Lib.Conf.idOf_of_get hel⟩⟩
      · refine ⟨false, admits_infos ((toDoc_owner hel hd).2 ho), ?_⟩
        simp only [Bool.false_eq_true, false_iff]
        rintro ⟨p, hp, hpi⟩
        have := hn p hp (by rw [hpi, Lib.Conf.idOf_of_get hel])
        exact hout (this ▸ hp)
    · obtain ⟨d₀, h₀⟩ := Option.isSome_iff_exists.mp hs
      obtain ⟨b₀, hb₀, hiff⟩ := hc k' hch _ _ h₀
      rw [admits_of_ne hki] at hb₀
      exact ⟨b₀, by rw [admits_of_ne hki]; exact hb₀, hiff⟩
  · exact hc k' hch o d' hd'

/-- Owners and existence are the same in two worlds. -/
structure SameOwners (w w' : World) : Prop where
  ref : ∀ p, w'.refOf p .owner = w.refOf p .owner
  alive : ∀ p, w'.Alive p ↔ w.Alive p

theorem SameOwners.trans {w₁ w₂ w₃ : World} (h : SameOwners w₁ w₂) (h' : SameOwners w₂ w₃) : SameOwners w₁ w₃ :=
  ⟨fun p => (h'.ref p).trans (h.ref p), fun p => (h'.alive p).trans (h.alive p)⟩

theorem sameOwners_put {p : ℕ} {o : Obj} (o' : Obj) (hp : w.heap.get p = some o)
    (hb : o'.fromDB.map (·.isExist) = o.fromDB.map (·.isExist)) (hr : o'.fields.ref .owner = o.fields.ref .owner) :
    SameOwners w (w.put p o') := by
  have hg : ∀ q, (w.put p o').heap.get q = if q = p then some o' else w.heap.get q := fun q => by
    rw [Lib.Conf.heap_put, Lib.Heap.get_set _ hp]
  have ha : ∀ {o₁ o₂ : Obj}, o₁.fromDB.map (·.isExist) = o₂.fromDB.map (·.isExist) →
      (∃ b x, o₁ = ⟨some b, x⟩ ∧ b.isExist = true) → ∃ b x, o₂ = ⟨some b, x⟩ ∧ b.isExist = true := by
    rintro o₁ ⟨_ | b₂, x₂⟩ he ⟨b, x, rfl, hb⟩
    · cases he
    · exact ⟨b₂, x₂, rfl, by simpa [hb] using he.symm⟩
  refine ⟨fun q => ?_, fun q => ?_⟩
  · simp only [Lib.Conf.refOf, hg]
    split_ifs with hq
    · subst hq; simp [hp, hr]
    · rfl
  · simp only [Lib.Conf.Alive, hg]
    split_ifs with hq
    · subst hq
      simp only [hp, Option.some.injEq]
      exact ⟨ha hb, ha hb.symm⟩
    · rfl

theorem sameOwners_update {el : ℕ} {r : Bool} (h : run (Controller.update k el) w = .ok (r, w')) :
    SameOwners w w' := by
  obtain ⟨b, x, d, hd, hel, -, -, -, rfl⟩ := run_update_iff.mp h
  have h₁ : SameOwners w (w.setEnv (w.env.replace k b.id d (toDoc_id hd))) := ⟨fun _ => rfl, fun _ => .rfl⟩
  exact h₁.trans (sameOwners_put _ hel rfl rfl)

theorem sameOwners_setRef {f : RefField} {this : ℕ} {v : Option ℕ} {u : Unit} (hf : f ≠ .owner)
    (h : run (setRef f this v) w = .ok (u, w')) : SameOwners w w' := by
  cases v with
  | none =>
    obtain ⟨o, v, ho, -, rfl⟩ := run_setRef_none_iff.mp h
    exact sameOwners_put (o.setRef f .null) ho rfl (Fields.ref_setRef_of_ne hf.symm _ _)
  | some q =>
    obtain ⟨o, v, oq, b, x, ho, -, -, -, hb, rfl⟩ := run_setRef_some_iff.mp h
    have h₁ := sameOwners_put (o.setRef f (.to q)) ho rfl (Fields.ref_setRef_of_ne hf.symm _ _)
    exact h₁.trans (sameOwners_put _ hb rfl rfl)

theorem Agrees.congr {p : ℕ} (h : Agrees w p) (ho : SameOwners w w') (hs : Steady w w') : Agrees w' p := by
  have howned : w'.Owned p ↔ w.Owned p := by simp only [Lib.Conf.Owned, ho.ref, ho.alive]
  have hless : w'.Ownerless p ↔ w.Ownerless p := by simp only [Lib.Conf.Ownerless, ho.ref, ho.alive]
  unfold Agrees
  rw [hs.isChanged, hs.cash, howned, hless]
  exact h

/-- The two updates of `addStudent` and `deleteStudent`, with the assignments between them. -/
theorem complete_members (hw : Coherent w) (hc : ∀ k, Complete w k) {this stud : ℕ} {c : Option IFromDB} {g : Group}
    {l : List ℕ} {v : Option ℕ} {n : ℤ} {w₂ w₃ w₄ : World} (hg : w.heap.get this = some ⟨c, .group g⟩)
    (h₂ : run (Controller.update .groups this) (w.put this ⟨c, .group { g with students := l }⟩) = .ok (true, w₂))
    (h₃ : run (setRef .group stud v) w₂ = .ok ((), w₃))
    (h₄ : run (Controller.update .infos stud) w₃ = .ok (true, w₄)) (h₅ : run (own stud n) w₄ = .ok ((), w'))
    (hng : NoTwin w .groups this) (hns : NoTwin w .infos stud) (ha : Agrees w stud) : ∀ k, Complete w' k := by
  have hn : ∀ {w : World}, AdmitsLoads never w := fun _ _ _ hm => hm.elim
  have q₁ : Quiet never w _ := quiet_assignStudents hg l
  have s₁ := steady_assignStudents hg l
  have o₁ : SameOwners w (w.put this ⟨c, .group { g with students := l }⟩) := sameOwners_put _ hg rfl rfl
  have c₁ := q₁.complete hw.toSound hc hn
  have c₂ := complete_update c₁ h₂ (s₁.noTwin hw.toSound (idOf_assignStudents hg l) hng) (by simp)
  have s₂ := s₁.trans (steady_update h₂)
  have w₂s := s₂.sound hw.toSound
  have q₃ := quiet_setRef w₂s h₃
  have s₃ := s₂.trans q₃.steady
  have o₃ := (o₁.trans (sameOwners_update h₂)).trans (sameOwners_setRef (by simp) h₃)
  have hid : w₃.idOf stud = w.idOf stud := by
    rw [idOf_setRef h₃, idOf_update h₂, idOf_assignStudents hg]
  have c₄ := complete_update (q₃.complete w₂s c₂ hn) h₄ (s₃.noTwin hw.toSound hid hns) fun _ => ha.congr o₃ s₃
  have s₄ := (s₃.trans (steady_update h₄)).sound hw.toSound
  exact (quiet_own h₅).complete s₄ c₄ hn

/-! ### Deletions and additions -/

theorem complete_of_changed (h : w.isChanged k = true) : Complete w k := by
  intro hn
  rw [h] at hn
  cases hn

theorem Deleted.complete {oid : Oid} (h : Deleted w k oid w') (hw : Sound w) (hc : ∀ k, Complete w k) (k' : Kind) :
    Complete w' k' := by
  obtain ⟨p, b, x, db, hv, hp, rfl, hdb⟩ := h.effect
  by_cases hk : k' = k
  · subst hk
    exact complete_of_changed (by simp [Lib.Conf.isChanged_setChanged])
  · refine (hc k').congr (by simp [Lib.Conf.isChanged_setChanged, hk]) (by simp [Lib.Conf.cash_setCash, hk]) ?_ ?_
    · intro q hq
      have hqp : q ≠ p := by
        rintro rfl
        obtain ⟨b₁, x₁, h₁, -, hk₁⟩ := hw.entry k q (victim_mem hv)
        obtain ⟨b₂, x₂, h₂, -, hk₂⟩ := hw.entry k' q hq
        obtain ⟨rfl, rfl⟩ : b₁ = b₂ ∧ x₁ = x₂ := by simpa [h₁] using h₂
        exact hk (hk₂.symm.trans hk₁)
      rw [Lib.Conf.idOf, Lib.Conf.heap_setEnv, Lib.Conf.heap_setCash,
        get_dismiss_of_ne _ _ _ _ (by simpa using hp) hqp]
      rfl
    · funext o
      rw [Lib.Conf.stored_setEnv, hdb, if_neg (by simp [hk])]

theorem complete_post {e : ℕ} {x : Fields} (hw : Sound w) (hc : ∀ k, Complete w k)
    (he : w.heap.get e = some ⟨none, x⟩) (d : Doc) (k' : Kind) : Complete (w.post k e d) k' := by
  by_cases hk : k' = k
  · subst hk
    exact complete_of_changed (by simp [isChanged_post])
  · refine (hc k').congr (by simp [isChanged_post, hk]) (by simp) (fun q hq => ?_) ?_
    · exact idOf_of_is ((grows_post he d).2 q) (hw.live k' q hq)
    · funext o
      rw [stored_post, if_neg (by simp [hk])]

/-- A cache that changed may take any object. -/
theorem complete_load {o : Obj} (hw : Sound w) (hc : ∀ k, Complete w k) (hch : w.isChanged k = true) (k' : Kind) :
    Complete (w.load k o) k' := by
  by_cases hk : k' = k
  · subst hk
    exact complete_of_changed (by simpa using hch)
  · refine (hc k').congr (by simp) (by simp [Lib.Conf.cash_load, hk]) (fun q hq => ?_) (by simp)
    exact idOf_of_is ((grows_load w k o).2 q) (hw.live k' q hq)

theorem admitsLoads_of_changed {L : Loads} (h : w.isChanged .infos = true) : AdmitsLoads L w := by
  intro hn
  rw [h] at hn
  cases hn

theorem agrees_of_changed {p : ℕ} (h : w.isChanged .infos = true) : Agrees w p := by
  intro hn
  rw [h] at hn
  cases hn

theorem complete_attached {acc res : ℕ} (hw : Coherent w) (hc : ∀ k, Complete w k)
    (hch : w.isChanged .infos = true) (h : Attached w acc res w') (hacc : acc ∈ w.cash .accounts) :
    ∀ k, Complete w' k := by
  obtain ⟨w₁, w₂, h₁, h₂, h₃⟩ := h.steps
  have q₁ := quiet_setRef hw.toSound h₁
  have c₁ := q₁.coherent hw
  have d₂ := complete_update (q₁.complete hw.toSound hc (admitsLoads_of_changed hch)) h₂
    (c₁.noTwin (q₁.mem_cash hacc)) (by simp)
  have hch₂ : w₂.isChanged .infos = true := by rw [(steady_update h₂).isChanged, q₁.isChanged, hch]
  obtain ⟨b, x, hres, rfl⟩ := run_own_iff.mp h₃
  intro k'
  by_cases hk : k' = .infos
  · subst hk
    exact complete_of_changed (by simpa using hch₂)
  · refine (d₂ k').congr (by simp) (by simp [Lib.Conf.cash_setCash, hk]) (fun q _ => ?_) (by simp)
    have hres' : w₂.heap.get res = some ⟨some b, x⟩ := hres
    rw [Lib.Conf.idOf, Lib.Conf.heap_put, Lib.Heap.get_set _ hres]
    split_ifs with hq
    · subst hq; simp [Lib.Conf.idOf, hres', IFromDB.own]
    · rfl

theorem complete_grouped {temp : ℕ} (hw : Coherent w) (hc : ∀ k, Complete w k) (hch : w.isChanged .infos = true)
    (h : Grouped w temp w') (hn : w.refOf temp .group = some .null) (ht : Filed w .infos temp) :
    (∀ k, Complete w' k) ∧ w'.isChanged .infos = true := by
  cases h with
  | none h =>
    have q := quiet_getGroup hw.toSound h
    exact ⟨q.complete hw.toSound hc (admitsLoads_of_changed hch), by rw [q.isChanged, hch]⟩
  | some h h' he =>
    rename_i q g w₁ w₂
    have q₁ := quiet_getGroup hw.toSound h
    have c₁ := q₁.coherent hw
    have hch₁ : w₁.isChanged .infos = true := by rw [q₁.isChanged, hch]
    obtain ⟨hmem, href⟩ := (run_getter (g := .getStudentGroup) hw.toSound h).mem_of_null hn
    obtain ⟨hgq, rfl⟩ := (run_getter (g := .getStudentGroup) c₁.toSound h').of_to href (c₁.live _ q hmem)
    obtain rfl := Option.some.inj hgq
    have f₁ := ht.quiet hw.toSound q₁ (by simp)
    have d₁ := q₁.complete hw.toSound hc (admitsLoads_of_changed hch)
    obtain ⟨bs, st, c, gr, w₃, w₄, w₅, hs, hg, h₃, h₄, h₅, h₆⟩ := he.steps
    exact ⟨complete_members c₁ d₁ hg h₃ h₄ h₅ h₆ (c₁.noTwin hmem) f₁.noTwin (agrees_of_changed hch₁),
      by rw [(he.steady c₁.toSound).isChanged, hch₁]⟩

theorem complete_infoAdded {id : Oid} {t : AccountType} {r : Option ℕ} (hw : Coherent w) (hc : ∀ k, Complete w k)
    (hch : w.isChanged .infos = true) (h : InfoAdded w id t r w') (hid : ∀ q ∈ w.cash .infos, w.idOf q ≠ some id) :
    ∀ k, Complete w' k := by
  have cpush : ∀ o, Coherent (w.push o) := fun o => hw.push o
  have dpush : ∀ o k, Complete (w.push o) k := fun o k =>
    (hc k).congr rfl rfl (fun p hp => idOf_of_is ((steady_push w o).is p) (hw.toSound.live k p hp)) rfl
  have hchp : ∀ o, (w.push o).isChanged .infos = true := fun o => hch
  cases h with
  | admin => exact hc
  | student hs ho hg he ha =>
    rename_i d o acc w₁ w₂
    have q₁ := quiet_getOwner (g := .getStudentOwner) rfl (cpush o).toSound hg
    have got := run_getter (g := .getStudentOwner) (cpush o).toSound hg
    obtain ⟨hacc, -⟩ := got.mem_of_null (refOf_ofDoc ho (.inr rfl))
    have f₁ := (filed_push hw hs ho rfl hid).quiet (cpush o).toSound q₁ (by simp)
    have hn : w₁.refOf w.heap.next .group = some .null := by
      rw [got.refOf (push_is hs ho).alive (.inr (by simp [Getter.field]))]
      exact refOf_ofDoc ho (.inl rfl)
    have d₁ := q₁.complete (cpush o).toSound (dpush o) (admitsLoads_of_changed (hchp o))
    have hch₁ : w₁.isChanged .infos = true := by rw [q₁.isChanged]; exact hch
    obtain ⟨c₂, f₂, hcash⟩ := (q₁.coherent (cpush o)).grouped he hn f₁
    obtain ⟨d₂, hch₂⟩ := complete_grouped (q₁.coherent (cpush o)) d₁ hch₁ he hn f₁
    exact complete_attached c₂ d₂ hch₂ ha (hcash acc hacc)
  | teacher hs ho hg ha =>
    rename_i d o acc w₁
    have q₁ := quiet_getOwner (g := .getTeacherOwner) rfl (cpush o).toSound hg
    obtain ⟨hacc, -⟩ := (run_getter (g := .getTeacherOwner) (cpush o).toSound hg).mem_of_null (refOf_ofDoc_teacher ho)
    have d₁ := q₁.complete (cpush o).toSound (dpush o) (admitsLoads_of_changed (hchp o))
    exact complete_attached (q₁.coherent (cpush o)) d₁ (by rw [q₁.isChanged]; exact hch) ha hacc

/-! ### Listing -/

/-- What a listing lists: the object for each document that is admitted, and nothing else is loaded. -/
structure Gathered (w : World) (k : Kind) (keep : Doc → Except Fault Bool) (docs : List Doc) (w' : World) : Prop where
  all : ∀ d ∈ docs, ∃ b, keep d = .ok b ∧
    (b = true → ∃ o, d.get? "_id" = some (.oid o) ∧ ∃ p ∈ w'.cash k, w'.idOf p = some o)
  new : ∀ p ∈ w'.cash k, p ∈ w.cash k ∨
    ∃ d ∈ docs, ∃ o, keep d = .ok true ∧ d.get? "_id" = some (.oid o) ∧ w'.idOf p = some o

theorem gathered_of_collect {keep : Doc → Except Fault Bool} {counted : Bool} {docs : List Doc}
    {r : List ℕ} (hw : Sound w) (hd : Listed w k docs)
    (h : run (Controller.collect k keep counted docs) w = .ok (r, w')) : Gathered w k keep docs w' := by
  induction docs generalizing w r with
  | nil =>
    obtain ⟨-, rfl⟩ := (run_pure_iff _).mp h
    exact ⟨by simp, fun p hp => .inl hp⟩
  | cons d docs ih =>
    have old : ∀ {w₁ : World} {oid : Oid} {p : ℕ}, Sound w₁ → p ∈ w₁.cash k → w₁.idOf p = some oid →
        Quiet (fun k' _ => k' = k) w₁ w' → p ∈ w'.cash k ∧ w'.idOf p = some oid := by
      intro w₁ oid p hw₁ hp hid hq
      exact ⟨hq.mem_cash hp, by rw [idOf_of_is (fun o c => hq.is) (hw₁.live k p hp), hid]⟩
    rcases (run_collect_cons_iff (hw.live k)).mp h with
      ⟨ha, h⟩ | ⟨oid, r', ha, hi, ⟨p, hc, -, h⟩ | ⟨o, hn, ho, -, h⟩⟩
    · have ih := ih hw hd.tail h
      refine ⟨List.forall_mem_cons.mpr ⟨⟨false, ha, by simp⟩, ih.all⟩, fun p hp => ?_⟩
      rcases ih.new p hp with hp | ⟨d', hd', h'⟩
      · exact .inl hp
      · exact .inr ⟨d', List.mem_cons_of_mem _ hd', h'⟩
    · have hq := quiet_collect (L := fun k' _ => k' = k) (by simp) hw hd.tail h
      have ih := ih hw hd.tail h
      obtain ⟨hp, hid⟩ := old hw (Lib.Conf.cached_mem hc) (Lib.Conf.cached_idOf hc) hq
      refine ⟨List.forall_mem_cons.mpr ⟨⟨true, ha, fun _ => ⟨oid, hi, p, hp, hid⟩⟩, ih.all⟩, fun p hp => ?_⟩
      rcases ih.new p hp with hp | ⟨d', hd', h'⟩
      · exact .inl hp
      · exact .inr ⟨d', List.mem_cons_of_mem _ hd', h'⟩
    · have hs := hd d (by simp) oid hi
      have hq₁ : Quiet (fun k' _ => k' = k) w (w.load k (o.listed counted)) := quiet_listed (by simp) hs hn ho
      have hw₁ := hq₁.sound hw
      have hd₁ := hd.tail.of_stored hq₁.stored
      have hq := quiet_collect (L := fun k' _ => k' = k) (by simp) hw₁ hd₁ h
      have ih := ih hw₁ hd₁ h
      have hnew : (w.load k (o.listed counted)).idOf w.heap.next = some oid := by
        obtain ⟨b, x, he, hb, -⟩ := listed_stored counted hs ho
        simp only [IFromDB.core, Prod.mk.injEq] at hb
        simp [Lib.Conf.idOf, he, hb.1]
      have hin : w.heap.next ∈ (w.load k (o.listed counted)).cash k := by simp [Lib.Conf.cash_load]
      obtain ⟨hp, hid⟩ := old hw₁ hin hnew hq
      refine ⟨List.forall_mem_cons.mpr ⟨⟨true, ha, fun _ => ⟨oid, hi, _, hp, hid⟩⟩, ih.all⟩, fun p hp => ?_⟩
      rcases ih.new p hp with hp | ⟨d', hd', h'⟩
      · rw [Lib.Conf.cash_load, if_pos rfl] at hp
        rcases List.mem_append.mp hp with hp | hp
        · exact .inl hp
        · obtain rfl := List.mem_singleton.mp hp
          exact .inr ⟨d, by simp, oid, ha, hi, hid⟩
      · exact .inr ⟨d', List.mem_cons_of_mem _ hd', h'⟩

theorem listed_docs (w : World) (k : Kind) : Listed w k (w.env.coll k).docs :=
  fun _ hd _ ho => Collection.get?_of_mem hd ho

/-- After the query nothing is missing from the cache, and nothing is in it that the query does not keep. -/
theorem exact_of_listing {r : List ℕ} (hw : Coherent w)
    (hl : run (Controller.collect k (Controller.admits k) false (w.env.coll k).docs) w = .ok (r, w'))
    (ha : k = .infos → ∀ p ∈ w.cash k, ∀ o d, w.idOf p = some o → w.stored k o = some d →
      Controller.admits k d = .ok true) : Exact w' k := by
  have hq := quiet_collect (L := fun k' _ => k' = k) (by simp) hw.toSound (listed_docs w k) hl
  have hg := gathered_of_collect hw.toSound (listed_docs w k) hl
  intro o d hd
  rw [hq.stored] at hd
  obtain ⟨b, hb, himp⟩ := hg.all d (mem_docs_of_stored hd)
  refine ⟨b, hb, ?_⟩
  constructor
  · intro ht
    obtain ⟨o', ho', p, hp, hid⟩ := himp ht
    rw [stored_id hd, Option.some.injEq, Bson.oid.injEq] at ho'
    exact ⟨p, hp, ho' ▸ hid⟩
  · rintro ⟨p, hp, hid⟩
    suffices hadm : Controller.admits k d = .ok true from Except.ok.inj (hb.symm.trans hadm)
    rcases hg.new p hp with hold | ⟨d', hd', o', ha', ho', hid'⟩
    · by_cases hk : k = .infos
      · refine ha hk p hold o d ?_ hd
        rw [← hid, idOf_of_is (fun o c => hq.is) (hw.live k p hold)]
      · exact admits_of_ne hk d
    · rw [hid] at hid'
      have hs' := listed_docs w k d' hd' o' ho'
      rw [← Option.some.inj hid', hd, Option.some.injEq] at hs'
      rwa [hs']

/-! ### Every run -/

/-- The states in which an action keeps the cached listing right: it makes and writes no second object, it loads
no ownerless info while the listing of the infos is cached, what it writes to an info agrees with that listing,
and no ownerless info is cached when the infos are listed. -/
def Action.lists (a : Action) (w : World) : Prop :=
  a.single w ∧ match a with
  | .getAll k => k = .infos → ∀ p ∈ w.cash k, ∀ o d, w.idOf p = some o → w.stored k o = some d →
      Controller.admits k d = .ok true
  | .update k el => k = .infos → Agrees w el
  | .addStudent _ stud => Agrees w stud
  | .deleteStudent this stud => (∃ p ∈ w.students this, w.idOf p = w.idOf stud) → Agrees w stud
  | a => AdmitsLoads (a.loads w) w

theorem Action.lists_loads {a : Action} (h : a.lists w) : AdmitsLoads (a.loads w) w := by
  cases a <;> first | exact h.2 | exact fun _ _ _ hm => hm.elim

theorem Outcome.complete {a : Action} (h : Outcome w a w') (hw : Coherent w) (hc : ∀ k, Complete w k)
    (hg : a.lists w) : ∀ k, Complete w' k := by
  cases h with
  | quiet h => exact h.complete hw.toSound hc (Action.lists_loads hg)
  | listed hch hl hq =>
    rename_i k r w₁
    have hadm : AdmitsLoads (fun k' _ => k' = k) w := by
      intro hn o d hm
      rw [← hm, hn] at hch
      cases hch
    intro k'
    by_cases hk : k' = k
    · subst hk
      intro _ o d hd
      obtain ⟨b, hb, hiff⟩ := exact_of_listing hw hl hg.2 o d hd
      exact ⟨b, hb, by rw [Lib.Conf.cash_setChanged]; exact hiff⟩
    · refine ((hq.complete hw.toSound hc hadm) k').congr (by simp [Lib.Conf.isChanged_setChanged, hk]) (by simp)
        (fun _ _ => rfl) rfl
  | loggedIn hd ho =>
    obtain ⟨x, i, hx, hi, rfl⟩ := ofDoc_eq_ok.mp ho
    cases hch : w.isChanged .accounts with
    | true => exact complete_load hw.toSound hc hch
    | false =>
      exact ((hc .accounts).not_load hch (hg.1 _ _ hd hi) (account?_stored hd hi) (admits_of_ne (by simp) _)).elim
  | added hk he hx hd ho =>
    exact complete_load (hw.toSound.post he _) (complete_post hw.toSound hc he _) (by simp [isChanged_post])
  | infoAdded he hx hd h =>
    refine complete_infoAdded (hw.post he _) (complete_post hw.toSound hc he _) (by simp [isChanged_post]) h ?_
    intro p hp
    rw [cash_post] at hp
    exact hw.idOf_post_ne he _ hp
  | deleted h => exact h.complete hw.toSound hc
  | updated h => exact complete_update hc h hg.1 hg.2
  | enrolled h =>
    obtain ⟨bs, s, c, g, w₂, w₃, w₄, hs, hgr, h₂, h₃, h₄, h₅⟩ := h.steps
    exact complete_members hw hc hgr h₂ h₃ h₄ h₅ hg.1.1 hg.1.2 hg.2
  | expelled h =>
    have hf := h.found
    obtain ⟨bs, s, c, g, l₁, p, l₂, w₂, w₃, w₄, hs, hgr, hl, -, -, h₂, h₃, h₄, h₅⟩ := h.steps
    exact complete_members hw hc hgr h₂ h₃ h₄ h₅ (hg.1 hf).1 (hg.1 hf).2 (hg.2 hf)

theorem complete_start (db : Database) (k : Kind) : Complete (World.start db) k := by
  refine complete_of_changed ?_
  simp [World.start, Process.init, Lib.Conf.isChanged]

theorem complete_of_run {db : Database} {as : List Action} (hr : Lib.Run Action.Step Action.lists (World.start db) as w) :
    Coherent w ∧ ∀ k, Complete w k := by
  refine hr.invariant (I := fun w => Coherent w ∧ ∀ k, Complete w k) ⟨coherent_start db, complete_start db⟩ ?_
  rintro a s s' ⟨hs, hc⟩ hg hstep
  have ho := outcome_of_step hs.toSound hstep
  exact ⟨ho.coherent hs hg.1, ho.complete hs hc hg⟩

/-! ### The two paths of `GetAll` -/

/-- The `_id` of a document. -/
def Doc.id? (d : Doc) : Option Oid := (d.get? "_id").bind Bson.oid?

/-- The ids the query path of `GetAll` lists. -/
def Lib.Conf.listedIds (w : World) (k : Kind) : List (Option Oid) :=
  ((w.env.coll k).docs.filter fun d => Controller.admits k d = .ok true).map Doc.id?

theorem docs_id? (w : World) (k : Kind) : ((w.env.coll k).docs).map Doc.id? = (w.env.coll k).rows.rows.map (some ·.1) := by
  simp only [Collection.docs, Lib.Table.values, List.map_map]
  refine List.map_congr_left fun r hr => ?_
  have hs : w.stored k r.1 = some r.2 := Lib.Table.mem_rows.mp hr
  simp [Doc.id?, stored_id hs, Bson.oid?]

theorem listedIds_nodup (w : World) (k : Kind) : (w.listedIds k).Nodup := by
  have hn : (((w.env.coll k).docs).map Doc.id?).Nodup := by
    rw [docs_id?]
    have h := ((w.env.coll k).rows.nodup).map (Option.some_injective _)
    rwa [List.map_map] at h
  exact hn.sublist (List.filter_sublist.map _)

/-- With all that is admitted in the cache, the query only picks it out. -/
theorem run_collect_of_exact {docs : List Doc} (hw : Coherent w) (hd : Listed w k docs)
    (hid : ∀ d ∈ docs, ∃ o, d.get? "_id" = some (.oid o)) (hc : Exact w k) :
    ∃ r, run (Controller.collect k (Controller.admits k) false docs) w = .ok (r, w) ∧ (∀ p ∈ r, p ∈ w.cash k) ∧
      r.map w.idOf = (docs.filter fun d => Controller.admits k d = .ok true).map Doc.id? := by
  induction docs with
  | nil => exact ⟨[], rfl, by simp, rfl⟩
  | cons d docs ih =>
    obtain ⟨o, ho⟩ := hid d (by simp)
    obtain ⟨r, hr, hin, hmap⟩ := ih hd.tail fun d' hd' => hid d' (List.mem_cons_of_mem _ hd')
    obtain ⟨b, hb, hiff⟩ := hc o d (hd d (by simp) o ho)
    cases b with
    | false =>
      refine ⟨r, (run_collect_cons_iff (hw.live k)).mpr (.inl ⟨hb, hr⟩), hin, ?_⟩
      rw [hmap, List.filter_cons_of_neg (by simp [hb])]
    | true =>
      obtain ⟨p, hp, hpo⟩ := hiff.mp rfl
      have hcp := hw.cached_eq hp hpo
      refine ⟨p :: r, (run_collect_cons_iff (hw.live k)).mpr (.inr ⟨o, r, hb, ho, .inl ⟨p, hcp, rfl, hr⟩⟩),
        List.forall_mem_cons.mpr ⟨hp, hin⟩, ?_⟩
      rw [List.filter_cons_of_pos (by simp [hb]), List.map_cons, List.map_cons, hmap, hpo, Doc.id?, ho]
      rfl

/-- `GetAll` returns its cache, and would return the same objects with `IsChanged` set: one for each document that
is admitted. -/
def ListsAlike (w : World) (k : Kind) : Prop :=
  run (Controller.getAll k) w = .ok (w.cash k, w) ∧
    ∃ r w', run (Controller.getAll k) (w.setChanged k true) = .ok (r, w') ∧ (w.cash k).Perm r ∧ r.Nodup ∧
      r.map w.idOf = w.listedIds k

theorem listsAlike_of_exact (hw : Coherent w) (hch : w.isChanged k = false) (hc : Exact w k) : ListsAlike w k := by
  refine ⟨run_getAll_iff.mpr (.inl ⟨hch, rfl, rfl⟩), ?_⟩
  have hid : ∀ d ∈ (w.env.coll k).docs, ∃ o, d.get? "_id" = some (.oid o) := by
    intro d hd
    obtain ⟨o, ho⟩ := Collection.mem_docs.mp hd
    exact ⟨o, stored_id (w := w) (k := k) ho⟩
  have hc' : Exact (w.setChanged k true) k := by
    intro o d hd
    obtain ⟨b, hb, hiff⟩ := hc o d hd
    exact ⟨b, hb, by rw [Lib.Conf.cash_setChanged]; exact hiff⟩
  obtain ⟨r, hr, hin, hmap⟩ := run_collect_of_exact (hw.setChanged true) (listed_docs w k) hid hc'
  have hids : r.map w.idOf = w.listedIds k := hmap
  have hnodup : r.Nodup := List.Nodup.of_map w.idOf (by rw [hids]; exact listedIds_nodup w k)
  refine ⟨r, _, run_getAll_iff.mpr (.inr ⟨by simp [Lib.Conf.isChanged_setChanged], _, hr, rfl⟩), ?_, hnodup, hids⟩
  refine (List.perm_ext_iff_of_nodup (hw.nodup k) hnodup).mpr fun p => ⟨fun hp => ?_, fun hp => ?_⟩
  · obtain ⟨b, x, hg, -, -⟩ := hw.entry k p hp
    have hpid := Lib.Conf.idOf_of_get hg
    have hs := hw.doc k p hp b x hg
    obtain ⟨a, ha, hiff⟩ := hc _ _ hs
    obtain rfl := hiff.mpr ⟨p, hp, hpid⟩
    have hmem : some b.id ∈ r.map w.idOf := by
      rw [hids]
      refine List.mem_map.mpr ⟨b.doc, List.mem_filter.mpr ⟨mem_docs_of_stored hs, by simp [ha]⟩, ?_⟩
      simp [Doc.id?, stored_id hs, Bson.oid?]
    obtain ⟨q, hq, hqid⟩ := List.mem_map.mp hmem
    rw [← hw.eq_of_idOf hp (by simpa using hin q hq) (hqid.trans hpid.symm)]
    exact hq
  · simpa using hin p hp

/-- After every run that keeps the cached listing right, `GetAll` without a query agrees with its query. -/
theorem listsAlike_of_run {db : Database} {as : List Action} {w : World}
    (hr : Lib.Run Action.Step Action.lists (World.start db) as w) (k : Kind) (hch : w.isChanged k = false) :
    ListsAlike w k := by
  obtain ⟨hw, hc⟩ := complete_of_run hr
  exact listsAlike_of_exact hw hch (hc k hch)

/-- Two accounts, an info of each, and an info without an owner. -/
def twoOwners : Database :=
  let account (login : String) (info : Oid) : Doc := [("Login", .string login), ("Password", .string "password"),
    ("AccountType", .int32 1), ("AdditionalInfo", .oid info)]
  let info (name : String) (owner : Bson) : Doc := [("FirstName", .string name), ("SecondName", .string "second"),
    ("Owner", owner), ("Faculty", .string "faculty"), ("LessonsTypes", .array [])]
  ((((Database.empty.insert .accounts (account "first" 2)).insert .accounts (account "second" 3)).insert
    .infos (info "first" (.oid 0))).insert .infos (info "second" (.oid 1))).insert .infos (info "third" nullValue)

/-- A check of the condition, for look-ups and listings. -/
def Action.lists? (a : Action) (w : World) : Bool :=
  match a with
  | .getFromDB k _ _ => k = .infos → w.isChanged k = true
  | .getAll k => k = .infos → (w.cash k).all fun p => (w.idOf p).all fun o => (w.stored k o).all fun d =>
      Controller.admits k d = .ok true
  | _ => false

theorem Action.lists_of_lists? {a : Action} (h : a.lists? w = true) : a.lists w := by
  cases a with
  | getFromDB k oid type =>
    refine ⟨trivial, ?_⟩
    rintro hn o d ⟨rfl, -⟩ hc hs
    simp [Action.lists?, hn] at h
  | getAll k =>
    refine ⟨trivial, fun hk p hp o d ho hd => ?_⟩
    have h := List.all_eq_true.mp (of_decide_eq_true h hk) p hp
    simpa [ho, hd] using h
  | _ => simp [Action.lists?] at h

/-- A listing of the accounts, and of the infos when one of them is cached. -/
theorem listsAlike_of_getAll : ∃ w, (w.cash .accounts).map w.idOf = [some 0, some 1] ∧
    (w.cash .infos).map w.idOf = [some 3, some 2] ∧ ListsAlike w .accounts ∧ ListsAlike w .infos := by
  have hplay : (Lib.playChecked Action.next? Action.lists? [.getAll .accounts, .getFromDB .infos 3 .teacher, .getAll .infos]
      (World.start twoOwners)).any (fun w => (w.cash .accounts).map w.idOf = [some 0, some 1] ∧
        (w.cash .infos).map w.idOf = [some 3, some 2] ∧ w.isChanged .accounts = false ∧ w.isChanged .infos = false) =
      true := by decide
  obtain ⟨w, hw, hc⟩ := Option.any_eq_true .. |>.mp hplay
  obtain ⟨haccs, hinfos, hch, hch'⟩ := of_decide_eq_true hc
  have hr : Lib.Run Action.Step Action.lists (World.start twoOwners)
      [.getAll .accounts, .getFromDB .infos 3 .teacher, .getAll .infos] w :=
    .of_playChecked Action.step_of_next? Action.lists_of_lists? hw
  exact ⟨w, haccs, hinfos, listsAlike_of_run hr .accounts hch, listsAlike_of_run hr .infos hch'⟩

/-- A log-in after a listing of the accounts. -/
theorem not_listsAlike_of_every_run : ¬ ∀ db as w, Lib.Run Action.Step Lib.Free (World.start db) as w →
    ∀ k, w.isChanged k = false → ListsAlike w k := by
  intro h
  have hplay : (play [.getAll .accounts, .findFullAccount ⟨"login", "password"⟩] (World.start oneAccount)).any
      (fun w => w.isChanged .accounts = false ∧ (w.cash .accounts).length = 2 ∧
        (w.listedIds .accounts).length = 1) = true := by decide
  obtain ⟨w, hw, hc⟩ := Option.any_eq_true .. |>.mp hplay
  obtain ⟨hch, hl, hn⟩ := of_decide_eq_true hc
  obtain ⟨-, r, w', -, hp, -, hids⟩ := h _ _ w (run_of_play hw) .accounts hch
  have hlen := congrArg List.length hids
  rw [List.length_map, ← hp.length_eq] at hlen
  omega

end Cbt
