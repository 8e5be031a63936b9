import Cbt.Groups.Commands

/-! Steps that move no student. An account command makes and drops objects, counts
them, and writes accounts; all the while a group's object has the students it had,
and they are the students they were, unless their infos are deleted. So a group
whose list is the stored one when a form is read is still in step when the new
info joins it. -/

namespace Cbt

open Lib.Command (run_bind_iff run_pure_iff)

variable {w v w' : World} {Γ : Classes} {p this : ℕ}

/-- Every object that is there was there with its id, and exists if it did, unless nothing is stored under its id any more;
a group has its name and its students. -/
structure Unmoved (w w' : World) : Prop where
  next : w.heap.next ≤ w'.heap.next
  groups : w'.stored .groups = w.stored .groups
  infos : ∀ i s, w'.stored .infos i = some s → w.stored .infos i = some s
  back : ∀ q b x, q < w.heap.next → w'.heap.get q = some ⟨some b, x⟩ → ∃ b₀ x₀, w.heap.get q = some ⟨some b₀, x₀⟩ ∧
    b.id = b₀.id ∧ (b.isExist = true → b₀.isExist = true) ∧
    (b₀.isExist = true → b.isExist = true ∨ w'.stored .infos b.id = none) ∧
    ∀ g, x = .group g → ∃ g₀, x₀ = .group g₀ ∧ g.name = g₀.name ∧ g.students = g₀.students

namespace Unmoved

theorem refl (w : World) : Unmoved w w where
  next := le_rfl
  groups := rfl
  infos _ _ hs := hs
  back _ b x _ hq := ⟨b, x, hq, rfl, id, .inl, fun g hg => ⟨g, hg, rfl, rfl⟩⟩

theorem trans (h : Unmoved w v) (h' : Unmoved v w') : Unmoved w w' where
  next := h.next.trans h'.next
  groups := h'.groups.trans h.groups
  infos i s hs := h.infos i s (h'.infos i s hs)
  back q b x hlt hq := by
    obtain ⟨b₁, x₁, h₁, hid, hex, hgone, hg⟩ := h'.back q b x (hlt.trans_le h.next) hq
    obtain ⟨b₀, x₀, h₀, hid₀, hex₀, hgone₀, hg₀⟩ := h.back q b₁ x₁ hlt h₁
    refine ⟨b₀, x₀, h₀, hid.trans hid₀, fun he => hex₀ (hex he), fun he => ?_, fun g hx => ?_⟩
    · rcases hgone₀ he with he | hnone
      · exact hgone he
      · refine .inr ?_
        by_contra hs
        obtain ⟨s, hs⟩ := Option.ne_none_iff_exists'.mp hs
        rw [← hid, h'.infos _ s hs] at hnone
        cases hnone
    · obtain ⟨g₁, rfl, hn, hst⟩ := hg g hx
      obtain ⟨g₀, rfl, hn₀, hst₀⟩ := hg₀ g₁ rfl
      exact ⟨g₀, rfl, hn.trans hn₀, hst.trans hst₀⟩

/-- What is there is as it was. -/
theorem of_get (hn : w.heap.next ≤ w'.heap.next) (hg : w'.stored .groups = w.stored .groups)
    (hi : w'.stored .infos = w.stored .infos) (h : ∀ q < w.heap.next, ∀ o, w'.heap.get q = some o → w.heap.get q = some o) :
    Unmoved w w' where
  next := hn
  groups := hg
  infos _ _ hs := hi ▸ hs
  back q b x hlt hq := ⟨b, x, h q hlt _ hq, rfl, id, .inl, fun g hg => ⟨g, hg, rfl, rfl⟩⟩

/-- An object is overwritten by one that is the same to a group. -/
theorem put {o o' : Obj} (hp : w.heap.get p = some o)
    (hb : o'.fromDB.map (fun b => (b.id, b.isExist)) = o.fromDB.map fun b => (b.id, b.isExist))
    (hg : ∀ g, o'.fields = .group g → ∃ g₀, o.fields = .group g₀ ∧ g.name = g₀.name ∧ g.students = g₀.students) :
    Unmoved w (w.put p o') where
  next := by simp
  groups := rfl
  infos _ _ hs := hs
  back q b x _ hq := by
    rw [Lib.Conf.get_put hp] at hq
    split_ifs at hq with hqp
    · subst hqp
      obtain rfl := Option.some.inj hq
      obtain ⟨_ | b₀, x₀⟩ := o
      · cases hb
      · simp only [Option.map_some, Option.some.injEq, Prod.mk.injEq] at hb
        exact ⟨b₀, x₀, hp, hb.1, fun he => hb.2 ▸ he, fun he => .inl (hb.2.symm ▸ he), hg⟩
    · exact ⟨b, x, hq, rfl, id, .inl, fun g hg => ⟨g, hg, rfl, rfl⟩⟩

theorem own {c : IFromDB} {x : Fields} (hp : w.heap.get p = some ⟨some c, x⟩) (n : ℤ) :
    Unmoved w (w.put p ⟨some (c.own n), x⟩) := put hp rfl fun g hg => ⟨g, hg, rfl, rfl⟩

theorem setRef {o : Obj} (hp : w.heap.get p = some o) (f : RefField) (u : Pointer) : Unmoved w (w.put p (o.setRef f u)) := by
  refine put hp rfl fun g hg => ?_
  obtain ⟨c, x⟩ := o
  cases x <;> cases f <;> cases hg <;> exact ⟨_, rfl, rfl, rfl⟩

theorem push (w : World) (o : Obj) : Unmoved w (w.push o) := by
  refine of_get (by simp) rfl rfl fun q hlt o' hq => ?_
  rwa [Lib.Conf.heap_push, Lib.Heap.get_push, if_neg hlt.ne] at hq

theorem load (w : World) (k : Kind) (o : Obj) : Unmoved w (w.load k o) := by
  refine of_get (by simp) rfl rfl fun q hlt o' hq => ?_
  rwa [Lib.Conf.heap_load, Lib.Heap.get_push, if_neg hlt.ne] at hq

theorem free (w : World) (p : ℕ) : Unmoved w (w.free p) := by
  refine of_get (by simp) rfl rfl fun q _ o' hq => ?_
  rw [Lib.Conf.heap_free, Lib.Heap.get_free] at hq
  split_ifs at hq
  exact hq

theorem looked {k : Kind} {i : Oid} {c? : Option DBClass} {r : Option ℕ} (h : Looked w k i c? r w') : Unmoved w w' := by
  cases h with
  | hit | absent => exact refl w
  | loaded => exact load w k _

/-- A getter touches its own pointer, and drops what no longer exists. -/
theorem getter {g : Getter} {r : Option ℕ} (hw : Sound w) (h : run (g.call this) w = .ok (r, w')) : Unmoved w w' := by
  cases run_getter hw h with
  | settled ho hv hs =>
    cases hs with
    | held => exact refl w
    | letGo hp hb hn ho' => exact (own hp (-1)).trans (setRef ho' _ _)
    | freed hp hb hn ht ho' =>
      refine (free w _).trans (setRef (o := _) ?_ _ _)
      rw [Lib.Conf.heap_free, Lib.Heap.get_free, if_neg ht, ho']
  | absent => exact refl w
  | missed _ _ _ hl => exact looked hl
  | loaded _ _ _ hl _ _ h₁ => exact (looked hl).trans (setRef h₁ _ _)

/-! ### Writes -/

/-- An account is stored, and its object replaced by the cached one. -/
theorem added {e : ℕ} {r : Option ℕ} (h : run (Controller.add .accounts e) w = .ok (r, w')) : Unmoved w w' := by
  obtain ⟨x, d, o, he, -, -, -, -, -, rfl⟩ := run_add_iff.mp h
  have hpost : Unmoved w (w.post .accounts e d) := by
    refine of_get (by simp) (funext fun o => ?_) (funext fun o => ?_) fun q _ o' hq => ?_
    · rw [stored_post, if_neg (by simp)]
    · rw [stored_post, if_neg (by simp)]
    · rw [heap_post, Lib.Heap.get_free] at hq
      split_ifs at hq
      exact hq
  exact hpost.trans (load _ _ _)

theorem updated {el : ℕ} {r : Bool} (h : run (Controller.update .accounts el) w = .ok (r, w')) : Unmoved w w' := by
  obtain ⟨b, x, d, hel, -, -, -, hh, -, -, -, hst⟩ := update_effect h
  have hput : Unmoved w (w.put el ⟨some (b.withDoc (("_id", .oid b.id) :: d)), x⟩) :=
    put hel rfl fun g hg => ⟨g, hg, rfl, rfl⟩
  refine ⟨?_, funext fun o => ?_, fun i s hs => ?_, fun q c y hlt hq => ?_⟩
  · rw [hh]
    simp
  · rw [hst, if_neg (by simp)]
  · rwa [hst, if_neg (by simp)] at hs
  · rw [hh] at hq
    obtain ⟨b₀, x₀, h₀, hid, hex, hgone, hg⟩ := hput.back q c y hlt hq
    refine ⟨b₀, x₀, h₀, hid, hex, fun he => (hgone he).imp_right fun hn => ?_, hg⟩
    rw [hst, if_neg (by simp)]
    exact hn

/-- The info that is cached under the id is the one that goes. -/
theorem deleted {oid : Oid} (hd : Deleted w .infos oid w') (hc : w.cached .infos oid ≠ none) : Unmoved w w' := by
  obtain ⟨p, b, x, db, hv, hp, rfl, hdb⟩ := hd.effect
  obtain ⟨p', hp'⟩ := Option.ne_none_iff_exists'.mp hc
  obtain rfl : p' = p := by simpa [Lib.Conf.victim, hp'] using hv
  have hid : b.id = oid := by simpa [Lib.Conf.idOf_of_get hp] using Lib.Conf.cached_idOf hp'
  refine ⟨by simp, funext fun o => ?_, fun i s hs => ?_, fun q c y hlt hq => ?_⟩
  · rw [Lib.Conf.stored_setEnv, hdb, if_neg (by simp)]
  · rw [Lib.Conf.stored_setEnv, hdb] at hs
    split_ifs at hs
    exact hs
  · change (((w.setChanged .infos true).dismiss p' b x)).heap.get q = _ at hq
    by_cases hqp : q = p'
    · subst hqp
      unfold Lib.Conf.dismiss at hq
      split_ifs at hq
      · simp [Lib.Heap.get_free] at hq
      · obtain ⟨rfl, rfl⟩ : b.flagged = c ∧ x = y := by
          rw [Lib.Conf.get_put (by simpa using hp), if_pos rfl] at hq
          simpa using hq
        refine ⟨b, x, hp, rfl, (fun he => by cases he), fun _ => .inr ?_, fun g hg => ⟨g, hg, rfl, rfl⟩⟩
        rw [Lib.Conf.stored_setEnv, hdb, if_pos ⟨rfl, hid⟩]
    · rw [get_dismiss_of_ne (w.setChanged .infos true) p' b x (by simpa using hp) hqp] at hq
      exact ⟨c, y, by simpa using hq, rfl, id, .inl, fun g hg => ⟨g, hg, rfl, rfl⟩⟩

/-! ### What stays -/

/-- The ids of a list are those it had, but for infos that are not stored any more. -/
theorem existingIds (h : Unmoved w w') {l : List ℕ} {ids : List Oid} (hl : ∀ q ∈ l, q < w.heap.next)
    (hids : existingIds w'.heap l = .ok ids) : ∃ ids₀, Cbt.existingIds w.heap l = .ok ids₀ ∧ ids.Sublist ids₀ ∧
      ∀ i ∈ ids₀, i ∈ ids ∨ w'.stored .infos i = none := by
  induction l generalizing ids with
  | nil =>
    obtain rfl := Except.ok.inj hids
    exact ⟨[], rfl, .refl _, by simp⟩
  | cons q l ih =>
    rw [List.forall_mem_cons] at hl
    rw [existingIds_cons, exceptBind_eq_ok] at hids
    obtain ⟨i, hi, hids⟩ := hids
    obtain ⟨ids', hids', hcons⟩ := exceptBind_eq_ok.mp hids
    obtain ⟨b, x, hq, rfl⟩ := ident_eq_ok.mp hi
    obtain ⟨b₀, x₀, h₀, hid, hex, hgone, -⟩ := h.back q b x hl.1 hq
    obtain ⟨ids₀, he, hsub, hrest⟩ := ih hl.2 hids'
    obtain rfl := Except.ok.inj hcons
    refine ⟨if b₀.isExist then b₀.id :: ids₀ else ids₀, ?_, ?_, fun i hi => ?_⟩
    · rw [existingIds_cons, ident_of_get h₀, he]
      rfl
    · cases hb : b.isExist with
      | true =>
        rw [if_pos (hex hb), if_pos rfl, hid]
        exact hsub.cons_cons _
      | false =>
        simp only [Bool.false_eq_true, if_false]
        split_ifs
        · exact hsub.cons _
        · exact hsub
    · by_cases hb₀ : b₀.isExist = true
      · rw [if_pos hb₀, List.mem_cons] at hi
        rcases hi with rfl | hi
        · rcases hgone hb₀ with hb | hnone
          · exact .inl (by simp [hb, hid])
          · exact .inr (hid ▸ hnone)
        · exact (hrest i hi).imp_left fun hi => by split_ifs <;> simp [hi]
      · rw [if_neg hb₀] at hi
        exact (hrest i hi).imp_left fun hi => by split_ifs <;> simp [hi]

theorem inStep (h : Unmoved w w') (ht : WellTyped Γ w) (hlt : this < w.heap.next) (hs : w.InStep this) : w'.InStep this := by
  intro b g ids d hg hids hd
  obtain ⟨b₀, x₀, h₀, hid, -, -, hg₀⟩ := h.back this b _ hlt hg
  obtain ⟨g₀, rfl, -, hst⟩ := hg₀ g rfl
  rw [hst] at hids
  rw [h.groups, hid] at hd
  obtain ⟨ids₀, hids₀, hsub, hrest⟩ := h.existingIds (fun q hq => ht.below q _ (ht.students this _ g₀ h₀ q hq)) hids
  obtain ⟨hnodup, hmem⟩ := hs b₀ g₀ ids₀ d h₀ hids₀ hd
  refine ⟨hnodup.sublist hsub, fun i s hi hst => ?_⟩
  rw [← hmem i s (h.infos i s hi) hst]
  refine ⟨fun hin => hsub.subset hin, fun hin => (hrest i hin).resolve_right fun hn => ?_⟩
  rw [hi] at hn
  cases hn

theorem idOf (h : Unmoved w w') (hw' : Sound w') {k : Kind} {q : ℕ} (hq : q ∈ w'.cash k) (hlt : q < w.heap.next) :
    w'.idOf q = w.idOf q := by
  obtain ⟨b, x, hg, -⟩ := hw'.entry k q hq
  obtain ⟨b₀, x₀, h₀, hid, -⟩ := h.back q b x hlt hg
  rw [Lib.Conf.idOf_of_get hg, Lib.Conf.idOf_of_get h₀, hid]

theorem cached (h : Unmoved w w') (hw : Sound w) (hw' : Sound w') {k : Kind} (hc : w'.cash k = w.cash k) :
    w'.cached k = w.cached k := by
  funext i
  unfold Lib.Conf.cached
  rw [hc]
  refine List.find?_congr fun q hq => ?_
  rw [h.idOf hw' (hc ▸ hq) (hw.lt_next hq)]

theorem groupName (h : Unmoved w w') (hw' : Sound w') {q : ℕ} (hq : q ∈ w'.cash .groups) (hlt : q < w.heap.next) :
    w'.groupName q = w.groupName q := by
  obtain ⟨b, x, hg, -, hk⟩ := hw'.entry .groups q hq
  obtain ⟨g, rfl⟩ : ∃ g, x = .group g := by cases x <;> first | exact ⟨_, rfl⟩ | cases hk
  obtain ⟨b₀, x₀, h₀, -, -, -, hg₀⟩ := h.back q b _ hlt hg
  obtain ⟨g₀, rfl, hn, -⟩ := hg₀ g rfl
  rw [groupName_of_get hg, groupName_of_get h₀, hn]

theorem onFile (h : Unmoved w w') {i : Oid} (hi : w'.OnFile i) : w.OnFile i := by
  obtain ⟨s, hs, hst⟩ := hi
  exact ⟨s, h.infos i s hs, hst⟩

end Unmoved

/-! ### Groups that a form names -/

/-- Every group with the name takes a new student: an object that the cache has under the id of one is in step, and of those
that are not cached no stored student is a member. -/
structure Lib.Conf.Receives (w : World) (text : String) : Prop where
  cached : ∀ p ∈ w.cash .groups, w.groupName p = some text → ∀ i q, w.idOf p = some i → w.cached .groups i = some q →
    w.InStep q
  stored : ∀ o d, w.stored .groups o = some d → w.cached .groups o = none → d.get? "Name" = some (.string text) →
    ∀ i ∈ d.members, ¬ w.OnFile i

instance (w : World) (text : String) : Decidable (w.Receives text) :=
  decidable_of_iff ((∀ p ∈ w.cash .groups, w.groupName p = some text →
      ((w.idOf p).bind (w.cached .groups)).all (fun q => w.InStep q) = true) ∧
    ∀ d ∈ (w.env.coll .groups).docs, ((d.get? "_id").bind Bson.oid?).all (fun o => w.cached .groups o = none →
      d.get? "Name" = some (.string text) → ∀ i ∈ d.members, ¬ w.OnFile i) = true) <| by
    constructor
    · rintro ⟨hc, hs⟩
      refine ⟨fun p hp hn i q hi hq => ?_, fun o d hd hn hname => ?_⟩
      · simpa [hi, hq] using hc p hp hn
      · have hid : d.get? "_id" = some (.oid o) := (w.env.coll .groups).ids o d hd
        have := hs d (Collection.mem_docs.mpr ⟨o, hd⟩)
        simp only [hid, Option.bind_some, Bson.oid?_oid, Option.all_some, decide_eq_true_eq] at this
        exact this hn hname
    · rintro ⟨hc, hs⟩
      refine ⟨fun p hp hn => ?_, fun d hd => ?_⟩
      · rw [Option.all_eq_true]
        intro q hq
        obtain ⟨i, hi, hq⟩ := Option.bind_eq_some_iff.mp hq
        simpa using hc p hp hn i q hi hq
      · rw [Option.all_eq_true]
        intro o ho
        obtain ⟨v, hv, hv'⟩ := Option.bind_eq_some_iff.mp ho
        obtain rfl := Bson.oid?_eq_some.mp hv'
        rw [decide_eq_true_eq]
        exact hs o d (Collection.get?_of_mem hd hv)

theorem cached_ne_none {k : Kind} {i : Oid} (hp : p ∈ w.cash k) (hi : w.idOf p = some i) : w.cached k i ≠ none := by
  intro hn
  have := List.find?_eq_none.mp hn p hp
  simp [hi] at this

/-- A cached group whose object, as the cache finds it, is in step. -/
structure Lib.Conf.Ready (w : World) (q : ℕ) : Prop where
  mem : q ∈ w.cash .groups
  inStep : ∀ i g, w.idOf q = some i → w.cached .groups i = some g → w.InStep g

theorem Lib.Conf.Ready.unmoved (h : w.Ready p) (hw : Sound w) (hw' : Sound w') (ht : WellTyped Γ w) (hu : Unmoved w w')
    (hc : w'.cash .groups = w.cash .groups) : w'.Ready p where
  mem := hc ▸ h.mem
  inStep i g hi hg := by
    rw [hu.cached hw hw' hc] at hg
    rw [hu.idOf hw' (hc ▸ h.mem) (hw.lt_next h.mem)] at hi
    exact hu.inStep ht (hw.lt_next (Lib.Conf.cached_mem hg)) (h.inStep i g hi hg)

namespace Lib.Conf.Receives

variable {text : String}

theorem ready (h : w.Receives text) (hp : p ∈ w.cash .groups) (hn : w.groupName p = some text) : w.Ready p :=
  ⟨hp, fun i g hi hg => h.cached p hp hn i g hi hg⟩

theorem unmoved (h : w.Receives text) (hw : Sound w) (hw' : Sound w') (ht : WellTyped Γ w) (hu : Unmoved w w')
    (hc : w'.cash .groups = w.cash .groups) : w'.Receives text where
  cached p hp hn := by
    rw [hc] at hp
    rw [hu.groupName hw' (hc ▸ hp) (hw.lt_next hp)] at hn
    exact ((h.ready hp hn).unmoved hw hw' ht hu hc).inStep
  stored o d hd hn hname i hi hon := by
    rw [hu.groups] at hd
    rw [hu.cached hw hw' hc] at hn
    exact h.stored o d hd hn hname i hi (hu.onFile hon)

theorem wellTyped_load {k : Kind} {b : IFromDB} {x : Fields} (ht : WellTyped Γ w) (hx : x.bare = x) (hk : x.kind = k) :
    ∃ Γ, WellTyped Γ (w.load k ⟨some b, x⟩) := by
  obtain ⟨Γ', hle, ht', hc⟩ := ht.push (o := ⟨some b, x⟩) hx
  refine ⟨Γ', ht'.setCash fun p hp => ?_⟩
  rcases List.mem_append.mp hp with hp | hp
  · exact (ht.cash k p hp).mono hle
  · obtain rfl := List.mem_singleton.mp hp
    exact ⟨_, hc, by rw [← hk, Fields.kind_cls]⟩

/-- A group that is loaded knows no students. -/
theorem load {counted : Bool} {oid : Oid} {d : Doc} {o : Obj} (h : w.Receives text) (hw : Sound w) (ht : WellTyped Γ w)
    (hs : w.stored .groups oid = some d) (hn : w.cached .groups oid = none) (ho : DBClass.groupDB.ofDoc d = .ok o) :
    (w.load .groups (o.listed counted)).Receives text := by
  obtain ⟨b, x, he, hb, hx, -⟩ := listed_stored (k := .groups) counted hs ho
  simp only [IFromDB.core, Prod.mk.injEq] at hb
  obtain ⟨rfl, hdoc, hex⟩ := hb
  rw [he]
  set w₁ := w.load .groups ⟨some b, x⟩ with hw₁
  have hu : Unmoved w w₁ := .load w .groups _
  have hcached : ∀ i, w₁.cached .groups i = if i = b.id then some w.heap.next else w.cached .groups i := fun i => by
    simpa using cached_load hw x hn .groups i
  have hnew : w₁.heap.get w.heap.next = some ⟨some b, x⟩ := Heap.get_push_next _ _
  have hcash : w₁.cash .groups = w.cash .groups ++ [w.heap.next] := by rw [hw₁, cash_load, if_pos rfl]
  have hold : ∀ p ∈ w.cash .groups, w₁.idOf p = w.idOf p ∧ w₁.groupName p = w.groupName p := by
    intro p hp
    obtain ⟨c, y, hg, -⟩ := hw.entry .groups p hp
    have hg₁ : w₁.heap.get p = some ⟨some c, y⟩ := Heap.get_push_of_some _ hg
    exact ⟨by rw [idOf_of_get hg, idOf_of_get hg₁], by simp only [groupName, hg, hg₁]⟩
  obtain ⟨g, rfl⟩ : ∃ g, x = .group g := by
    have hcls := DBClass.cls_fields hx
    cases x <;> first | exact ⟨_, rfl⟩ | cases hcls
  refine ⟨fun p hp hname i q hi hq => ?_, fun o' d' hd' hn' hname i hi hon => ?_⟩
  · rw [hcached] at hq
    rw [hcash, List.mem_append, List.mem_singleton] at hp
    split_ifs at hq with hib
    · obtain rfl := Option.some.inj hq
      rcases hp with hp | rfl
      · -- an object with the id of the document would have been found
        rw [(hold p hp).1] at hi
        exact absurd hn (cached_ne_none hp (hib ▸ hi))
      · intro b' g' ids d' hg' hids hd'
        obtain ⟨rfl, rfl⟩ : b = b' ∧ g = g' := by simpa [hnew] using hg'
        have hnil : g.students = [] := by
          have hbare := DBClass.bare_fields hx
          simp only [Fields.bare, Fields.group.injEq] at hbare
          rw [← hbare]
        rw [hnil] at hids
        obtain rfl := Except.ok.inj hids
        obtain rfl : d = d' := Option.some.inj (hs.symm.trans hd')
        refine ⟨List.nodup_nil, fun j s hsj hst => iff_of_false List.not_mem_nil fun hjin => ?_⟩
        refine h.stored b.id d hs hn ?_ j hjin ⟨s, hsj, hst⟩
        rw [groupName_of_get hnew, Option.some.injEq] at hname
        have hx : DBClass.groupDB.fields d = .ok (.group g) := hx
        simp only [DBClass.fields, exceptBind_eq_ok, exceptPure_eq_ok, Doc.getString_eq_ok] at hx
        obtain ⟨s', hs', hg''⟩ := hx
        rw [hs', ← hname, Fields.group.inj hg'']
    · rcases hp with hp | rfl
      · rw [(hold p hp).1] at hi
        rw [(hold p hp).2] at hname
        exact hu.inStep ht (hw.lt_next (cached_mem hq)) (h.cached p hp hname i q hi hq)
      · rw [idOf_of_get hnew, Option.some.injEq] at hi
        exact absurd hi.symm hib
  · rw [hcached] at hn'
    split_ifs at hn'
    exact h.stored o' d' hd' hn' hname i hi (hu.onFile hon)

theorem collect {keep : Doc → Except Fault Bool} {counted : Bool} {docs : List Doc} {r : List ℕ} (h : w.Receives text)
    (hw : Sound w) (ht : ∃ Γ, WellTyped Γ w) (hd : Cbt.Listed w .groups docs)
    (hr : run (Controller.collect .groups keep counted docs) w = .ok (r, w')) : w'.Receives text := by
  induction docs generalizing w r with
  | nil =>
    obtain ⟨-, rfl⟩ := (run_pure_iff _).mp hr
    exact h
  | cons d docs ih =>
    rcases (run_collect_cons_iff (hw.live .groups)).mp hr with
      ⟨-, hr⟩ | ⟨oid, r', -, hi, ⟨p, -, -, hr⟩ | ⟨o, hn, ho, -, hr⟩⟩
    · exact ih h hw ht hd.tail hr
    · exact ih h hw ht hd.tail hr
    · have hs := hd d (by simp) oid hi
      have hq : Quiet (fun _ _ => True) w (w.load .groups (o.listed counted)) := quiet_listed (by simp) hs hn ho
      obtain ⟨Γ, ht⟩ := ht
      obtain ⟨b, x, he, -, hx, -⟩ := listed_stored counted hs ho
      have ht' := he ▸ wellTyped_load (b := b) ht (DBClass.bare_fields hx) (Fields.kind_of_dbClass (DBClass.cls_fields hx))
      exact ih (h.load hw ht hs hn ho) (hq.sound hw) ht' (hd.tail.of_stored hq.stored) hr

/-- The group that the form names, if there is one. -/
theorem getGroupFromEdit {form : DisplayAccountWidget} {r : Option ℕ} (h : w.Receives form.editGroup.currentText)
    (hw : Sound w) (ht : ∃ Γ, WellTyped Γ w) (hr : run form.getGroupFromEdit w = .ok (r, w')) :
    w'.Receives form.editGroup.currentText ∧ ∀ q, r = some q → w'.Ready q := by
  obtain ⟨grps, w₁, h₁, h₂⟩ := (run_bind_iff _).mp hr
  have hw₁ := Looks.sound ((views_getAll .groups).looks hw h₁) hw
  have hcash := (listed_cached hw h₁).2
  have hfind := run_findName (fun p hp => hw₁.groupName_isSome (hcash p hp)) form.editGroup.currentText
  obtain ⟨rfl, rfl⟩ := Prod.mk.inj (Except.ok.inj (hfind.symm.trans h₂))
  have hrec : w₁.Receives form.editGroup.currentText := by
    rcases run_getAll_iff.mp h₁ with ⟨-, -, rfl⟩ | ⟨-, w₀, h₀, rfl⟩
    · exact h
    · have hrec := h.collect hw ht (fun _ hd _ ho => Collection.get?_of_mem hd ho) h₀
      have hcached : (w₀.setChanged .groups false).cached = w₀.cached := by
        funext k i
        simp only [Lib.Conf.cached, Lib.Conf.cash_setChanged]
        rfl
      exact ⟨fun p hp hn i q hi hq => hrec.cached p (by simpa using hp) hn i q hi (hcached ▸ hq),
        fun o d hd hn => hrec.stored o d hd (hcached ▸ hn)⟩
  refine ⟨hrec, fun q hq => hrec.ready (hcash q (List.mem_of_find?_eq_some hq)) ?_⟩
  simpa using List.find?_some hq

end Lib.Conf.Receives

end Cbt
