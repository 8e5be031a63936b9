import Cbt.Updates.Callers

/-! `Add` of the infos. The new document is stored and an object is built of it,
which asks for its owner and, if it is a student's, for its group; each is found
in its cache or loaded. The group takes the student and the owner takes the info,
so two more documents are replaced: by what edits left of an object that was
cached, or by an object that was only just built. -/

namespace Cbt

open Lib.Command (run_bind_iff run_pure_iff run_fault_iff run_ofExcept_iff fault)

variable {w w₁ w₂ w₃ w' : World} {S : ℕ → Prop} {p q : ℕ} {b : IFromDB} {x y : Fields} {es : List Edit} {n : ℤ} {k : Kind}
  {i : Oid}

/-! ### What is found under an id -/

/-- The object of an id: the cached one, or one that was built of the stored document. -/
inductive Lib.Conf.Supplies (w : World) (k : Kind) (i : Oid) (q : ℕ) (w' : World) : Prop
  | cached (hc : w.cached k i = some q)
  | built {d : Doc} {o : Obj} (hn : w.cached k i = none) (hs : w.stored k i = some d) (ho : k.dbClass.ofDoc d = .ok o)
      (hq : w'.heap.get q = some (o.own 1))

theorem Looked.supplies (h : Looked w k i (some k.dbClass) (some q) w') : w.Supplies k i q w' := by
  cases h with
  | hit hc => exact .cached hc
  | loaded hn hs hc ho =>
    obtain rfl := Option.some.inj hc
    exact .built hn hs ho (Lib.Heap.get_push_next _ _)

theorem Lib.Conf.Supplies.eq_of_cached (h : w.Supplies k i q w') (hc : w.cached k i = some p) : q = p := by
  cases h with
  | cached hc' => exact Option.some.inj (hc'.symm.trans hc)
  | built hn => simp [hc] at hn

/-- A look-up finds what a state with the same cache and the same document has to supply. -/
theorem Lib.Conf.Supplies.looked (h : w.Supplies k i q w') (hc : w₁.cached k = w.cached k) (hs : w₁.stored k i = w.stored k i) :
    ∃ r w₂, Looked w₁ k i (some k.dbClass) (some r) w₂ := by
  cases h with
  | cached hc' => exact ⟨_, _, .hit (by rw [hc, hc'])⟩
  | built hn hs' ho => exact ⟨_, _, .loaded (by rw [hc, hn]) (by rw [hs, hs']) rfl ho⟩

/-- What a state supplies, a state with the same cache and the same document does, where the object stays. -/
theorem Lib.Conf.Supplies.move (h : w.Supplies k i q w') (hc : w₁.cached k = w.cached k) (hs : w₁.stored k i = w.stored k i)
    (hq : ∀ o, o.fields.kind = k → w'.heap.get q = some o → w₂.heap.get q = some o) : w₁.Supplies k i q w₂ := by
  cases h with
  | cached hc' => exact .cached (by rw [hc, hc'])
  | built hn hs' ho hget =>
    obtain ⟨z, hz, rfl⟩ := ofDoc_stored hs' ho
    refine .built (by rw [hc, hn]) (by rw [hs, hs']) ho (hq _ ?_ hget)
    rw [Obj.own_fields, ← Fields.kind_cls, hz]
    cases k <;> rfl

/-- An object of another controller stays as it is. -/
theorem get_put_of_kind {o o' : Obj} {c : Option IFromDB} (hp : w.heap.get p = some ⟨c, x⟩) (hx : x.kind ≠ k)
    (ho : o.fields.kind = k) (hq : w.heap.get q = some o) : (w.put p o').heap.get q = some o := by
  rw [Lib.Conf.get_put hp, if_neg, hq]
  rintro rfl
  obtain rfl := Option.some.inj (hp.symm.trans hq)
  exact hx ho

/-- The caches of the other controllers stay as they are. -/
theorem Looked.cached_other {c? : Option DBClass} {r : Option ℕ} {k' : Kind} (hw : Sound w) (h : Looked w k i c? r w')
    (hk : k' ≠ k) : w'.cached k' = w.cached k' := by
  cases h with
  | hit | absent => rfl
  | loaded hn hs hc ho =>
    obtain ⟨z, rfl, rfl⟩ := ofDoc_stored hs ho
    funext j
    exact (cached_load hw (b := IFromDB.own 1 { doc := _, id := i }) z hn k' j).trans (if_neg fun h => hk h.1)

/-- A getter of a null pointer answers with what the look-up finds, and takes the pointer to it. -/
theorem GotBy.looked {g : Getter} {this : ℕ} (h : GotBy w g this (some q) w') (ht : w.heap.get this = some ⟨some b, x⟩)
    (hn : x.ref g.field = some .null) (hd : b.doc.get? g.key = some (.oid i)) :
    ∃ w₁, Looked w g.kind i (g.classOf w this) (some q) w₁ ∧ w' = w₁.put this ⟨some b, x.setRef g.field (.to q)⟩ := by
  cases h with
  | settled ho hv =>
    obtain rfl := Option.some.inj (ht.symm.trans ho)
    simp [hn] at hv
  | loaded ho _ hv hl _ _ h₁ =>
    obtain ⟨rfl, rfl⟩ : b = _ ∧ x = _ := by simpa using Obj.mk.inj (Option.some.inj (ht.symm.trans ho))
    obtain rfl := Bson.oid.inj (Option.some.inj (hd.symm.trans hv))
    obtain rfl := Option.some.inj ((hl.get ho).symm.trans h₁)
    exact ⟨_, hl, rfl⟩

/-- A getter keeps a pointer to an object that exists. -/
theorem GotBy.of_held {g : Getter} {this q : ℕ} {r : Option ℕ} {c : Option IFromDB} (h : GotBy w g this r w')
    (ht : w.heap.get this = some ⟨c, x⟩) (hv : x.ref g.field = some (.to q)) (hq : w.Alive q) : r = some q ∧ w' = w := by
  cases h with
  | settled ho hv' hs =>
    obtain rfl := Option.some.inj (ht.symm.trans ho)
    obtain rfl : q = _ := by simpa using (hv.symm.trans hv')
    exact hs.of_alive hq
  | absent ho hn | missed ho hn | loaded ho hn =>
    obtain ⟨-, rfl⟩ := Obj.mk.inj (Option.some.inj (ht.symm.trans ho))
    rw [hv] at hn
    cases hn

/-! ### The draft -/

theorem cached_post {k : Kind} {e : ℕ} {d : Doc} (hw : Sound w) (he : w.heap.get e = some ⟨none, x⟩) :
    (w.post k e d).cached = w.cached := by
  funext k' i
  simp only [Lib.Conf.cached, cash_post]
  refine List.find?_congr fun q hq => ?_
  obtain ⟨c, z, hg, -⟩ := hw.entry k' q hq
  have hne : q ≠ e := by
    rintro rfl
    simp [he] at hg
  rw [Lib.Conf.idOf_of_get hg, Lib.Conf.idOf_of_get (by rw [heap_post, Lib.Heap.get_free, if_neg hne, hg])]

/-- What the next info is built with. -/
def Lib.Conf.draft (w : World) (x : Fields) (ref : RefField → Bson) (m : Bson) : IFromDB :=
  { doc := ("_id", .oid w.env.nextOid) :: x.written ref m, id := w.env.nextOid }

/-- The object of a new info before it asked for anything. -/
structure Lib.Conf.Posted (w : World) (x : Fields) (ref : RefField → Bson) (m : Bson) (w' : World) : Prop where
  sound : Sound w'
  cached : w'.cached = w.cached
  stored : ∀ k o, w'.stored k o = if k = .infos ∧ o = w.env.nextOid then some (w.draft x ref m).doc else w.stored k o
  other : ∀ q c z, w.heap.get q = some ⟨some c, z⟩ → w'.heap.get q = some ⟨some c, z⟩
  new : w'.heap.get w.heap.next = some ⟨some (w.draft x ref m), x.bare⟩

theorem posted {e : ℕ} (ref : RefField → Bson) (m : Bson) (hw : Sound w) (he : w.heap.get e = some ⟨none, x⟩) :
    w.Posted x ref m ((w.post .infos e (x.written ref m)).push ⟨some (w.draft x ref m), x.bare⟩) where
  sound := sound_push (hw.post he _) _
  cached := (cached_push (hw.post he _) _).trans (cached_post hw he)
  stored k o := stored_post (e := e) k o
  other q c z hq := by
    have hne : q ≠ e := by
      rintro rfl
      simp [he] at hq
    refine Lib.Heap.get_push_of_some _ ?_
    rw [heap_post, Lib.Heap.get_free, if_neg hne, hq]
  new := by
    rw [show w.heap.next = (w.post .infos e (x.written ref m)).heap.next by simp]
    exact Lib.Heap.get_push_next _ _

/-- A new info before it is given to anyone: stored, built, and with its owner. -/
structure Drafted (w : World) (x : Fields) (acc : ℕ) (w' : World) : Prop where
  sound : Sound w'
  cached : ∀ k, k ≠ .accounts → w'.cached k = w.cached k
  stored : ∀ k, k ≠ .infos → w'.stored k = w.stored k
  keeps : ∀ k o d, w.stored k o = some d → w'.stored k o = some d
  other : ∀ q c z, w.heap.get q = some ⟨some c, z⟩ → w'.heap.get q = some ⟨some c, z⟩
  new : ∃ ref m, x.Writes w.heap ref m ∧
    w'.heap.get w.heap.next = some ⟨some (w.draft x ref m), x.bare.setRef .owner (.to acc)⟩ ∧
      w'.stored .infos w.env.nextOid = some (w.draft x ref m).doc

/-- The owner of a posted info was looked up. -/
theorem Lib.Conf.Posted.drafted {ref : RefField → Bson} {m : Bson} {acc : ℕ} (h : w.Posted x ref m w₁) (hx : x.kind = .infos)
    (hwr : x.Writes w.heap ref m) (hl : Looked w₁ .accounts i (some .accountDB) (some acc) w₂) :
    Drafted w x acc (w₂.put w.heap.next ⟨some (w.draft x ref m), x.bare.setRef .owner (.to acc)⟩) ∧
      w.Supplies .accounts i acc (w₂.put w.heap.next ⟨some (w.draft x ref m), x.bare.setRef .owner (.to acc)⟩) := by
  have hE : Extends (fun _ => True) w₁ w₂ := .looked h.sound hl fun c hc => by
    obtain rfl := Option.some.inj hc
    simp [DBClass.kind]
  have hnew := hl.get h.new
  have hput := hE.trans (.put hE.sound hnew rfl (Fields.cls_setRef _ .owner (.to acc)) (.inl trivial))
  have hst : w₂.stored = w₁.stored := hE.stored
  refine ⟨⟨hput.sound, fun k hk => ?_, fun k hk => ?_, fun k o d hd => ?_, fun q c z hq => ?_, ref, m, hwr, ?_, ?_⟩,
    ?_⟩
  · rw [cached_put hnew rfl, hl.cached_other h.sound hk, h.cached]
  · funext o
    rw [Lib.Conf.stored_put, hst, h.stored, if_neg fun hn => hk hn.1]
  · rw [Lib.Conf.stored_put, hst, h.stored, if_neg, hd]
    rintro ⟨rfl, rfl⟩
    cases (w.env.get?_nextOid .infos).symm.trans hd
  · rw [Lib.Conf.get_put hnew, if_neg (Lib.Heap.lt_next hq).ne]
    exact hl.get (h.other q c z hq)
  · rw [Lib.Conf.get_put hnew, if_pos rfl]
  · rw [Lib.Conf.stored_put, hst, h.stored, if_pos ⟨rfl, rfl⟩]
  · refine (hl.supplies (k := .accounts)).move (congrFun h.cached _).symm ?_ fun o ho hq => ?_
    · rw [h.stored, if_neg (by simp)]
    · exact get_put_of_kind hnew (by rw [← Fields.kind_cls, Fields.cls_bare, Fields.kind_cls, hx]; simp) ho hq

/-- What the draft names as an owner or a group. -/
theorem draft_get? {ref : RefField → Bson} {m u : Bson} {g : Getter} {v : Pointer} (hx : x.kind = .infos)
    (hwr : x.Writes w.heap ref m) (hv : x.ref g.field = some v) (hval : v.value w.heap = .ok u) :
    (w.draft x ref m).doc.get? g.key = some u := by
  rw [← Except.ok.inj ((hwr.ref _ _ hv).symm.trans hval)]
  exact get?_readObj (by simp [hx]) (Fields.mem_refs.mpr ⟨v, hv⟩)

/-- The start of `Add`: the new info with the owner its document names. -/
theorem drafted {e acc : ℕ} {d : Doc} {o : Obj} {g : Getter} {v : Pointer} (hw : Sound w)
    (he : w.heap.get e = some ⟨none, x⟩) (hd : x.toDoc w.heap = .ok d) (hx : x.kind = .infos)
    (ho : x.cls.ofDoc (Collection.withId w.env.nextOid d) = .ok o) (hv : x.ref .owner = some v)
    (hval : v.value w.heap = .ok (.oid i)) (hg : g.field = .owner)
    (h : run (g.call (w.post .infos e d).heap.next) ((w.post .infos e d).push o) = .ok (some acc, w')) :
    Drafted w x acc w' ∧ w.Supplies .accounts i acc w' := by
  obtain ⟨ref, m, hwr, rfl⟩ := toDoc_eq_ok.mp hd
  obtain rfl := Except.ok.inj ((ofDoc_written x ref m w.env.nextOid).symm.trans ho)
  have hP := posted ref m hw he
  rw [show (w.post .infos e (x.written ref m)).heap.next = w.heap.next by simp] at h
  rw [← hg] at hv
  obtain ⟨w₂, hl, rfl⟩ := (run_getter hP.sound h).looked hP.new
    (by rw [ref_bare (Fields.mem_refs.mpr ⟨v, hv⟩), if_neg (by simp [hx])]) (draft_get? hx hwr hv hval)
  have hl' : Looked ((w.post .infos e (x.written ref m)).push ⟨some (w.draft x ref m), x.bare⟩) .accounts i
      (some .accountDB) (some acc) w₂ := by
    cases g <;> first | exact hl | cases hg
  rw [hg]
  exact hP.drafted hx hwr hl'

/-- The steps of `Add`. -/
theorem added_of_run {e : ℕ} {t : AccountType} {r : Option ℕ} {v : Pointer} (hw : Sound w)
    (he : w.heap.get e = some ⟨none, x⟩) (ht : InfosController.classOf t = some x.cls) (hv : x.ref .owner = some v)
    (hval : v.value w.heap = .ok (.oid i)) (h : run (InfosController.add e t) w = .ok (r, w')) :
    ∃ acc w₁ w₂, Drafted w x acc w₁ ∧ w.Supplies .accounts i acc w₁ ∧
      (x.cls = .studentInfoDB ∧ Grouped w₁ w.heap.next w₂ ∨ x.cls = .teacherInfoDB ∧ w₂ = w₁) ∧
        Attached w₂ acc w.heap.next w' := by
  obtain ⟨z, d, hz, hk, hd, -, hadd⟩ := run_infosAdd h
  obtain ⟨-, rfl⟩ := Obj.mk.inj (Option.some.inj (he.symm.trans hz))
  have hst := stored_post_new (w := w) (k := .infos) (e := e) (d := d)
  have hnext : (w.post .infos e d).heap.next = w.heap.next := by simp
  cases hadd with
  | admin => cases ht
  | student hs ho hg hgr ha =>
    have hcls := Option.some.inj ht
    obtain rfl := Option.some.inj (hst.symm.trans hs)
    rw [hcls] at ho
    obtain ⟨hdr, hsup⟩ := drafted hw he hd hk ho hv hval (g := .getStudentOwner) rfl hg
    exact ⟨_, _, _, hdr, hsup, .inl ⟨hcls.symm, hnext ▸ hgr⟩, hnext ▸ ha⟩
  | teacher hs ho hg ha =>
    have hcls := Option.some.inj ht
    obtain rfl := Option.some.inj (hst.symm.trans hs)
    rw [hcls] at ho
    obtain ⟨hdr, hsup⟩ := drafted hw he hd hk ho hv hval (g := .getTeacherOwner) rfl hg
    exact ⟨_, _, _, hdr, hsup, .inr ⟨hcls.symm, rfl⟩, hnext ▸ ha⟩

/-! ### The group of the new student -/

/-- A new student without a group pointer enters the group its document names, unless that is not stored. -/
theorem cases_of_grouped {temp : ℕ} (hw : Sound w) (h : Grouped w temp w')
    (ht : w.heap.get temp = some ⟨some b, x⟩) (hn : x.ref .group = some .null) :
    (w'.env = w.env ∧ (∀ q o, w.heap.get q = some o → w'.heap.get q = some o) ∧
      ∀ i, b.doc.get? "Group" = some (.oid i) → w.stored .groups i = none) ∨
    ∃ i g w₁, b.doc.get? "Group" = some (.oid i) ∧ Looked w .groups i (some .groupDB) (some g) w₁ ∧
      Quiet (fun k _ => k = .groups) w (w₁.put temp ⟨some b, x.setRef .group (.to g)⟩) ∧
      Enrolled (w₁.put temp ⟨some b, x.setRef .group (.to g)⟩) g temp w' := by
  have hnull : ∀ {o p}, w.heap.get temp = some o → o.fields.ref .group ≠ some (.to p) := by
    intro o p ho hv
    obtain rfl := Option.some.inj (ht.symm.trans ho)
    simp [hn] at hv
  cases h with
  | none h =>
    have henv := (quiet_getGroup hw h).env
    cases run_getter (g := .getStudentGroup) hw h with
    | settled ho hv => exact absurd hv (hnull ho)
    | absent ho _ hv hi =>
      obtain ⟨rfl, -⟩ : b = _ ∧ x = _ := by simpa using Obj.mk.inj (Option.some.inj (ht.symm.trans ho))
      refine .inl ⟨rfl, fun _ _ hq => hq, fun i hd => ?_⟩
      obtain rfl := Option.some.inj (hd.symm.trans hv)
      cases hi
    | missed ho _ hv hl hr =>
      obtain ⟨rfl, -⟩ : b = _ ∧ x = _ := by simpa using Obj.mk.inj (Option.some.inj (ht.symm.trans ho))
      refine .inl ⟨henv, fun _ _ hq => hl.get hq, fun i hd => ?_⟩
      obtain rfl := Bson.oid.inj (Option.some.inj (hd.symm.trans hv))
      -- what is found is let through, so nothing was found
      have hno : ∀ p, _ ≠ some p := fun p hp => by
        obtain ⟨o, -, hf⟩ := hr p hp
        cases hf
      cases hl with
      | hit hc => exact absurd rfl (hno _)
      | absent hc hs => exact hs.resolve_right (by simp [Getter.classOf])
      | loaded => exact absurd rfl (hno _)
  | @some q g _ w₂ _ h h' he =>
    have hq := quiet_getGroup hw h
    have hgot := run_getter (g := .getStudentGroup) hw h
    obtain ⟨i, hd⟩ : ∃ i, b.doc.get? "Group" = some (.oid i) := by
      cases hgot with
      | settled ho hv => exact absurd hv (hnull ho)
      | loaded ho _ hv =>
        obtain ⟨rfl, -⟩ : b = _ ∧ x = _ := by simpa using Obj.mk.inj (Option.some.inj (ht.symm.trans ho))
        exact ⟨_, hv⟩
    obtain ⟨w₁, hl, rfl⟩ := hgot.looked ht hn hd
    have h₁ := hl.get ht
    have hget : (w₁.put temp ⟨some b, x.setRef .group (.to q)⟩).heap.get temp = some ⟨some b, x.setRef .group (.to q)⟩ := by
      rw [Lib.Conf.get_put h₁, if_pos rfl]
    -- the second call answers with the pointer that the first one took
    obtain ⟨hg, rfl⟩ := (run_getter (g := .getStudentGroup) (hq.sound hw) h').of_held hget (Fields.ref_setRef hn _)
      (alive_put_setRef h₁ (hl.alive hw rfl))
    obtain rfl := Option.some.inj hg
    exact .inr ⟨i, g, w₁, hd, hl, hq, he⟩

/-- The accounts stay as they are. -/
theorem account_of_grouped {temp q : ℕ} {c : Option IFromDB} {a : Account} (hw : Sound w) (h : Grouped w temp w')
    (ht : w.heap.get temp = some ⟨some b, x⟩) (hn : x.ref .group = some .null)
    (hq : w.heap.get q = some ⟨c, .account a⟩) : w'.heap.get q = some ⟨c, .account a⟩ := by
  rcases cases_of_grouped hw h ht hn with ⟨-, hall, -⟩ | ⟨i, g, w₁, -, hl, -, he⟩
  · exact hall q _ hq
  · have hne : q ≠ temp := by
      rintro rfl
      obtain ⟨-, rfl⟩ := Obj.mk.inj (Option.some.inj (ht.symm.trans hq))
      cases hn
    obtain ⟨bg, bs, gr, s, hg, hs, hm⟩ := he.moved
    have hq₁ : (w₁.put temp ⟨some b, x.setRef .group (.to g)⟩).heap.get q = some ⟨c, .account a⟩ := by
      rw [Lib.Conf.get_put (hl.get ht), if_neg hne, hl.get hq]
    rw [hm.other q (by rintro rfl; rw [hg] at hq₁; cases hq₁) hne, hq₁]

/-! ### What edits left -/

theorem Retains.of_keep (h : ∀ q c z, w.heap.get q = some ⟨some c, z⟩ → w'.heap.get q = some ⟨some c, z⟩) :
    Retains w.heap w'.heap := by
  intro q i hq
  cases hq' : header w.heap q with
  | error e => simp [ident, hq', Functor.map, Except.map] at hq
  | ok c =>
    obtain ⟨z, hz⟩ := header_eq_ok.mp hq'
    rw [ident_of_get (h _ _ _ hz), ← ident_of_get hz, hq]

/-- An object elsewhere that was built of the same document, which is still stored. -/
theorem Fresh.move (h : Fresh w p b x) (hq : w'.heap.get q = some ⟨some b, x⟩)
    (hst : ∀ k i d, w.stored k i = some d → w'.stored k i = some d) : Fresh w' q b x where
  get := hq
  exist := h.exist
  bare := h.bare
  cls := h.cls
  stored := hst _ _ _ h.stored
  doc := h.doc
  ref f hf := by
    rcases h.ref f hf with hd | ⟨i, c, hd, hn, d, hs, hof⟩
    · exact .inl hd
    · exact .inr ⟨i, c, hd, hn, d, hst _ _ _ hs, hof⟩
  members hx := by
    obtain ⟨v, hv, hform, hall⟩ := h.members hx
    refine ⟨v, hv, hform, fun i hi => ?_⟩
    obtain ⟨d, hs, hof⟩ := hall i hi
    exact ⟨d, hst _ _ _ hs, hof⟩

/-- What `Add` meets under an id: the cached object, edited in a session, or one that a look-up builds. -/
inductive Meets (w₁ : World) (P : ℕ → IFromDB → Fields → Prop) (es : List (ℕ × Edit)) (k : Kind) (i : Oid) :
    ℕ → IFromDB → Fields → List Edit → Prop
  | edited {p : ℕ} {b : IFromDB} {x : Fields} (hP : P p b x) (hid : b.id = i) (hc : w₁.cached k i = some p) :
      Meets w₁ P es k i p b x (editsOf p es)
  | built {p : ℕ} {b : IFromDB} {x : Fields} {w₂ : World} (hn : w₁.cached k i = none)
      (h : run (Controller.getFromDB k i) w₁ = .ok (some p, w₂)) (hF : Fresh w₂ p b x) : Meets w₁ P es k i p b x []

/-- The object at an address is what edits left of one that was built; `w` and `p` are where its getters were called. -/
structure Left (w : World) (p : ℕ) (b : IFromDB) (x : Fields) (es : List Edit) (w' : World) (q : ℕ) (n : ℤ) (y : Fields) :
    Prop where
  get : w'.heap.get q = some ⟨some (b.own n), y⟩
  cls : y.cls = x.cls
  stored : w'.stored x.kind b.id = some b.doc
  edited : ∃ S v v', Sound v ∧ Fresh v q b x ∧ Extends S v v' ∧ Edited v v' q b x es n y ∧ Retains v'.heap w'.heap ∧
    (∀ keys, KeptRefs v q b x es keys ↔ KeptRefs w p b x es keys) ∧ (MembersListed v b es ↔ MembersListed w b es)

/-- Without edits no getter was called. -/
theorem keptRefs_nil {keys : List String} : KeptRefs w p b x [] keys ↔ KeptRefs w' q b x [] keys := by
  simp [KeptRefs, Called]

section
variable {P : ℕ → IFromDB → Fields → Prop} {es : List (ℕ × Edit)} {es' : List Edit}

/-- What `Add` meets is supplied by the look-ups that ask for it. -/
theorem Meets.supplies (h : Meets w₁ P es k i p b x es') (hw₁ : Sound w₁) : ∃ q w', w₁.Supplies k i q w' := by
  cases h with
  | edited hP hid hc => exact ⟨p, w₁, .cached hc⟩
  | built hn h hF => exact ⟨p, _, ((run_getFromDB_iff (hw₁.live k)).mp h).supplies⟩

/-- What it meets is stored. -/
theorem Meets.stored (h : Meets w₁ P es k i p b x es') (hes : Session w P es) (hE : Extends S w w₁) (hk : x.kind = k) :
    w₁.stored k i ≠ none := by
  cases h with
  | edited hP hid hc =>
    have hst := (hes.fresh _ _ _ hP).stored
    rw [hk, hid] at hst
    rw [hE.stored, hst]
    simp
  | built hn h hF =>
    cases (run_getFromDB_iff (hE.sound.live k)).mp h with
    | hit hc => simp [hn] at hc
    | loaded _ hs => simp [hs]

theorem Meets.left (h : Meets w₁ P es k i p b x es') (hw : Sound w) (hes : Session w P es) (hE : Extends S w w₁)
    (hed : ∀ p b x, P p b x → ∃ n y, Edited w w₁ p b x (editsOf p es) n y) (hs : w₁.Supplies k i q w') (hw' : Sound w')
    (hkeep : ∀ r c z, w₁.heap.get r = some ⟨some c, z⟩ → w'.heap.get r = some ⟨some c, z⟩)
    (hst : ∀ k i d, w₁.stored k i = some d → w'.stored k i = some d) : b.id = i ∧ ∃ n y, Left w p b x es' w' q n y := by
  cases h with
  | edited hP hid hc =>
    obtain ⟨n, y, h⟩ := hed _ _ _ hP
    obtain rfl := hs.eq_of_cached hc
    have hF := hes.fresh _ _ _ hP
    refine ⟨hid, n, y, hkeep _ _ _ h.get, h.cls, hst _ _ _ (hE.stored ▸ hF.stored), S, w, w₁, hw, hF, hE, h, .of_keep hkeep,
      fun _ => Iff.rfl, Iff.rfl⟩
  | @built w₂ hn h hF =>
    cases hs with
    | cached hc => simp [hn] at hc
    | built _ hs ho hq =>
      obtain ⟨z, hz, rfl⟩ := ofDoc_stored hs ho
      obtain ⟨rfl, rfl⟩ : IFromDB.own 1 { doc := _, id := i } = b ∧ z = x := by
        cases (run_getFromDB_iff (hE.sound.live k)).mp h with
        | hit hc => simp [hn] at hc
        | loaded _ hs' hc ho' =>
          obtain rfl := Option.some.inj hc
          obtain rfl := Option.some.inj (hs.symm.trans hs')
          obtain rfl := Except.ok.inj (ho.symm.trans ho')
          have hget := hF.get.symm.trans (Lib.Heap.get_push_next _ _)
          simpa [Obj.own, eq_comm] using hget
      have hst' : ∀ k i d, w₂.stored k i = some d → w'.stored k i = some d := by
        intro k' j d' hd'
        refine hst _ _ _ ?_
        have hq' := (reads_getFromDB (L := fun _ _ => True) trivial _ _ _ h hE.sound).stored
        rwa [hq'] at hd'
      have hF' := hF.move hq hst'
      exact ⟨rfl, 0, z, by rw [own_zero]; exact hq, rfl, hF'.stored, fun _ => True, w', w', hw', hF', .refl hw', hF'.edited,
        .refl _, fun _ => keptRefs_nil, by simp [MembersListed]⟩

end

theorem Lib.Conf.Supplies.found (h : w.Supplies k i q w') (hw : Sound w)
    (hkeep : ∀ r c z, w.heap.get r = some ⟨some c, z⟩ → w'.heap.get r = some ⟨some c, z⟩) :
    ∃ c z, w'.heap.get q = some ⟨some c, z⟩ ∧ c.isExist = true ∧ c.id = i ∧ z.kind = k := by
  cases h with
  | cached hc =>
    obtain ⟨c, z, hg, hex, hk⟩ := hw.entry _ _ (Lib.Conf.cached_mem hc)
    exact ⟨c, z, hkeep _ _ _ hg, hex, by simpa [Lib.Conf.idOf_of_get hg] using Lib.Conf.cached_idOf hc, hk⟩
  | built hn hs ho hq =>
    obtain ⟨z, hz, rfl⟩ := ofDoc_stored hs ho
    exact ⟨_, z, hq, rfl, rfl, by rw [← Fields.kind_cls, hz]; cases k <;> rfl⟩

/-! ### What `Add` stores -/

/-- The owner's document keeps all but the info. -/
theorem Left.agrees_attached {a : Account} {acc temp : ℕ} (h : Left w p b (.account a) es w₂ acc n y)
    (hget : w₃.heap.get acc = some ⟨some (b.own n), y⟩) (ha : Attached w₃ acc temp w') :
    w'.Agrees .accounts b (touched es ++ ["AdditionalInfo"]) := by
  obtain ⟨S, v, v', hv, hF, hE, hed, -⟩ := h.edited
  obtain ⟨a', rfl⟩ : ∃ a', y = .account a' := by
    have hy : y.cls = .accountDB := h.cls
    cases y <;> first | exact ⟨_, rfl⟩ | cases hy
  obtain ⟨ba, br, a₁, z, ha₁, -, -, hgiven⟩ := ha.given
  obtain ⟨rfl, rfl⟩ : b.own n = ba ∧ a' = a₁ := by simpa using Obj.mk.inj (Option.some.inj (hget.symm.trans ha₁))
  obtain ⟨da, hda, hst, -⟩ := hgiven.docs
  exact ⟨_, by rw [hst, if_pos ⟨rfl, rfl⟩]; rfl, hed.account_doc hF hda⟩

theorem Attached.stored_ne {acc temp : ℕ} (ha : Attached w acc temp w') (hk : k ≠ .accounts) : w'.stored k = w.stored k := by
  obtain ⟨ba, br, a, z, -, -, -, hgiven⟩ := ha.given
  obtain ⟨da, -, hst, -⟩ := hgiven.docs
  funext o
  rw [hst, if_neg fun h => hk h.1]

/-- The group that takes the new student. -/
theorem Left.agrees_enrolled {xg : Group} {g temp : ℕ} {c : IFromDB} {s : StudentInfo}
    (h : Left w p b (.group xg) es w₂ g n y) (hnew : w₂.heap.get temp = some ⟨some c, .student s⟩) (hc : c.isExist = true)
    (hen : Enrolled w₂ g temp w') :
    (w'.Agrees .groups b (touched es ++ ["Members"]) ↔ KeptRefs w p b (.group xg) es (touched es ++ ["Members"])) ∧
      (w'.Gains b c.id ↔ b.doc.members = [] ∨ MembersListed w b es) ∧
      ∃ ds, (Fields.student { s with group := .to g }).toDoc w₂.heap = .ok ds ∧
        w'.stored .infos c.id = some (("_id", .oid c.id) :: ds) := by
  obtain ⟨S, v, v', hv, hF, hE, hed, hr, hrefs, hlist⟩ := h.edited
  obtain ⟨g', rfl⟩ : ∃ g', y = .group g' := by
    have hy : y.cls = .groupDB := h.cls
    cases y <;> first | exact ⟨_, rfl⟩ | cases hy
  obtain ⟨bg, bs, g₁, s₁, hg₁, hs₁, hm⟩ := Enrolled.moved hen
  obtain ⟨rfl, rfl⟩ : b.own n = bg ∧ g' = g₁ := by simpa using Obj.mk.inj (Option.some.inj (h.get.symm.trans hg₁))
  obtain ⟨rfl, rfl⟩ : c = bs ∧ s = s₁ := by simpa using Obj.mk.inj (Option.some.inj (hnew.symm.trans hs₁))
  obtain ⟨dg, ds, hdg, hds, hst, -⟩ := hm.docs
  have hstg : w'.stored .groups b.id = some (("_id", .oid b.id) :: dg) := by rw [hst, if_pos ⟨rfl, rfl⟩]; rfl
  have hstud : ident w₂.heap temp = .ok (c.id, true) := by rw [ident_of_get hnew, hc]
  obtain ⟨hdoc, hmem⟩ := hed.group_doc hv hF hE hr hstud hdg
  refine ⟨(agrees_iff_of_stored hstg).trans (hdoc.trans (hrefs _)),
    (gains_iff_of_stored hstg).trans (hmem.trans (or_congr_right hlist)), ds, hds, ?_⟩
  rw [hst, if_neg (by simp), if_pos ⟨rfl, rfl⟩]

/-- A plain info of an account type, with the id of an owner. -/
structure Ready (w : World) (e : ℕ) (x : Fields) (t : AccountType) (i : Oid) : Prop where
  plain : w.heap.get e = some ⟨none, x⟩
  type : InfosController.classOf t = some x.cls
  owner : ∃ v, x.ref .owner = some v ∧ v.value w.heap = .ok (.oid i)

theorem Ready.kind {e : ℕ} {t : AccountType} (h : Ready w e x t i) : x.kind = .infos := by
  have ht := h.type
  cases t <;> simp only [InfosController.classOf, reduceCtorEq, Option.some.injEq] at ht <;>
    rw [← Fields.kind_cls, ← ht] <;> rfl

/-- The look-up of the owner answers. -/
theorem exists_drafted {e : ℕ} {ref : RefField → Bson} {m : Bson} {g : Getter} {v : Pointer} (hw : Sound w)
    (he : w.heap.get e = some ⟨none, x⟩) (hx : x.kind = .infos) (hwr : x.Writes w.heap ref m) (hv : x.ref .owner = some v)
    (hval : v.value w.heap = .ok (.oid i)) (hs : w.Supplies .accounts i q w') (hg : g.field = .owner) :
    ∃ acc w₂, run (g.call (w.post .infos e (x.written ref m)).heap.next) ((w.post .infos e (x.written ref m)).push
      ⟨some (w.draft x ref m), x.bare⟩) = .ok (some acc, w₂) := by
  have hP := posted ref m hw he
  have hown := Fields.mem_refs.mpr ⟨v, hv⟩
  obtain ⟨acc, w₂, hl⟩ := hs.looked (congrFun hP.cached _) (by rw [hP.stored, if_neg (by simp)])
  obtain ⟨ca, za, hacc, -⟩ := hl.alive hP.sound rfl
  rw [← hg] at hv hown
  have hl' : Looked ((w.post .infos e (x.written ref m)).push ⟨some (w.draft x ref m), x.bare⟩) g.kind i
      (g.classOf ((w.post .infos e (x.written ref m)).push ⟨some (w.draft x ref m), x.bare⟩) w.heap.next) (some acc) w₂ := by
    cases g <;> first | exact hl | cases hg
  have hgot := GotBy.loaded hP.new (by rw [ref_bare hown, if_neg (by simp [hx])]) (draft_get? hx hwr hv hval) hl' hacc
    (by cases g <;> first | rfl | cases hg) (hl.get hP.new)
  rw [show (w.post .infos e (x.written ref m)).heap.next = w.heap.next by simp]
  exact ⟨acc, _, (run_getter_iff hP.sound hP.new (by rw [Fields.cls_bare]; exact hown)).mpr hgot⟩

/-- A new student that is asked for its group stays an info, and the accounts stay stored. -/
theorem info_of_grouped {temp : ℕ} (hw : Sound w) (h : Grouped w temp w') (ht : w.heap.get temp = some ⟨some b, x⟩)
    (hx : x.kind = .infos) (hn : x.ref .group = some .null) :
    (∃ c z, w'.heap.get temp = some ⟨some c, z⟩ ∧ z.kind = .infos ∧ c.id = b.id ∧ c.isExist = b.isExist) ∧
      w'.stored .accounts = w.stored .accounts := by
  rcases cases_of_grouped hw h ht hn with ⟨henv, hall, -⟩ | ⟨i, g, w₁, -, hl, hq, he⟩
  · refine ⟨⟨b, x, hall _ _ ht, hx, rfl, rfl⟩, ?_⟩
    unfold Lib.Conf.stored
    rw [henv]
  · obtain ⟨bg, bs, gr, s, -, hs, hm⟩ := Enrolled.moved he
    obtain ⟨rfl, -⟩ : b = bs ∧ x.setRef .group (.to g) = .student s := by
      rw [Lib.Conf.get_put (hl.get ht), if_pos rfl] at hs
      simpa using hs
    obtain ⟨dg, ds, -, -, hst, -, n, hget⟩ := hm.docs
    refine ⟨⟨_, _, hget, rfl, rfl, rfl⟩, ?_⟩
    funext o
    rw [hst, if_neg (by simp), if_neg (by simp), hq.stored]

/-- Every owner takes an info that is there. -/
theorem exists_attached_of {acc temp : ℕ} {ba c : IFromDB} {a : Account} {z : Fields}
    (ha : w.heap.get acc = some ⟨some ba, .account a⟩) (hr : w.heap.get temp = some ⟨some c, z⟩) (hz : z.kind = .infos)
    (hs : (w.stored .accounts ba.id).isSome) : ∃ w', Attached w acc temp w' := by
  obtain ⟨ref, m, hwr⟩ : ∃ ref m, (Fields.account { a with additionalInfo := .to temp }).Writes w.heap ref m := by
    refine exists_writes (fun f v hv => ?_) (by simp)
    cases f <;> simp only [Fields.ref, Option.some.injEq, reduceCtorEq] at hv
    exact ⟨_, hv ▸ value_of_get hr⟩
  exact exists_attached ha hr hz (toDoc_eq_ok.mpr ⟨ref, m, hwr, rfl⟩) hs

section
variable {P : ℕ → IFromDB → Fields → Prop} {es : List (ℕ × Edit)} {es' : List Edit} {e : ℕ} {t : AccountType} {r : Option ℕ}
  (hw : Sound w) (hes : Session w P es) (hE : Extends S w w₁)
  (hed : ∀ p b x, P p b x → ∃ n y, Edited w w₁ p b x (editsOf p es) n y)
include hw hes hE hed

/-- The group that a drafted student asks for, when the student has its pointer. -/
theorem Session.left_group {s : StudentInfo} {acc g : ℕ} {w₅ : World} {ref : RefField → Bson} {m : Bson} {j : Oid} {xg : Group}
    (hdr : Drafted w₁ (.student s) acc w₂) (hnew : w₂.heap.get w₁.heap.next =
      some ⟨some (w₁.draft (.student s) ref m), (Fields.student s).bare.setRef .owner (.to acc)⟩)
    (hm : Meets w₁ P es .groups j p b (.group xg) es') (hl : Looked w₂ .groups j (some .groupDB) (some g) w₅) :
    (w₅.put w₁.heap.next ⟨some (w₁.draft (.student s) ref m), .student { s with owner := .to acc, group := .to g }⟩).stored =
        w₂.stored ∧
      ∃ n y, Left w p b (.group xg) es' (w₅.put w₁.heap.next
        ⟨some (w₁.draft (.student s) ref m), .student { s with owner := .to acc, group := .to g }⟩) g n y := by
  have hE₅ : Extends (fun _ => True) w₂ w₅ := .looked hdr.sound hl fun c hc => by
    obtain rfl := Option.some.inj hc
    simp [DBClass.kind]
  have hnew₅ := hl.get hnew
  have hE₄ : Extends (fun _ => True) w₂ (w₅.put w₁.heap.next
      ⟨some (w₁.draft (.student s) ref m), .student { s with owner := .to acc, group := .to g }⟩) :=
    hE₅.trans (.put hE₅.sound hnew₅ rfl rfl (.inl trivial))
  have hkind : ((Fields.student s).bare.setRef .owner (.to acc)).kind = .infos := rfl
  refine ⟨hE₄.stored, (hm.left hw hes hE hed ?_ hE₄.sound (fun q b z hq => ?_) fun k i d hd => ?_).2⟩
  · exact hl.supplies.move (hdr.cached _ (by simp)).symm (congrFun (hdr.stored _ (by simp)).symm _)
      fun o ho hq => get_put_of_kind hnew₅ (by simp [hkind]) ho hq
  · rw [Lib.Conf.get_put hnew₅, if_neg (Lib.Heap.lt_next hq).ne, hl.get (hdr.other _ _ _ hq)]
  · rw [hE₄.stored, hdr.keeps _ _ _ hd]

/-- The owner of a new info is stored. -/
theorem Session.owner {a : Account} (hready : Ready w₁ e x t i) (hm : Meets w₁ P es .accounts i p b (.account a) es')
    (h : run (InfosController.add e t) w₁ = .ok (r, w')) : w'.Agrees .accounts b (touched es' ++ ["AdditionalInfo"]) := by
  obtain ⟨v, hv, hval⟩ := hready.owner
  obtain ⟨acc, w₂, w₃, hdr, hsup, hgr, ha⟩ := added_of_run hE.sound hready.plain hready.type hv hval h
  obtain ⟨-, n, y, hl⟩ := hm.left hw hes hE hed hsup hdr.sound hdr.other hdr.keeps
  obtain ⟨a', rfl⟩ : ∃ a', y = .account a' := by
    have hy : y.cls = .accountDB := hl.cls
    cases y <;> first | exact ⟨_, rfl⟩ | cases hy
  refine hl.agrees_attached ?_ ha
  rcases hgr with ⟨hx, hgr⟩ | ⟨-, rfl⟩
  · obtain ⟨s, rfl⟩ : ∃ s, x = .student s := by cases x <;> first | exact ⟨_, rfl⟩ | cases hx
    obtain ⟨ref, m, -, hnew, -⟩ := hdr.new
    exact account_of_grouped hdr.sound hgr hnew rfl hl.get
  · exact hl.get

/-- The group of a new student and the student are stored. -/
theorem Session.group {s : StudentInfo} (hready : Ready w₁ e x t i) (hx : x = .student s) {j : Oid} {xg : Group}
    (hm : Meets w₁ P es .groups j p b (.group xg) es') (hgroup : s.group.value w₁.heap = .ok (.oid j))
    (h : run (InfosController.add e t) w₁ = .ok (r, w')) :
    (w'.Agrees .groups b (touched es' ++ ["Members"]) ↔ KeptRefs w p b (.group xg) es' (touched es' ++ ["Members"])) ∧
    (w'.Gains b w₁.env.nextOid ↔ b.doc.members = [] ∨ MembersListed w b es') ∧
    ∃ d, x.toDoc w₁.heap = .ok d ∧
      w'.Agrees .infos { doc := Collection.withId w₁.env.nextOid d, id := w₁.env.nextOid } ["Group"] := by
  subst hx
  obtain ⟨v, hv, hval⟩ := hready.owner
  obtain ⟨acc, w₂, w₃, hdr, hsup, hgr, ha⟩ := added_of_run hE.sound hready.plain hready.type hv hval h
  obtain ⟨-, hgr⟩ : (Fields.student s).cls = .studentInfoDB ∧ Grouped w₂ w₁.heap.next w₃ := by
    rcases hgr with hgr | ⟨hx, -⟩
    · exact hgr
    · cases hx
  obtain ⟨ref, m, hwr, hnew, hst⟩ := hdr.new
  have hdoc : (w₁.draft (.student s) ref m).doc.get? "Group" = some (.oid j) :=
    draft_get? (g := .getStudentGroup) rfl hwr rfl hgroup
  rcases cases_of_grouped hdr.sound hgr hnew rfl with ⟨-, -, hno⟩ | ⟨j', g, w₅, hdoc', hl, hq, hen⟩
  · refine absurd (hno j hdoc) ?_
    rw [hdr.stored _ (by simp)]
    exact hm.stored hes hE rfl
  obtain rfl : j = j' := Bson.oid.inj (Option.some.inj (hdoc.symm.trans hdoc'))
  -- the world in which the group takes the student
  set c := w₁.draft (.student s) ref m with hcdef
  set w₄ := w₅.put w₁.heap.next ⟨some c, .student { s with owner := .to acc, group := .to g }⟩ with hw₄
  have hnew₅ := hl.get hnew
  have hkind : ((Fields.student s).bare.setRef .owner (.to acc)).kind = .infos := rfl
  have hnew₄ : w₄.heap.get w₁.heap.next = some ⟨some c, .student { s with owner := .to acc, group := .to g }⟩ :=
    (Lib.Conf.get_put hnew₅ _).trans (if_pos rfl)
  obtain ⟨-, n, y, hleft⟩ := Session.left_group hw hes hE hed hdr hnew hm hl
  obtain ⟨hagree, hgain, ds, hds, hsts⟩ := hleft.agrees_enrolled hnew₄ rfl hen
  have hsame : w'.stored .groups = w₃.stored .groups := ha.stored_ne (by simp)
  refine ⟨?_, ?_, _, toDoc_eq_ok.mpr ⟨ref, m, hwr, rfl⟩, (agrees_iff_of_stored (d := ("_id", .oid c.id) :: ds) ?_).mpr
    fun key hkey => ?_⟩
  · rw [← hagree, Lib.Conf.Agrees, hsame]
    rfl
  · rw [← hgain, Lib.Conf.Gains, hsame]
    rfl
  · rw [ha.stored_ne (by simp)]
    exact hsts
  obtain ⟨ref', m', hwr', rfl⟩ := toDoc_eq_ok.mp hds
  refine Doc.get?_cons_congr (fun _ => rfl) (get?_written_congr (x := .student s) m' m (fun f hf he => ?_) (by simp [Fields.cls]))
  have hf' : f = .owner := by
    cases f <;> simp [Fields.cls, DBClass.refs] at hf
    · rfl
    · exact absurd he.symm (by simpa [RefField.key] using hkey)
  subst hf'
  obtain rfl := Option.some.inj hv
  -- the owner is written by the id it was written by before
  obtain ⟨ca, za, hga, hex, rfl, hka⟩ := hsup.found hE.sound hdr.other
  have hga₄ : w₄.heap.get acc = some ⟨some ca, za⟩ := get_put_of_kind hnew₅ (by simp [hkind]) hka (hl.get hga)
  have hacc : (Pointer.to acc).value w₄.heap = .ok (.oid ca.id) := by rw [value_of_get hga₄, hex, if_pos rfl]
  rw [Except.ok.inj ((hwr'.ref .owner _ rfl).symm.trans hacc), Except.ok.inj ((hwr.ref .owner _ rfl).symm.trans hval)]

/-! ### `Add` returns -/

/-- The group that a drafted student names takes it. -/
theorem Session.grouped {s : StudentInfo} {acc : ℕ} {j : Oid} {xg : Group} (hdr : Drafted w₁ (.student s) acc w₂)
    (hsup : w₁.Supplies .accounts i acc w₂) (hm : Meets w₁ P es .groups j p b (.group xg) es')
    (hgroup : s.group.value w₁.heap = .ok (.oid j)) : ∃ w₃, Grouped w₂ w₁.heap.next w₃ := by
  obtain ⟨ref, m, hwr, hnew, hst⟩ := hdr.new
  have hdoc : (w₁.draft (.student s) ref m).doc.get? "Group" = some (.oid j) :=
    draft_get? (g := .getStudentGroup) rfl hwr rfl hgroup
  obtain ⟨q₀, w₀, hs₀⟩ := hm.supplies hE.sound
  obtain ⟨g, w₅, hl⟩ := hs₀.looked (hdr.cached _ (by simp)) (congrFun (hdr.stored _ (by simp)) _)
  obtain ⟨hst₄, n, y, hleft⟩ := Session.left_group hw hes hE hed hdr hnew hm hl
  have hnew₅ := hl.get hnew
  have hkind : ((Fields.student s).bare.setRef .owner (.to acc)).kind = .infos := rfl
  set w₄ := w₅.put w₁.heap.next ⟨some (w₁.draft (.student s) ref m), .student { s with owner := .to acc, group := .to g }⟩
    with hw₄
  have hnew₄ : w₄.heap.get w₁.heap.next =
      some ⟨some (w₁.draft (.student s) ref m), .student { s with owner := .to acc, group := .to g }⟩ :=
    (Lib.Conf.get_put hnew₅ _).trans (if_pos rfl)
  -- the getter finds the group, and then keeps it
  obtain ⟨cg, zg, hg₅, -⟩ := hl.alive hdr.sound rfl
  have hmem : Getter.field .getStudentGroup ∈ DBClass.studentInfoDB.refs := by simp [DBClass.refs, Getter.field]
  have hgot := GotBy.loaded (g := .getStudentGroup) hnew rfl hdoc hl hg₅ rfl hnew₅
  have hrun₁ : run (StudentInfoDB.getGroup w₁.heap.next) w₂ = .ok (some g, w₄) :=
    (run_getter_iff (g := .getStudentGroup) hdr.sound hnew hmem).mpr hgot
  have hsound₄ : Sound w₄ := (quiet_getGroup hdr.sound hrun₁).sound hdr.sound
  obtain ⟨S', v, v', hv, hF, hE', hed', hr, -⟩ := hleft.edited
  have hrun₂ : run (StudentInfoDB.getGroup w₁.heap.next) w₄ = .ok (some g, w₄) :=
    (run_getter_iff (g := .getStudentGroup) hsound₄ hnew₄ hmem).mpr (.settled hnew₄ rfl (.held hleft.get hF.exist))
  -- both can be written
  obtain ⟨g', rfl⟩ : ∃ g', y = .group g' := by
    have hy : y.cls = .groupDB := hleft.cls
    cases y <;> first | exact ⟨_, rfl⟩ | cases hy
  obtain ⟨refg, mg, hwg⟩ := hed'.group_writes hv hF hE' hr (ident_of_get hnew₄)
  obtain ⟨refs, ms, hws⟩ : ∃ ref m, (Fields.student { s with owner := .to acc, group := .to g }).Writes w₄.heap ref m := by
    obtain ⟨ca, za, hga, -, -, hka⟩ := hsup.found hE.sound hdr.other
    have hga₄ : w₄.heap.get acc = some ⟨some ca, za⟩ := get_put_of_kind hnew₅ (by simp [hkind]) hka (hl.get hga)
    refine exists_writes (fun f v hv => ?_) (by simp)
    cases f <;> simp only [Fields.ref, Option.some.injEq, reduceCtorEq] at hv <;> subst hv
    · exact ⟨_, value_of_get hga₄⟩
    · exact ⟨_, value_of_get hleft.get⟩
  obtain ⟨w₃, hadd⟩ := exists_enrolled hleft.get hnew₄ (toDoc_eq_ok.mpr ⟨_, _, hwg, rfl⟩) (toDoc_eq_ok.mpr ⟨_, _, hws, rfl⟩)
    (Option.isSome_of_eq_some hleft.stored) (Option.isSome_of_eq_some (by rw [hst₄]; exact hst))
  exact ⟨w₃, .some hrun₁ hrun₂ (run_addStudent_iff.mp hadd).2⟩

/-- `Add` returns when it meets an owner and, if the new student names one, a group. -/
theorem Session.added {a : Account} (hready : Ready w₁ e x t i) (hm : Meets w₁ P es .accounts i p b (.account a) es')
    (hgr : ∀ s, x = .student s → s.group.value w₁.heap = .ok nullValue ∨
      ∃ j p b g es', s.group.value w₁.heap = .ok (.oid j) ∧ Meets w₁ P es .groups j p b (.group g) es') :
    ∃ r w', run (InfosController.add e t) w₁ = .ok (r, w') := by
  obtain ⟨v, hv, hval⟩ := hready.owner
  have hx := hready.kind
  have ht := hready.type
  obtain ⟨q, w₀, hs⟩ := hm.supplies hE.sound
  obtain ⟨ref, m, hwr⟩ : ∃ ref m, x.Writes w₁.heap ref m := by
    refine exists_writes (fun f u hu => ?_) ?_
    · by_cases hf : f = .owner
      · subst hf
        obtain rfl := Option.some.inj (hv.symm.trans hu)
        exact ⟨_, hval⟩
      · obtain ⟨s, rfl, rfl⟩ : ∃ s, x = .student s ∧ u = s.group := by
          cases x <;> cases f <;> simp_all [Fields.ref, Fields.kind]
        rcases hgr s rfl with hnull | ⟨j, _, _, _, _, hgroup, -⟩
        · exact ⟨_, hnull⟩
        · exact ⟨_, hgroup⟩
    · rintro g rfl
      cases hx
  have hd : x.toDoc w₁.heap = .ok (x.written ref m) := toDoc_eq_ok.mpr ⟨ref, m, hwr, rfl⟩
  have hid : Doc.get? (x.written ref m) "_id" = none := by cases x <;> simp [Fields.written]
  have ho := ofDoc_written x ref m w₁.env.nextOid
  -- the owner, and where it stands
  have owner {acc : ℕ} {w₂ : World} (hdr : Drafted w₁ x acc w₂) (hsup : w₁.Supplies .accounts i acc w₂) :
      ∃ ba a', w₂.heap.get acc = some ⟨some ba, .account a'⟩ ∧ (w₂.stored .accounts ba.id).isSome := by
    obtain ⟨-, n, y, hl⟩ := hm.left hw hes hE hed hsup hdr.sound hdr.other hdr.keeps
    obtain ⟨a', rfl⟩ : ∃ a', y = .account a' := by
      have hy : y.cls = .accountDB := hl.cls
      cases y <;> first | exact ⟨_, rfl⟩ | cases hy
    exact ⟨_, a', hl.get, Option.isSome_of_eq_some hl.stored⟩
  cases t with
  | admin => cases ht
  | teacher =>
    obtain ⟨acc, w₂, hrun⟩ := exists_drafted hE.sound hready.plain hx hwr hv hval hs (g := .getTeacherOwner) rfl
    obtain ⟨hdr, hsup⟩ := drafted hE.sound hready.plain hd hx ho hv hval rfl hrun
    obtain ⟨ba, a', hacc, hst⟩ := owner hdr hsup
    obtain ⟨ref', m', -, hnew, -⟩ := hdr.new
    obtain ⟨w', ha⟩ := exists_attached_of hacc hnew (by rw [← Fields.kind_cls, Fields.cls_setRef, Fields.cls_bare, Fields.kind_cls, hx]) hst
    refine ⟨_, w', run_infosAdd_of hready.plain hx hd hid (.teacher stored_post_new (Option.some.inj ht ▸ ho) hrun ?_)⟩
    simpa using ha
  | student =>
    obtain ⟨acc, w₂, hrun⟩ := exists_drafted hE.sound hready.plain hx hwr hv hval hs (g := .getStudentOwner) rfl
    obtain ⟨hdr, hsup⟩ := drafted hE.sound hready.plain hd hx ho hv hval rfl hrun
    obtain ⟨ba, a', hacc, hst⟩ := owner hdr hsup
    obtain ⟨s, rfl⟩ : ∃ s, x = .student s := by
      have hcls := Option.some.inj ht
      cases x <;> first | exact ⟨_, rfl⟩ | cases hcls
    obtain ⟨ref', m', hwr', hnew, -⟩ := hdr.new
    obtain ⟨w₃, hgrp⟩ : ∃ w₃, Grouped w₂ w₁.heap.next w₃ := by
      rcases hgr s rfl with hnull | ⟨j, p, b, g, es', hgroup, hm'⟩
      · have hdoc := draft_get? (m := m') (g := .getStudentGroup) rfl hwr' rfl hnull
        have hgot := GotBy.absent (g := .getStudentGroup) hnew rfl hdoc rfl
        have hmem : Getter.field .getStudentGroup ∈ DBClass.studentInfoDB.refs := by simp [DBClass.refs, Getter.field]
        exact ⟨w₂, .none ((run_getter_iff (g := .getStudentGroup) hdr.sound hnew hmem).mpr hgot)⟩
      · exact Session.grouped hw hes hE hed hdr hsup hm' hgroup
    obtain ⟨⟨c, z, hc, hz, -⟩, hacc'⟩ := info_of_grouped hdr.sound hgrp hnew rfl rfl
    obtain ⟨w', ha⟩ := exists_attached_of (account_of_grouped hdr.sound hgrp hnew rfl hacc) hc hz (by rw [hacc', hst])
    have hgrp' : Grouped w₂ (w₁.post .infos e ((Fields.student s).written ref m)).heap.next w₃ := by simpa using hgrp
    exact ⟨_, w', run_infosAdd_of hready.plain hx hd hid (.student stored_post_new ho hrun hgrp' (by simpa using ha))⟩

end

end Cbt
