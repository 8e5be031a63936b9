import Cbt.Groups.Membership

/-! A new info joins its group. `Add` of the infos stores the info before it asks the new
object for its owner and its group, and the group that takes it is the one the cache has, or
one that is built for it and knows no students. So the two sides of membership agree
afterwards when the list of the cached object is the stored one, or nothing is lost. -/

namespace Cbt

variable {w v w' : World} {p : ℕ}

/-! ### The objects beside a new one -/

/-- What was there is as it was, but for one object. -/
structure Aside (p : ℕ) (w w' : World) : Prop where
  stored : w'.stored = w.stored
  get : ∀ q < w.heap.next, q ≠ p → w'.heap.get q = w.heap.get q
  next : w.heap.next ≤ w'.heap.next

namespace Aside

theorem trans (h : Aside p w v) (h' : Aside p v w') : Aside p w w' where
  stored := h'.stored.trans h.stored
  get q hq hne := (h'.get q (hq.trans_le h.next) hne).trans (h.get q hq hne)
  next := h.next.trans h'.next

theorem push (w : World) (o : Obj) : Aside p w (w.push o) where
  stored := rfl
  get q hq _ := by rw [Lib.Conf.heap_push, Lib.Heap.get_push, if_neg hq.ne]
  next := by simp

theorem put {o o' : Obj} (ho : w.heap.get p = some o) : Aside p w (w.put p o') where
  stored := rfl
  get q _ hne := by rw [Lib.Conf.get_put ho, if_neg hne]
  next := by simp

theorem looked {k : Kind} {i : Oid} {c? : Option DBClass} {r : Option ℕ} (h : Looked w k i c? r w') : Aside p w w' := by
  cases h with
  | hit => exact ⟨rfl, fun _ _ _ => rfl, le_rfl⟩
  | absent => exact ⟨rfl, fun _ _ _ => rfl, le_rfl⟩
  | loaded => exact ⟨rfl, fun q hq _ => by rw [Lib.Conf.heap_load, Lib.Heap.get_push, if_neg hq.ne], by simp⟩

/-- A getter whose pointer is null. -/
theorem got {g : Getter} {q : ℕ} (h : GotBy w g p (some q) w') (hn : w.refOf p g.field = some .null) : Aside p w w' := by
  cases h with
  | settled ho hv => simp [refOf_of_get ho, hv] at hn
  | loaded ho _ hv hl hp hc h₁ => exact (looked hl).trans (put h₁)

/-- A cache that did not grow finds what it found. -/
theorem cached (h : Aside p w w') (hw : Sound w) {k : Kind} (hp : p ∉ w.cash k) (hc : w'.cash k = w.cash k) :
    w'.cached k = w.cached k := by
  funext i
  unfold Lib.Conf.cached
  rw [hc]
  refine List.find?_congr fun q hq => ?_
  have hne : q ≠ p := by
    rintro rfl
    exact hp hq
  rw [Lib.Conf.idOf, Lib.Conf.idOf, h.get q (hw.lt_next hq) hne]

end Aside

/-! ### The stored info -/

/-- A new info names a group when it is a student's and the student's group exists. -/
theorem group_of_written {h : Memory} {x : Fields} {d : Doc} {i o : Oid} (hd : x.toDoc h = .ok d) (hx : x.kind = .infos)
    (hg : Doc.get? (Collection.withId i d) "Group" = some (.oid o)) :
    ∃ s, x = .student s ∧ s.group.value h = .ok (.oid o) := by
  obtain ⟨ref, m, hwr, rfl⟩ := toDoc_eq_ok.mp hd
  rw [Collection.withId, Doc.get?_cons, if_neg (by decide)] at hg
  cases x with
  | student s =>
    have href := hwr.ref .group s.group rfl
    rw [show "Group" = RefField.key .group from rfl, get?_written (by simp [Fields.cls, DBClass.refs]),
      Option.some.injEq] at hg
    exact ⟨s, rfl, hg ▸ href⟩
  | additionalInfo => simp [Fields.written] at hg
  | teacher t => simp [Fields.written, Doc.get?_cons] at hg
  | _ => cases hx

/-- The two sides agree on the infos that were there. -/
theorem Membership.posted {e : ℕ} {x : Fields} {d : Doc} (h : Membership w) (hi : Issued w) (hx : x.kind = .infos)
    (hd : x.toDoc w.heap = .ok d) : AgreeOn (· ≠ w.env.nextOid) (w.post .infos e d) := by
  have hgroups : ∀ {o}, (w.post .infos e d).stored .groups o = w.stored .groups o := by simp [stored_post]
  refine ⟨fun o g i s hg hs hst hne => ?_, fun o g hg => ?_, fun o g i hg hin => ?_, fun i s o hs ho => ?_⟩
  · rw [hgroups] at hg
    rw [stored_post, if_neg fun hk => hne hk.2] at hs
    exact h.both o g i s hg hs hst trivial
  · exact h.nodup o g (hgroups ▸ hg)
  · exact Nat.lt_succ_of_lt (h.given o g i (hgroups ▸ hg) hin)
  · rw [stored_post] at hs
    refine Nat.lt_succ_of_lt ?_
    split_ifs at hs with hk
    · obtain rfl := Option.some.inj hs
      obtain ⟨s, rfl, hv⟩ := group_of_written hd hx ho
      exact hi.value hv
    · exact h.older i s o hs ho

/-- The two sides agree if they do on all infos but one and on that one. -/
theorem AgreeOn.complete {n : Oid} (h : AgreeOn (· ≠ n) w) (hn : ∀ o g s, w.stored .groups o = some g →
    w.stored .infos n = some s → (n ∈ g.members ↔ s.get? "Group" = some (.oid o))) : Membership w where
  both o g i s hg hs hst _ := by
    by_cases hi : i = n
    · subst hi
      exact hn o g s hg hs
    · exact h.both o g i s hg hs hst hi
  nodup := h.nodup
  given := h.given
  older := h.older

/-- A new info that names no stored group is in none. -/
theorem Membership.posted_alone {e : ℕ} {x : Fields} {d : Doc} (h : Membership w) (hi : Issued w) (hx : x.kind = .infos)
    (hd : x.toDoc w.heap = .ok d) (hno : ∀ o, Doc.get? (Collection.withId w.env.nextOid d) "Group" = some (.oid o) →
      w.stored .groups o = none) : Membership (w.post .infos e d) := by
  refine (h.posted hi hx hd).complete fun o g s hg hs => ?_
  rw [stored_post_new] at hs
  obtain rfl := Option.some.inj hs
  rw [stored_post, if_neg (by simp)] at hg
  constructor
  · intro hin
    exact absurd (h.given o g _ hg hin) (lt_irrefl _)
  · intro ho
    rw [hno o ho] at hg
    cases hg

/-! ### The list of the group -/

/-- Objects that have the ids they had are written by the same ids. -/
theorem existingIds_of_ident {h h' : Memory} {l : List ℕ} {ids : List Oid}
    (hb : ∀ q ∈ l, ∀ i, ident h' q = .ok i → ident h q = .ok i) (hl : existingIds h' l = .ok ids) :
    existingIds h l = .ok ids := by
  induction l generalizing ids with
  | nil => exact hl
  | cons q l ih =>
    rw [existingIds_cons, exceptBind_eq_ok] at hl ⊢
    obtain ⟨i, hi, hl⟩ := hl
    rw [exceptBind_eq_ok] at hl
    obtain ⟨ids', hids, hl⟩ := hl
    refine ⟨i, hb q List.mem_cons_self i hi, exceptBind_eq_ok.mpr ⟨ids', ih ?_ hids, hl⟩⟩
    exact fun r hr => hb r (List.mem_cons_of_mem _ hr)

theorem ident_eq_ok {h : Memory} {q : ℕ} {i : Oid × Bool} :
    ident h q = .ok i ↔ ∃ b x, h.get q = some ⟨some b, x⟩ ∧ (b.id, b.isExist) = i := by
  constructor
  · intro hq
    cases hh : header h q with
    | error e => simp [ident, hh, Functor.map, Except.map] at hq
    | ok b =>
      obtain ⟨x, hx⟩ := header_eq_ok.mp hh
      rw [ident_of_get hx] at hq
      exact ⟨b, x, hx, Except.ok.inj hq⟩
  · rintro ⟨b, x, hx, rfl⟩
    exact ident_of_get hx

section List
variable {Γ : Classes} {e g : ℕ} {x : Fields} {d : Doc} (h : Membership w) (hi : Issued w) (ht : WellTyped Γ w)
  (ha : Aside w.heap.next (w.post .infos e d) v)
include h hi

omit hi in
/-- No stored group lists the new info. -/
theorem not_listed_new {o : Oid} {dg : Doc} (hd : w.stored .groups o = some dg) : w.env.nextOid ∉ dg.members :=
  fun hin => lt_irrefl _ (h.given o dg _ hd hin)

include ht ha

/-- The list of an object that was there is as it was. -/
theorem Lib.Conf.InStep.aside (hs : w.InStep g) (hg : g < w.heap.next) : v.InStep g := by
  have back : ∀ {q o}, q < w.heap.next → v.heap.get q = some o → w.heap.get q = some o := by
    intro q o hq hv
    rw [ha.get q (by simpa using hq) hq.ne, heap_post, Lib.Heap.get_free] at hv
    split_ifs at hv
    exact hv
  intro b gr ids dg hget hids hd
  have hget' := back hg hget
  have hids' : existingIds w.heap gr.students = .ok ids := by
    refine existingIds_of_ident (fun q hq i hqi => ?_) hids
    obtain ⟨c, z, hz, hc⟩ := ident_eq_ok.mp hqi
    exact ident_eq_ok.mpr ⟨c, z, back (ht.below q _ (ht.students g _ gr hget' q hq)) hz, hc⟩
  rw [ha.stored, stored_post, if_neg (by simp)] at hd
  obtain ⟨hn, hmem⟩ := hs b gr ids dg hget' hids' hd
  refine ⟨hn, fun i s hs hst => ?_⟩
  rw [ha.stored, stored_post] at hs
  split_ifs at hs with hk
  · -- the new id is in neither list
    rw [hk.2]
    exact iff_of_false (fun hin => lt_irrefl _ (hi.existingIds hids' hin)) (not_listed_new h hd)
  · exact hmem i s hs hst

/-- The list of the group that is looked up for the new info. -/
theorem inStep_of_looked {i : Oid} {o o' : Obj} {v' : World} (hw : Sound w) (hs : w.cached .groups i = none →
    ∀ dg, w.stored .groups i = some dg → ∀ j ∈ dg.members, ¬ w.OnFile j)
    (hin : ∀ g, w.cached .groups i = some g → w.InStep g) (hc : v.cached .groups i = w.cached .groups i)
    (hl : Looked v .groups i (some .groupDB) (some g) v') (ho : v.heap.get w.heap.next = some o) :
    (v'.put w.heap.next o').InStep g := by
  have hput : v'.heap.get w.heap.next = some o := hl.get ho
  have ha' : Aside w.heap.next (w.post .infos e d) (v'.put w.heap.next o') := (ha.trans (.looked hl)).trans (.put hput)
  have hst : (v'.put w.heap.next o').stored = (w.post .infos e d).stored := ha'.stored
  cases hl with
  | hit hcg =>
    rw [hc] at hcg
    exact (hin g hcg).aside h hi ht ha' (hw.lt_next (Lib.Conf.cached_mem hcg))
  | loaded hn hsd hcl hof =>
    rename_i c dg o₁
    obtain rfl := Option.some.inj hcl
    -- an object that was just built knows no students
    obtain ⟨y, j, hy, hj, rfl⟩ := ofDoc_eq_ok.mp hof
    intro b gr ids dg' hget hids hd
    rw [Lib.Conf.get_put hput, if_neg (Lib.Heap.lt_next ho).ne', Lib.Conf.heap_load, Lib.Heap.get_push_next] at hget
    obtain ⟨hb, rfl⟩ : IFromDB.own 1 { doc := dg, id := j } = b ∧ y = .group gr := by simpa [Obj.own] using hget
    obtain rfl : b.id = i := by
      rw [← hb]
      simpa [hj] using (v.env.coll .groups).ids i dg hsd
    have hnil : gr.students = [] := by
      have hbare := DBClass.bare_fields hy
      simp only [Fields.bare, Fields.group.injEq] at hbare
      rw [← hbare]
    rw [hnil] at hids
    obtain rfl := Except.ok.inj hids
    refine ⟨List.nodup_nil, fun j s hsj hst' => iff_of_false List.not_mem_nil fun hjin => ?_⟩
    rw [hst, stored_post, if_neg (by simp)] at hd
    rw [hst, stored_post] at hsj
    split_ifs at hsj with hk
    · exact not_listed_new h hd (hk.2 ▸ hjin)
    · exact hs (hc ▸ hn) dg' hd j hjin ⟨s, hsj, hst'⟩

end List

/-! ### Adding the info -/

/-- A student that is added with a stored group is added as a student, and the group's object is in step; if there is
none, no stored student is listed. -/
def Lib.Conf.Joins (w : World) (e : ℕ) (t : AccountType) : Prop :=
  ∀ s i dg, w.heap.get e = some ⟨none, .student s⟩ → s.group.value w.heap = .ok (.oid i) →
    w.stored .groups i = some dg → t = .student ∧ (∀ g, w.cached .groups i = some g → w.InStep g) ∧
      (w.cached .groups i = none → ∀ j ∈ dg.members, ¬ w.OnFile j)

theorem Attached.membership {acc res : ℕ} (ha : Attached w acc res w') (h : Membership w) : Membership w' := by
  obtain ⟨ba, br, a, x, -, -, -, hgiven⟩ := ha.given
  obtain ⟨da, -, hst, -⟩ := hgiven.docs
  refine h.shrink (fun o d hd => ?_) (fun i d hd => ?_) hgiven.nextOid.ge
  · rwa [hst, if_neg (by simp)] at hd
  · rwa [hst, if_neg (by simp)] at hd

/-- The new object when its owner was found. -/
theorem owner_found {n : ℕ} {c : IFromDB} {y : Fields} {acc : ℕ} {g : Getter} (hw : Sound w)
    (hn : w.heap.get n = some ⟨some c, y⟩) (hc : c.isExist = true) (hy : y.bare = y) (hg : g.field = .owner) (h : run (g.call n) w = .ok (some acc, w')) :
    Aside n w w' ∧ ∃ c' y', w'.heap.get n = some ⟨some c', y'⟩ ∧ c'.core = c.core ∧ y'.cls = y.cls ∧
      y'.ref .group = y.ref .group := by
  have hgot := run_getter hw h
  have hnull : w.refOf n g.field = some .null := by
    cases hgot with
    | settled ho hv =>
      obtain rfl := Option.some.inj (hn.symm.trans ho)
      rcases ref_of_bare hy hv with hno | ⟨hno, -⟩ <;> cases hno
    | loaded ho hv => exact (refOf_of_get ho _).trans hv
  refine ⟨.got hgot hnull, ?_⟩
  obtain ⟨c', y', hn', hc', hy'⟩ := (quiet_getter hw h).same hn hc
  refine ⟨c', y', hn', hc', hy', ?_⟩
  have hother : RefField.group ≠ g.field := by rw [hg]; simp
  have := hgot.refOf ⟨c, y, hn, hc⟩ (.inr hother)
  rwa [refOf_of_get hn, refOf_of_get hn'] at this

/-- A new student that was built and asked for its owner: the rest is as it was when the info was stored. -/
structure Drawn (w : World) (e : ℕ) (d : Doc) (c : IFromDB) (y : Fields) (v : World) : Prop where
  aside : Aside w.heap.next (w.post .infos e d) v
  sound : Sound v
  issued : Issued v
  nextOid : v.env.nextOid = (w.post .infos e d).env.nextOid
  new : v.heap.get w.heap.next = some ⟨some c, y⟩
  id : c.id = w.env.nextOid
  doc : c.doc = Collection.withId w.env.nextOid d
  exist : c.isExist = true
  null : y.ref .group = some .null
  cached : v.cached .groups = w.cached .groups

theorem drawn_of_run {e acc : ℕ} {x : Fields} {d d' : Doc} {o : Obj} (hw : Sound w) (hi : Issued w)
    (he : w.heap.get e = some ⟨none, x⟩) (hs : (w.post .infos e d).stored .infos w.env.nextOid = some d')
    (ho : DBClass.studentInfoDB.ofDoc d' = .ok o)
    (h : run (StudentInfoDB.getOwner w.heap.next) ((w.post .infos e d).push o) = .ok (some acc, v)) :
    ∃ c y, Drawn w e d c y v := by
  have hpost : Sound (w.post .infos e d) := hw.post he d
  obtain ⟨y, hcls, rfl⟩ := ofDoc_stored hs ho
  have hbare := DBClass.bare_fields (fields_of_ofDoc ho)
  set u := (w.post .infos e d).push ⟨some { doc := d', id := w.env.nextOid }, y⟩ with hu
  have hsu : Sound u := sound_push hpost _
  have hnext : (w.post .infos e d).heap.next = w.heap.next := by simp
  have hnew : u.heap.get w.heap.next = some ⟨some { doc := d', id := w.env.nextOid }, y⟩ := by
    rw [← hnext]
    exact Lib.Heap.get_push_next _ _
  have hq := quiet_getOwner (g := .getStudentOwner) rfl hsu h
  obtain ⟨hown, c, y', hn, hc, hcls', href⟩ := owner_found (g := .getStudentOwner) hsu hnew rfl hbare rfl h
  simp only [IFromDB.core, Prod.mk.injEq] at hc
  rw [stored_post_new, Option.some.injEq] at hs
  have hfresh : w.heap.next ∉ u.cash .groups := fun hin => lt_irrefl _ (hnext ▸ hpost.lt_next hin)
  refine ⟨c, y', ⟨(Aside.push _ _).trans hown, hq.sound hsu, ?_, ?_, hn, hc.1, hc.2.1.trans hs.symm, hc.2.2, ?_, ?_⟩⟩
  · refine Registered.quiet (Registered.push (hi.post d) fun b hb => ⟨?_, trivial⟩) hq
    obtain rfl := Option.some.inj hb
    exact Nat.lt_succ_self _
  · rw [hq.env]
    rfl
  · obtain ⟨s, rfl⟩ : ∃ s, y = .student s := by cases y <;> first | exact ⟨_, rfl⟩ | cases hcls
    rw [href, ← hbare]
    rfl
  · rw [hown.cached hsu hfresh (hq.cash_eq (by simp)), hu, cached_push hpost, cached_post hw he]

namespace Drawn

variable {Γ : Classes} {e : ℕ} {t : AccountType} {x : Fields} {d : Doc} {c : IFromDB} {y : Fields}
  (h : Membership w) (hw : Sound w) (hi : Issued w) (ht : WellTyped Γ w) (hg : w.Joins e t)
  (he : w.heap.get e = some ⟨none, x⟩) (hx : x.kind = .infos) (hd : x.toDoc w.heap = .ok d) (hv : Drawn w e d c y v)
include h hi hx hd hv

/-- The new student names no stored group. -/
theorem alone (henv : w'.env = v.env) (hno : ∀ i, c.doc.get? "Group" = some (.oid i) → v.stored .groups i = none) :
    Membership w' := by
  have hst : w'.stored = (w.post .infos e d).stored := by
    rw [← hv.aside.stored]
    unfold Lib.Conf.stored
    rw [henv]
  have hposted : Membership (w.post .infos e d) := h.posted_alone hi hx hd fun o ho => by
    have hnone := hno o (by rw [hv.doc, ho])
    rwa [hv.aside.stored, stored_post, if_neg (by simp)] at hnone
  refine hposted.shrink (fun o d hd => hst ▸ hd) (fun i d hd => hst ▸ hd) ?_
  rw [henv, hv.nextOid]

include hw ht hg he

/-- The group that the new student names takes it. -/
theorem taken {i : Oid} {g : ℕ} {u : World} (hst : Doc.IsStudentInfo (Collection.withId w.env.nextOid d))
    (hdoc : c.doc.get? "Group" = some (.oid i)) (hl : Looked v .groups i (some .groupDB) (some g) u)
    (hq : Quiet (fun k _ => k = .groups) v (u.put w.heap.next ⟨some c, y.setRef .group (.to g)⟩))
    (hen : Enrolled (u.put w.heap.next ⟨some c, y.setRef .group (.to g)⟩) g w.heap.next w') : Membership w' := by
  set u' := u.put w.heap.next ⟨some c, y.setRef .group (.to g)⟩ with hu'
  have hnew := hl.get hv.new
  have hput : u'.heap.get w.heap.next = some ⟨some c, y.setRef .group (.to g)⟩ := by
    rw [hu', Lib.Conf.get_put hnew, if_pos rfl]
  have hid : u'.idOf w.heap.next = some w.env.nextOid := by rw [Lib.Conf.idOf_of_get hput, hv.id]
  have hstored : u'.stored = (w.post .infos e d).stored := hq.stored.trans hv.aside.stored
  have hnextOid : u'.env.nextOid = (w.post .infos e d).env.nextOid := by rw [hq.env, hv.nextOid]
  -- the group that takes the student is the one its info names
  obtain ⟨s, rfl, hval⟩ := group_of_written hd hx (hv.doc ▸ hdoc)
  have hgid : u'.idOf g = some i := by
    have hcg := hl.cached hv.sound
    have hsame : u'.cached = u.cached := cached_put hnew rfl
    rw [← hsame] at hcg
    exact Lib.Conf.cached_idOf hcg
  obtain ⟨bg, bs, gr, st, hgg, -, hm⟩ := hen.moved
  obtain ⟨dg, hdg⟩ := Option.isSome_iff_exists.mp hm.group_stored
  obtain rfl : bg.id = i := by simpa [Lib.Conf.idOf_of_get hgg] using hgid
  rw [hstored, stored_post, if_neg (by simp)] at hdg
  obtain ⟨-, hin, hfresh⟩ := hg s bg.id dg he hval hdg
  have henrolls : u'.Enrolls g w.heap.next := by
    refine ⟨alive_put_setRef hnew (hl.alive hv.sound rfl), ?_, ⟨c, _, hput, hv.exist⟩, fun j hj => ?_⟩
    · refine inStep_of_looked h hi ht hv.aside hw (fun hn dg' hdg' => ?_) hin (congrFun hv.cached _) hl hv.new
      obtain rfl := Option.some.inj (hdg.symm.trans hdg')
      exact hfresh hn
    · obtain rfl : w.env.nextOid = j := by simpa [hid] using hj
      refine ⟨⟨_, by rw [hstored, stored_post_new], hst⟩, fun o dg' hdg' => ?_⟩
      rw [hstored, stored_post, if_neg (by simp)] at hdg'
      exact not_listed_new h hdg'
  apply AgreeOn.enrolled ?_ (Registered.quiet hv.issued hq) henrolls hen
  have hposted : AgreeOn (· ≠ w.env.nextOid) u' :=
    (h.posted (e := e) hi hx hd).shrink (fun o d hd => hstored ▸ hd) (fun i d hd => hstored ▸ hd) hnextOid.ge
  exact hposted.mono fun i hne => by simpa [hid] using Ne.symm hne

end Drawn

/-- A new info is added. -/
theorem Membership.joined {Γ : Classes} {e : ℕ} {t : AccountType} {x : Fields} {d : Doc} {r : Option ℕ} (h : Membership w)
    (hw : Sound w) (hi : Issued w) (ht : WellTyped Γ w) (hg : w.Joins e t) (he : w.heap.get e = some ⟨none, x⟩)
    (hx : x.kind = .infos) (hd : x.toDoc w.heap = .ok d)
    (ha : InfoAdded (w.post .infos e d) w.env.nextOid t r w') : Membership w' := by
  -- only a student that is added as one can name a stored group
  have halone : t ≠ .student → Membership (w.post .infos e d) := fun hne =>
    h.posted_alone hi hx hd fun o ho => by
      obtain ⟨s, rfl, hv⟩ := group_of_written hd hx ho
      cases hs : w.stored .groups o with
      | none => rfl
      | some dg => exact absurd (hg s o dg he hv hs).1 hne
  cases ha with
  | admin => exact halone (by simp)
  | teacher hs ho hgo hatt =>
    have hq := quiet_getOwner (g := .getTeacherOwner) rfl (sound_push (hw.post he d) _) hgo
    refine hatt.membership ((halone (by simp)).shrink (fun o d hd => ?_) (fun i d hd => ?_) ?_)
    · rwa [hq.stored] at hd
    · rwa [hq.stored] at hd
    · rw [hq.env]
      exact le_rfl
  | student hs ho hgo hgr hatt =>
    rw [show (w.post .infos e d).heap.next = w.heap.next by simp] at hgo hgr
    obtain ⟨c, y, hv⟩ := drawn_of_run hw hi he hs ho hgo
    refine hatt.membership ?_
    rcases cases_of_grouped hv.sound hgr hv.new hv.null with ⟨henv, -, hno⟩ | ⟨i, g, u, hdoc, hl, hq, hen⟩
    · exact hv.alone h hi hx hd henv hno
    · rw [stored_post_new, Option.some.injEq] at hs
      obtain ⟨z, _, hz, -, -⟩ := ofDoc_eq_ok.mp ho
      exact hv.taken h hw hi ht hg he hx hd ⟨z, hs ▸ hz⟩ hdoc hl hq hen

end Cbt
