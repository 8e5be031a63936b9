import Cbt.Groups.Finding
import Cbt.Calls.SetGet
import Cbt.Windows.Creating
import Cbt.Accounts.Logins

/-! The commands on groups. A student that is dropped on the selected group enters it
when the group's object still finds the members that are stored, and a student that
is dropped on the other table leaves it when the object has them in memory. Groups
that are added list nobody, and what is deleted leaves the rest as it was. -/

namespace Cbt

open Lib.Command (run_bind_iff run_pure_iff run_fault_iff)

variable {w w₁ w₂ w' : World} {S : ℕ → Prop}

/-! ### Steps that write neither groups nor infos -/

theorem Membership.of_env (h : Membership w) (he : w'.env = w.env) : Membership w' := by
  have hs : w'.stored = w.stored := by
    unfold Lib.Conf.stored
    rw [he]
  exact h.shrink (fun o d hd => hs ▸ hd) (fun i d hd => hs ▸ hd) (by rw [he])

/-- What is stored was stored, and no id was given out. -/
structure Shrinks (w w' : World) : Prop where
  stored : ∀ k o d, w'.stored k o = some d → w.stored k o = some d
  nextOid : w'.env.nextOid = w.env.nextOid

namespace Shrinks

theorem trans (h : Shrinks w w₁) (h' : Shrinks w₁ w') : Shrinks w w' :=
  ⟨fun k o d hd => h.stored k o d (h'.stored k o d hd), h'.nextOid.trans h.nextOid⟩

theorem of_looks (h : Looks w w') : Shrinks w w' :=
  ⟨fun _ _ _ hd => by rwa [h.stored] at hd, by rw [h.env]⟩

theorem of_deleted {k : Kind} {oid : Oid} (h : Deleted w k oid w') : Shrinks w w' := by
  obtain ⟨p, b, x, db, -, -, rfl, hdb⟩ := h.effect
  refine ⟨fun k' o d hd => ?_, h.next⟩
  rw [Lib.Conf.stored_setEnv, hdb] at hd
  split_ifs at hd
  exact hd

theorem membership (h : Shrinks w w') (hm : Membership w) : Membership w' :=
  hm.shrink (h.stored .groups) (h.stored .infos) h.nextOid.ge

end Shrinks

theorem InfoDeleted.shrinks {info? : Option ℕ} (h : InfoDeleted w info? w') (hw : Sound w) : Shrinks w w' ∧ Sound w' := by
  rcases h with ⟨-, rfl⟩ | ⟨info, b, r, -, -, h⟩
  · exact ⟨.of_looks .refl, hw⟩
  · have hd := run_delete hw h
    exact ⟨.of_deleted hd, hd.sound hw⟩

theorem shrinks_deleteAccount {win win' : AdminWindow} (hw : Sound w) (hr : run win.deleteAccount w = .ok (win', w')) :
    Shrinks w w' := by
  rcases run_deleteAccount hw hr with rfl | ⟨data, info?, b, r, w₁, w₂, w₃, -, hlook, hdel, -, h₃, h₄⟩
  · exact .of_looks .refl
  · obtain ⟨hs, hw₂⟩ := hdel.shrinks (Looks.sound hlook hw)
    have hdeleted := run_delete hw₂ h₃
    have tail : Views (do AdminWindow.updateAccountsTable; win.setAccountToDisplayWidget none) :=
      .bind views_updateAccountsTable fun _ => views_setAccountToDisplayWidget win none
    exact ((Shrinks.of_looks hlook).trans hs).trans
      ((Shrinks.of_deleted hdeleted).trans (.of_looks (tail.looks (hdeleted.sound hw₂) h₄)))

theorem shrinks_deleteGroup {win win' : AdminWindow} (hw : Sound w) (hr : run win.deleteGroup w = .ok (win', w')) :
    Shrinks w w' := by
  unfold AdminWindow.deleteGroup at hr
  cases hg : win.group with
  | none =>
    rw [hg] at hr
    exact .of_looks ((views_updateGroupsScrean _ _).looks hw hr)
  | some group =>
    simp only [hg, run_bind_iff, run_fromDB_iff] at hr
    obtain ⟨b, _, ⟨-, rfl⟩, r, w₁, h₁, hr⟩ := hr
    have hd := run_delete hw h₁
    exact (Shrinks.of_deleted hd).trans (.of_looks ((views_updateGroupsScrean _ _).looks (hd.sound hw) hr))

/-- An operation that does not add an info gives out ids in order. -/
theorem Outcome.nextOid_le {a : Action} (h : Outcome w a w') (ha : ¬ a.writes .infos) : w.env.nextOid ≤ w'.env.nextOid := by
  cases h with
  | quiet hq => rw [hq.env]
  | listed hc hl hq => exact (congrArg Database.nextOid hq.env).ge
  | loggedIn => exact le_rfl
  | added => exact Nat.le_succ _
  | infoAdded => exact absurd (.inl rfl) ha
  | deleted hd => exact hd.next.ge
  | updated hu =>
    obtain ⟨b, x, d, -, -, -, -, -, -, -, hn, -⟩ := update_effect hu
    exact hn.ge
  | enrolled => exact absurd (.inr rfl) ha
  | expelled => exact absurd (.inr rfl) ha

theorem Acts.nextOid_le {K : Kind → Prop} (h : Acts K w w') (hw : Sound w) (hK : ¬ K .infos) :
    w.env.nextOid ≤ w'.env.nextOid := by
  induction h with
  | refl => exact le_rfl
  | tail h h' ih =>
    refine ih.trans ?_
    cases h' with
    | act a ha hs => exact (outcome_of_step (Acts.sound h hw) hs).nextOid_le fun hk => hK (ha _ hk)
    | assigned hs =>
      cases hs
      exact le_rfl

theorem Membership.acts {K : Kind → Prop} (h : Membership w) (hw : Sound w) (ha : Acts K w w') (hg : ¬ K .groups)
    (hi : ¬ K .infos) : Membership w' := by
  have hsg := Acts.stored ha hw hg
  have hsi := Acts.stored ha hw hi
  exact h.shrink (fun o d hd => hsg ▸ hd) (fun i d hd => hsi ▸ hd) (ha.nextOid_le hw hi)

/-! ### A group that is added -/

/-- The students of a new group are distinct, and none of them is on file. -/
def Lib.Conf.Founds (w : World) (e : ℕ) : Prop :=
  ∀ g ids, w.heap.get e = some ⟨none, .group g⟩ → existingIds w.heap g.students = .ok ids →
    ids.Nodup ∧ ∀ i ∈ ids, ¬ w.OnFile i

theorem Membership.founded {e : ℕ} {x : Fields} {d : Doc} (h : Membership w) (hi : Issued w) (hf : w.Founds e)
    (he : w.heap.get e = some ⟨none, x⟩) (hx : x.kind = .groups) (hd : x.toDoc w.heap = .ok d) :
    Membership (w.post .groups e d) := by
  obtain ⟨g, rfl⟩ : ∃ g, x = .group g := by cases x <;> first | exact ⟨_, rfl⟩ | cases hx
  have hids := members_written hd w.env.nextOid
  obtain ⟨hnodup, hnone⟩ := hf g _ he hids
  refine ⟨fun o g' i s hg hs hst _ => ?_, fun o g' hg => ?_, fun o g' i hg hin => ?_, fun i s o hs ho => ?_⟩
  · rw [stored_post, if_neg (by simp)] at hs
    rw [stored_post] at hg
    split_ifs at hg with ho
    · -- nobody is listed, and no group of a student is new
      obtain rfl := Option.some.inj hg
      refine iff_of_false (fun hin => hnone i ?_ ⟨s, hs, hst⟩) fun hgr => ?_
      · exact ho.2 ▸ hin
      · exact (h.older i s o hs hgr).ne ho.2
    · exact h.both o g' i s hg hs hst trivial
  · rw [stored_post] at hg
    split_ifs at hg with ho
    · obtain rfl := Option.some.inj hg
      exact ho.2 ▸ hnodup
    · exact h.nodup o g' hg
  · refine Nat.lt_succ_of_lt ?_
    rw [stored_post] at hg
    split_ifs at hg with ho
    · obtain rfl := Option.some.inj hg
      exact hi.existingIds hids (ho.2 ▸ hin)
    · exact h.given o g' i hg hin
  · rw [stored_post, if_neg (by simp)] at hs
    exact Nat.lt_succ_of_lt (h.older i s o hs ho)

theorem Membership.groupAdded {e : ℕ} {r : Option ℕ} (h : Membership w) (hi : Issued w) (hf : w.Founds e)
    (hr : run (Controller.add .groups e) w = .ok (r, w')) : Membership w' := by
  obtain ⟨x, d, o, he, hx, hd, -, -, -, rfl⟩ := run_add_iff.mp hr
  exact (h.founded hi hf he hx hd).of_env rfl

/-- A setter leaves the students of a plain group alone. -/
theorem founds_setCurator {e group cur : ℕ} {name : String} {u : Unit}
    (he : w.heap.get e = some ⟨none, .group { name }⟩) (h : run (Group.setCurator group (some cur)) w = .ok (u, w')) :
    w'.Founds e := by
  obtain ⟨o, v, oq, bq, xq, ho, -, hq, -, hbq, rfl⟩ := run_setRef_some_iff.mp h
  have hcur : e ≠ cur := by
    rintro rfl
    rw [Lib.Conf.get_put ho] at hbq
    split_ifs at hbq with hg
    · subst hg
      obtain rfl := Option.some.inj (he.symm.trans ho)
      simp [Obj.setRef] at hbq
    · simp [he] at hbq
  intro g ids hg hids
  rw [Lib.Conf.get_put hbq, if_neg hcur, Lib.Conf.get_put ho] at hg
  have hnil : g.students = [] := by
    split_ifs at hg with heg
    · subst heg
      obtain rfl := Option.some.inj (he.symm.trans ho)
      obtain rfl : g = { name, curator := .to cur } := by simpa [Obj.setRef, Fields.setRef] using hg.symm
      rfl
    · obtain rfl : g = { name } := by simpa [he] using hg.symm
      rfl
  rw [hnil] at hids
  obtain rfl := Except.ok.inj hids
  exact ⟨List.nodup_nil, by simp⟩

theorem Membership.addNewGroup {win win' : AdminWindow} (h : Membership w) (hw : Sound w) (hi : Issued w)
    (hr : run win.addNewGroup w = .ok (win', w')) : Membership w' := by
  simp only [AdminWindow.addNewGroup, run_bind_iff, run_newObj_iff] at hr
  obtain ⟨_, _, ⟨rfl, rfl⟩, hr⟩ := hr
  set v := w.push ⟨none, .group { name := win.groupNameEdit }⟩ with hv
  have hnew : v.heap.get w.heap.next = some ⟨none, .group { name := win.groupNameEdit }⟩ := Lib.Heap.get_push_next _ _
  have hlv : Looks w v := .push w _
  have hwv : Sound v := Looks.sound hlv hw
  have finish : ∀ {u : World}, Looks v u → u.Founds w.heap.next →
      run (do win.updateGroupsScrean (← Controller.add .groups w.heap.next)) u = .ok (win', w') → Membership w' := by
    intro u hl hf hr
    obtain ⟨r, w₁, h₁, h₂⟩ := (run_bind_iff _).mp hr
    have hwu := Looks.sound hl hwv
    have hmu : Membership u := (h.of_env (Looks.env hlv)).of_env (Looks.env hl)
    have hm₁ := hmu.groupAdded (Issued.looks (Issued.looks hi hlv) hl) hf h₁
    have hw₁ : Sound w₁ := (does_add (K := fun _ => True) (by simp) trivial _ _ _ _ h₁).sound hwu
    exact hm₁.of_env (Looks.env ((views_updateGroupsScrean win r).looks hw₁ h₂))
  split_ifs at hr with hidx
  · simp only [run_bind_iff] at hr
    obtain ⟨cur, v₁, hcur, hr⟩ := hr
    obtain ⟨-, rfl⟩ := run_curatorAt hidx hcur
    cases hg : win.group with
    | none =>
      rw [hg] at hr
      exact ((run_fault_iff _).mp hr).elim
    | some group =>
      rw [hg] at hr
      obtain ⟨_, u, h₁, hr⟩ := (run_bind_iff _).mp hr
      refine finish (.of_quiet (quiet_setRef hwv h₁)) (founds_setCurator hnew h₁) hr
  · refine finish .refl ?_ hr
    intro g ids hg hids
    obtain rfl : g = { name := win.groupNameEdit } := by simpa [hnew] using hg.symm
    obtain rfl := Except.ok.inj hids
    exact ⟨List.nodup_nil, by simp⟩

/-! ### A student that is dropped on the group -/

/-- The account owns a student that the group finds among its members. -/
def Lib.Conf.Listed (w : World) (group acc : ℕ) : Prop :=
  ∃ b g i o, w.heap.get group = some ⟨some b, .group g⟩ ∧ i ∈ b.doc.members ∧ w.findsStudent i = true ∧
    w.ownerOf i = some o ∧ w.idOf acc = some o

/-- The group finds the stored students that are stored as its members, none twice, and the account's student is in no
stored group. -/
structure Lib.Conf.Takes (w : World) (group acc : ℕ) : Prop where
  alive : w.Alive group
  account : ∃ b a, w.heap.get acc = some ⟨some b, .account a⟩
  roster : ∀ b g d, w.heap.get group = some ⟨some b, .group g⟩ → w.stored .groups b.id = some d →
    (b.doc.members.filter w.findsStudent).Nodup ∧
      ∀ i, w.OnFile i → (i ∈ b.doc.members.filter w.findsStudent ↔ i ∈ d.members)
  free : ∀ i, w.namedBy acc .additionalInfo = some i → w.OnFile i ∧ ∀ o g, w.stored .groups o = some g → i ∉ g.members

instance (w : World) (group acc : ℕ) : Decidable (w.Takes group acc) :=
  decidable_of_iff (((w.heap.get group).any fun o => o.fromDB.any fun b => b.isExist) = true ∧
    ((w.heap.get acc).any fun o => o.fromDB.isSome ∧ o.fields.cls = .accountDB) = true ∧
    (match w.heap.get group with
      | some ⟨some b, .group _⟩ => (w.stored .groups b.id).all fun d =>
        decide ((b.doc.members.filter w.findsStudent).Nodup ∧ ∀ i ∈ b.doc.members.filter w.findsStudent ++ d.members,
          w.OnFile i → i ∈ b.doc.members.filter w.findsStudent ∧ i ∈ d.members)
      | _ => true) = true ∧
    ((w.namedBy acc .additionalInfo).all fun i => w.OnFile i ∧ ∀ g ∈ (w.env.coll .groups).docs, i ∉ g.members) = true) <| by
    constructor
    · rintro ⟨ha, hacc, hr, hf⟩
      refine ⟨?_, ?_, fun b g d hg hd => ?_, fun i hi => ?_⟩
      · obtain ⟨⟨c, x⟩, hg, hc⟩ := Option.any_eq_true .. |>.mp ha
        obtain ⟨b, rfl, hb⟩ := Option.any_eq_true .. |>.mp hc
        exact ⟨b, x, hg, hb⟩
      · obtain ⟨⟨c, x⟩, hg, hc⟩ := Option.any_eq_true .. |>.mp hacc
        obtain ⟨hc, hx⟩ := of_decide_eq_true hc
        obtain ⟨b, rfl⟩ := Option.isSome_iff_exists.mp hc
        cases x with
        | account a => exact ⟨b, a, hg⟩
        | _ => cases hx
      · simp only [hg, hd, Option.all_some, decide_eq_true_eq] at hr
        refine ⟨hr.1, fun i hi => ⟨fun hin => ?_, fun hin => ?_⟩⟩
        · exact (hr.2 i (List.mem_append_left _ hin) hi).2
        · exact (hr.2 i (List.mem_append_right _ hin) hi).1
      · simp only [hi, Option.all_some, decide_eq_true_eq] at hf
        exact ⟨hf.1, fun o g hg => hf.2 g (Collection.mem_docs.mpr ⟨o, hg⟩)⟩
    · rintro ⟨⟨b, x, hg, hb⟩, ⟨ba, a, hacc⟩, hr, hf⟩
      refine ⟨by simp [hg, hb], by simp [hacc, Fields.cls], ?_, ?_⟩
      · simp only [hg]
        split
        · rename_i b' g he
          obtain ⟨rfl, rfl⟩ : b = b' ∧ x = .group g := by simpa using he
          rw [Option.all_eq_true]
          intro d hd
          obtain ⟨hn, hl⟩ := hr b g d hg hd
          rw [decide_eq_true_eq]
          refine ⟨hn, fun i hi hon => ?_⟩
          rcases List.mem_append.mp hi with hi | hi
          · exact ⟨hi, (hl i hon).mp hi⟩
          · exact ⟨(hl i hon).mpr hi, hi⟩
        · rfl
      · rw [Option.all_eq_true]
        intro i hi
        obtain ⟨hon, hno⟩ := hf i hi
        rw [decide_eq_true_eq]
        refine ⟨hon, fun g hg => ?_⟩
        obtain ⟨o, ho⟩ := Collection.mem_docs.mp hg
        exact hno o g ho

theorem run_studentInfoOf {acc : ℕ} {r : Option ℕ} (hr : run (AdminWindow.studentInfoOf acc) w = .ok (r, w')) :
    ∃ r₀, run (AccountDB.getAdditionalInfo acc) w = .ok (r₀, w') ∧ (r = none ∨ r = r₀) := by
  obtain ⟨r₀, w₁, h₁, h₂⟩ := (run_bind_iff _).mp hr
  obtain ⟨rfl, ⟨rfl, rfl⟩ | ⟨p, o, rfl, -, rfl⟩⟩ := run_cast_iff.mp h₂
  · exact ⟨none, h₁, .inl rfl⟩
  · refine ⟨some p, h₁, ?_⟩
    split_ifs
    · exact .inr rfl
    · exact .inl rfl

namespace GotStudents

variable {p : ℕ} {b : IFromDB} {g : Group} {ids : List Oid} {l : List ℕ}

/-- A student that was found is one of the group's. -/
theorem mem (h : GotStudents w p b g ids l w') {i : Oid} (hi : i ∈ ids) (hf : w.findsStudent i = true) :
    ∃ q ∈ l, w'.cached .infos i = some q := by
  rw [← h.finds] at hf
  cases hc : w'.cached .infos i with
  | none => simp [Lib.Conf.findsStudent, hc, h.all i hi hc] at hf
  | some q =>
    refine ⟨q, ?_, rfl⟩
    rw [← h.listed]
    exact List.mem_filterMap.mpr ⟨i, hi, Option.filter_eq_some_iff.mpr ⟨hc, by simpa [Lib.Conf.findsStudent, hc] using hf⟩⟩

/-- The loop over the students finds the account's. -/
theorem listed_acc {r : Bool} {acc : ℕ} {o i : Oid} (h : GotStudents w p b g ids l w₁) (hi : i ∈ ids) (hf : w.findsStudent i = true)
    (ho : w₁.ownerOf i = some o) (hacc : w₁.idOf acc = some o) (hr : run (AdminWindow.hasAccount acc l) w₁ = .ok (r, w')) :
    r = true := by
  by_contra hne
  rw [Bool.not_eq_true] at hne
  subst hne
  obtain ⟨q, hq, hc⟩ := h.mem hi hf
  simp only [Lib.Conf.ownerOf, hc] at ho
  refine hasAccount_finds h.grown.sound hr hq hacc (fun p hp => ?_) ho
  obtain ⟨-, -, -, c, s, hg, -⟩ := h.cached hp
  exact ⟨c, _, hg⟩

/-- After the loop and the look-up of the account's info, the group is in step. -/
theorem inStep (h : GotStudents w p b g ids l w₁) (hv : Visits S w₁ w') (hS : ¬ S p)
    (hids : ∀ d, w.stored .groups b.id = some d → (ids.filter w.findsStudent).Nodup ∧
      ∀ i, w.OnFile i → (i ∈ ids.filter w.findsStudent ↔ i ∈ d.members)) : w'.InStep p := by
  obtain ⟨n, hp⟩ := hv.grown.other p b _ hS h.get
  have hst : w'.stored = w.stored := hv.grown.stored.trans h.grown.stored
  intro b' g' ids' d' hg' hex hd'
  obtain ⟨rfl, rfl⟩ : b' = b.own n ∧ g' = { g with students := l } := by
    obtain ⟨rfl, rfl⟩ : b.own n = b' ∧ { g with students := l } = g' := by simpa [hp] using hg'
    exact ⟨rfl, rfl⟩
  rw [hst] at hd'
  have hids := hids d' hd'
  obtain ⟨ids'', hex', hmap⟩ := existingIds_of_alive fun q hq => hv.grown.alive (h.live hq)
  obtain rfl := Except.ok.inj (hex.symm.trans hex')
  have hsame : l.map w'.idOf = l.map w₁.idOf := by
    refine List.map_congr_left fun q hq => ?_
    obtain ⟨c, x, hx, -⟩ := h.live hq
    rw [Lib.Conf.idOf_of_get hx, hv.grown.idOf (Lib.Conf.idOf_of_get hx)]
  rw [hsame, h.ids_eq] at hmap
  obtain rfl : ids.filter w.findsStudent = ids' := List.map_injective_iff.mpr (Option.some_injective _) hmap
  refine ⟨hids.1, fun i s hs hi => hids.2 i ⟨s, ?_, hi⟩⟩
  rwa [hst] at hs

end GotStudents

/-- A group that takes the account's student takes it after the look-ups of the slot, which store nothing. -/
theorem Lib.Conf.Takes.enrolls {Γ : Classes} {w₃ : World} {group acc stud : ℕ} {l : List ℕ} {r : Bool}
    (hg : w.Takes group acc) (hw : Sound w) (ht : WellTyped Γ w)
    (h₁ : run (GroupDB.getStudents group) w = .ok (l, w₁)) (h₂ : run (AdminWindow.hasAccount acc l) w₁ = .ok (r, w₂))
    (h₃ : run (AccountDB.getAdditionalInfo acc) w₂ = .ok (some stud, w₃)) : w₃.Enrolls group stud := by
  obtain ⟨b, g, -, hget, -⟩ := run_getStudents_iff.mp h₁
  obtain ⟨ba, a, hacc⟩ := hg.account
  obtain ⟨ids, got⟩ := got_students hw hget h₁
  obtain rfl := members_of_are got.members
  have hv₁ : Visits (· = group) w w₁ := ⟨got.grown, (views_getStudents group).looks hw h₁⟩
  have hv₂ := visits_hasAccount got.grown.sound h₂
  have hgot := run_getter (g := .getAdditionalInfo) hv₂.grown.sound h₃
  have hv₃ : Visits (· = acc) w₂ w₃ := visits_getter (g := .getAdditionalInfo) hv₂.grown.sound h₃
  -- neither the group nor the account is one of the students
  have hga : acc ≠ group := by
    rintro rfl
    simp [hacc] at hget
  obtain ⟨n, hacc₁⟩ := hv₁.grown.other acc ba _ hga hacc
  have notListed : ∀ {q x}, w₁.heap.get q = some x → x.fields.isStudent = false → q ∉ l := by
    intro q x hx hs hq
    obtain ⟨-, -, -, c, s, hq', -⟩ := got.cached hq
    rw [hx, Option.some.injEq] at hq'
    simp [hq', Fields.isStudent] at hs
  have hgl : group ∉ l := notListed got.get rfl
  have hal : acc ∉ l := notListed hacc₁ rfl
  have hv : Visits (fun p => p ∈ l ∨ p = acc) w₁ w₃ := (hv₂.mono fun _ => .inl).trans (hv₃.mono fun _ => .inr)
  have hst : w₃.stored = w.stored := hv.grown.stored.trans hv₁.grown.stored
  refine ⟨hv.grown.alive (hv₁.grown.alive hg.alive), ?_, (hgot.alive hv₂.grown.sound).1, fun i hi => ?_⟩
  · exact got.inStep hv (by rintro (h | h); exacts [hgl h, hga h.symm]) fun d hd => hg.roster b g d hget hd
  · -- the student's id is the one that the account named before the slot
    have hn₂ : w₂.namedBy acc .additionalInfo = some i := (hgot.idOf hv₂.grown.sound (by simp)).symm.trans hi
    have hv₁₂ : Visits (fun p => p = group ∨ p ∈ l) w w₂ := (hv₁.mono fun _ => .inl).trans (hv₂.mono fun _ => .inr)
    have hn := hv₁₂.namedBy_back ht (by rintro (h | h); exacts [hga h, hal h]) hacc hn₂
    obtain ⟨⟨s, hs, hsi⟩, hfree⟩ := hg.free i hn
    exact ⟨⟨s, by rw [hst, hs], hsi⟩, fun o g' hg' => hfree o g' (by rwa [hst] at hg')⟩

/-- A listed student is found before it is added. -/
theorem Lib.Conf.Listed.found {group acc : ℕ} {l : List ℕ} {r : Bool} (hg : w.Listed group acc) (hw : Sound w)
    (h₁ : run (GroupDB.getStudents group) w = .ok (l, w₁)) (h₂ : run (AdminWindow.hasAccount acc l) w₁ = .ok (r, w₂)) :
    r = true := by
  obtain ⟨b, g, i, o, hget, hin, hf, ho, hacc⟩ := hg
  obtain ⟨ids, got⟩ := got_students hw hget h₁
  obtain rfl := members_of_are got.members
  exact got.listed_acc hin hf (ownerOf_getStudents hw ho h₁) (got.grown.idOf hacc) h₂

theorem Membership.addAccToGroup {Γ : Classes} {win win' : AdminWindow} {acc : ℕ} (h : Membership w) (hw : Sound w)
    (hi : Issued w) (ht : WellTyped Γ w) (hg : ∀ group, win.group = some group → w.Listed group acc ∨ w.Takes group acc)
    (hr : run (win.addAccToGroup acc) w = .ok (win', w')) : Membership w' := by
  unfold AdminWindow.addAccToGroup at hr
  cases hgr : win.group with
  | none =>
    simp only [hgr, run_pure_iff] at hr
    exact hr.2 ▸ h
  | some group =>
    simp only [hgr] at hr
    obtain ⟨l, w₁, h₁, hr⟩ := (run_bind_iff _).mp hr
    obtain ⟨r, w₂, h₂, hr⟩ := (run_bind_iff _).mp hr
    have hl₁ : Looks w w₁ := (views_getStudents group).looks hw h₁
    have hl₂ : Looks w w₂ := hl₁.trans ((views_hasAccount acc l).looks (Looks.sound hl₁ hw) h₂)
    split_ifs at hr with hb
    · obtain ⟨-, rfl⟩ := (run_pure_iff _).mp hr
      exact h.of_env (Looks.env hl₂)
    have hg := (hg group hgr).resolve_left fun hl => hb (hl.found hw h₁ h₂)
    obtain ⟨stud?, w₃, h₃, hr⟩ := (run_bind_iff _).mp hr
    obtain ⟨_, w₄, h₄, h₅⟩ := (run_bind_iff _).mp hr
    have hl₃ : Looks w w₃ := hl₂.trans ((views_studentInfoOf acc).looks (Looks.sound hl₂ hw) h₃)
    cases stud? with
    | none => exact ((run_fault_iff _).mp h₄).elim
    | some stud =>
      obtain ⟨-, he⟩ := run_addStudent_iff.mp h₄
      obtain ⟨r₀, h₃, hr₀⟩ := run_studentInfoOf h₃
      obtain rfl : r₀ = some stud := (hr₀.resolve_left (by simp)).symm
      have hm₃ : Membership w₃ := h.of_env (Looks.env hl₃)
      have hm₄ : Membership w₄ :=
        (hm₃.mono fun _ _ => trivial).enrolled (Issued.looks hi hl₃) (hg.enrolls hw ht h₁ h₂ h₃) he
      have hw₄ : Sound w₄ :=
        (does_addStudent (K := fun _ => True) trivial trivial _ _ _ _ _ h₄).sound (Looks.sound hl₃ hw)
      exact hm₄.of_env (Looks.env ((views_updateGroupsScrean _ _).looks hw₄ h₅))

/-! ### A student that is dropped off the group -/

/-- The group has no student with the id in memory, or it can let it go. -/
def Lib.Conf.Parts (w : World) (this : ℕ) (i : Oid) : Prop :=
  (∃ c g q, w.heap.get this = some ⟨c, .group g⟩ ∧ q ∈ g.students ∧ w.idOf q = some i) → w.Expels this i

theorem Expelled.entry {this stud : ℕ} {i : Oid} (h : Expelled w this stud w') (hi : w.idOf stud = some i) :
    ∃ b g q, w.heap.get this = some ⟨some b, .group g⟩ ∧ q ∈ g.students ∧ w.idOf q = some i := by
  obtain ⟨bg, bs, g, s, l₁, p, l₂, hg, hs, hl, -, hp, -⟩ := h.moved
  refine ⟨bg, g, p, hg, by simp [hl], ?_⟩
  rw [Lib.Conf.idOf_of_get hs] at hi
  rw [hp, hi]

theorem Lib.Conf.Expels.visits {Γ : Classes} {this : ℕ} {i : Oid} (h : w.Expels this i) (hv : Visits S w w')
    (ht : WellTyped Γ w) (hS : ¬ S this) (hlt : this < w.heap.next) (hg : ∃ b g, w'.heap.get this = some ⟨some b, .group g⟩) :
    w'.Expels this i := by
  obtain ⟨b, g, hg⟩ := hg
  obtain ⟨b₀, hg₀, -⟩ := hv.back hS hlt hg
  refine ⟨hv.inStep ht hS hlt h.inStep, ?_, fun c g' p hg' hfind => ?_⟩
  · obtain ⟨s, hs, hsi⟩ := h.onFile
    exact ⟨s, by rw [hv.grown.stored, hs], hsi⟩
  · obtain ⟨rfl, rfl⟩ : some b = c ∧ g = g' := by simpa [hg] using hg'
    have hsame : (g.students.find? fun q => w'.idOf q = some i) = g.students.find? fun q => w.idOf q = some i := by
      refine List.find?_congr fun q hq => ?_
      have hq' : q < w.heap.next := ht.below q _ (ht.students this _ g hg₀ q hq)
      exact decide_eq_decide.mpr ⟨hv.idOf_back hq', hv.grown.idOf⟩
    rw [hsame] at hfind
    refine (h.entry _ g p hg₀ hfind).imp hv.grown.alive fun hno o d hd => hno o d ?_
    rwa [hv.grown.stored] at hd

theorem Membership.deleteAccFromGroup {Γ : Classes} {win win' : AdminWindow} {acc : ℕ} (h : Membership w) (hw : Sound w)
    (hi : Issued w) (ht : WellTyped Γ w) (hlt : ∀ group, win.group = some group → group < w.heap.next)
    (hacc : ∃ b a, w.heap.get acc = some ⟨some b, .account a⟩)
    (hg : ∀ group i, win.group = some group → w.namedBy acc .additionalInfo = some i → w.Parts group i)
    (hr : run (win.deleteAccFromGroup acc) w = .ok (win', w')) : Membership w' := by
  unfold AdminWindow.deleteAccFromGroup at hr
  cases hgr : win.group with
  | none =>
    rw [hgr] at hr
    exact h.of_env (Looks.env ((views_updateGroupsScrean _ _).looks hw hr))
  | some group =>
    rw [hgr] at hr
    obtain ⟨stud?, w₁, h₁, hr⟩ := (run_bind_iff _).mp hr
    obtain ⟨r, w₂, h₂, h₃⟩ := (run_bind_iff _).mp hr
    have hl₁ : Looks w w₁ := (views_studentInfoOf acc).looks hw h₁
    have hw₁ := Looks.sound hl₁ hw
    have hm₁ : Membership w₁ := h.of_env (Looks.env hl₁)
    have hw₂ : Sound w₂ := (does_deleteStudent (K := fun _ => True) trivial trivial _ _ _ _ _ h₂).sound hw₁
    suffices hm₂ : Membership w₂ from hm₂.of_env (Looks.env ((views_updateGroupsScrean _ _).looks hw₂ h₃))
    cases stud? with
    | none =>
      -- without students the argument is not looked at
      obtain ⟨g, _, hg', h₂⟩ := (run_bind_iff _).mp h₂
      obtain ⟨-, rfl⟩ := run_groupOf_iff.mp hg'
      cases hst : g.students with
      | nil =>
        simp only [hst, run_pure_iff] at h₂
        exact h₂.2 ▸ hm₁
      | cons q l =>
        rw [hst] at h₂
        exact ((run_fault_iff _).mp h₂).elim
    | some stud =>
      rcases run_deleteStudent h₂ with ⟨-, he⟩ | ⟨-, rfl⟩
      · obtain ⟨r₀, h₁, hr₀⟩ := run_studentInfoOf h₁
        obtain rfl : r₀ = some stud := (hr₀.resolve_left (by simp)).symm
        have hgot := run_getter (g := .getAdditionalInfo) hw h₁
        have hv : Visits (· = acc) w w₁ := visits_getter (g := .getAdditionalInfo) hw h₁
        obtain ⟨bs, s, hbs⟩ : ∃ bs s, w₁.heap.get stud = some ⟨some bs, .student s⟩ := by
          obtain ⟨bg, bs, g, s, l₁, p, l₂, -, hs, -⟩ := he.moved
          exact ⟨bs, s, hs⟩
        have hid := Lib.Conf.idOf_of_get hbs
        obtain ⟨b, g, q, hget, hq, hqi⟩ := he.entry hid
        obtain ⟨ba, a, hacc⟩ := hacc
        have hga : group ≠ acc := by
          rintro rfl
          obtain ⟨ba', xa', hacc', -, hcls⟩ := hv.grown.same _ _ _ hacc
          obtain ⟨rfl, rfl⟩ : b = ba' ∧ Fields.group g = xa' := by simpa [hget] using hacc'
          cases hcls
        have hlt := hlt group hgr
        obtain ⟨b₀, hget₀, -⟩ := hv.back hga hlt hget
        have hparts := hg group bs.id hgr ((hgot.idOf hw (by simp)).symm.trans hid)
        have hexp : w.Expels group bs.id := by
          refine hparts ⟨_, g, q, hget₀, hq, hv.idOf_back ?_ hqi⟩
          exact ht.below q _ (ht.students group _ g hget₀ q hq)
        exact hm₁.expelled (Issued.looks hi hl₁) hid (hexp.visits hv ht hga hlt ⟨b, g, hget⟩) he
      · exact hm₁

end Cbt
