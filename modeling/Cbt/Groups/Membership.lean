import Cbt.Calls.Rosters
import Cbt.Updates.Adding
import Cbt.Accounts.Commands

/-! Group membership is stored twice, in the members of the group and in the group of
the student. A student enters or leaves through two updates of whole documents, each
written from an object in memory; both sides agree afterwards when the group's object
has the students that are stored as its members and the student is in no other group. -/

namespace Cbt

open Lib.Command (run_bind_iff run_pure_iff)

variable {w w' : World}

/-- The document of a student's info. -/
def Doc.IsStudentInfo (d : Doc) : Prop := ∃ x, DBClass.studentInfoDB.fields d = .ok x

instance : DecidablePred Doc.IsStudentInfo := fun d =>
  decidable_of_iff ((DBClass.studentInfoDB.fields d).toOption.isSome = true) <| by
    unfold Doc.IsStudentInfo
    cases DBClass.studentInfoDB.fields d <;> simp [Except.toOption]

/-- The two sides of membership agree: a stored group lists a stored student if and only if that is the student's
group, it lists no id twice, and a student is listed by one group at most. -/
structure TwoSided (w : World) : Prop where
  both : ∀ o g i s, w.stored .groups o = some g → w.stored .infos i = some s → s.IsStudentInfo →
    (i ∈ g.members ↔ s.get? "Group" = some (.oid o))
  nodup : ∀ o g, w.stored .groups o = some g → g.members.Nodup
  single : ∀ o o' g g' i s, w.stored .groups o = some g → w.stored .groups o' = some g' → w.stored .infos i = some s →
    s.IsStudentInfo → i ∈ g.members → i ∈ g'.members → o = o'

/-- The two sides agree on some infos, and every id they name was given out. -/
structure AgreeOn (S : Oid → Prop) (w : World) : Prop where
  both : ∀ o g i s, w.stored .groups o = some g → w.stored .infos i = some s → s.IsStudentInfo → S i →
    (i ∈ g.members ↔ s.get? "Group" = some (.oid o))
  nodup : ∀ o g, w.stored .groups o = some g → g.members.Nodup
  given : ∀ o g i, w.stored .groups o = some g → i ∈ g.members → i < w.env.nextOid
  older : ∀ i s o, w.stored .infos i = some s → s.get? "Group" = some (.oid o) → o < w.env.nextOid

/-- The two sides agree. -/
abbrev Membership (w : World) : Prop := AgreeOn (fun _ => True) w

theorem AgreeOn.mono {S S' : Oid → Prop} (hS : ∀ i, S' i → S i) (h : AgreeOn S w) : AgreeOn S' w :=
  { h with both := fun o g i s hg hs hst hi => h.both o g i s hg hs hst (hS i hi) }

/-- The two sides agree on what is left of them. -/
theorem AgreeOn.shrink {S : Oid → Prop} (h : AgreeOn S w)
    (hg : ∀ o d, w'.stored .groups o = some d → w.stored .groups o = some d)
    (hi : ∀ i d, w'.stored .infos i = some d → w.stored .infos i = some d) (hn : w.env.nextOid ≤ w'.env.nextOid) :
    AgreeOn S w' where
  both o g i s hs hs' := h.both o g i s (hg o g hs) (hi i s hs')
  nodup o g hs := h.nodup o g (hg o g hs)
  given o g i hs hin := (h.given o g i (hg o g hs) hin).trans_le hn
  older i s o hs ho := (h.older i s o (hi i s hs) ho).trans_le hn

theorem Membership.twoSided (h : Membership w) : TwoSided w := by
  have hboth : ∀ o g i s, w.stored .groups o = some g → w.stored .infos i = some s → s.IsStudentInfo →
      (i ∈ g.members ↔ s.get? "Group" = some (.oid o)) := fun o g i s hg hs hst => h.both o g i s hg hs hst trivial
  refine ⟨hboth, h.nodup, fun o o' g g' i s hg hg' hs hst hi hi' => ?_⟩
  have ho := (hboth o g i s hg hs hst).mp hi
  rw [(hboth o' g' i s hg' hs hst).mp hi'] at ho
  simpa using ho.symm

/-! ### What a group and a student write -/

/-- The members a group writes are its students that exist. -/
theorem members_written {h : Memory} {g : Group} {d : Doc} (hd : (Fields.group g).toDoc h = .ok d) (i : Oid) :
    existingIds h g.students = .ok (Doc.members (("_id", .oid i) :: d)) := by
  obtain ⟨c, m, -, hm, rfl⟩ := Group.build_iff.mp hd
  have hget : Doc.get? [("_id", .oid i), ("Name", .string g.name), ("Curator", c), ("Members", m)] "Members" = some m := by
    simp [Doc.get?_cons]
  unfold membersValue at hm
  split_ifs at hm with he
  · obtain rfl := Except.ok.inj hm
    rw [List.isEmpty_iff.mp he]
    simp [Doc.members, existingIds, nullValue]
  · cases hids : existingIds h g.students with
    | error e => simp [hids, Functor.map, Except.map] at hm
    | ok ids =>
      rw [hids] at hm
      obtain rfl := Except.ok.inj hm
      simp [Doc.members, hget, List.filterMap_map, Element.oid?, Function.comp_def]

/-- A student writes its group, and what it writes is a student's info. -/
theorem group_written {h : Memory} {s : StudentInfo} {d : Doc} (hd : (Fields.student s).toDoc h = .ok d) (i : Oid) :
    Doc.IsStudentInfo (("_id", .oid i) :: d) ∧ ∃ v, s.group.value h = .ok v ∧ Doc.get? (("_id", .oid i) :: d) "Group" = some v := by
  refine ⟨⟨_, (Recorded.written (by simp [Fields.cls]) hd i).2⟩, ?_⟩
  obtain ⟨v, u, hv, hu, hget⟩ := Recorded.ref_written hd i (f := .group) (by simp [Fields.cls, DBClass.refs])
  obtain rfl := Option.some.inj hv
  exact ⟨u, hu, hget⟩

theorem Issued.existingIds (h : Issued w) {l : List ℕ} {ids : List Oid} (hl : existingIds w.heap l = .ok ids) {i : Oid}
    (hi : i ∈ ids) : i < w.env.nextOid := by
  obtain ⟨q, -, b, hb, rfl⟩ := mem_existingIds hl hi
  obtain ⟨x, hx⟩ := header_eq_ok.mp hb
  exact h.lt hx

theorem Issued.value (h : Issued w) {v : Pointer} {o : Oid} (hv : v.value w.heap = .ok (.oid o)) : o < w.env.nextOid := by
  cases v with
  | uninit => cases hv
  | null => simp [Pointer.value, nullValue] at hv
  | «to» p =>
    simp only [Pointer.value] at hv
    cases hp : header w.heap p with
    | error e => simp [hp] at hv
    | ok b =>
      obtain ⟨x, hx⟩ := header_eq_ok.mp hp
      rw [hp] at hv
      simp only [Except.ok.injEq] at hv
      split_ifs at hv
      · obtain rfl := Bson.oid.inj hv
        exact h.lt hx
      · simp [nullValue] at hv

/-! ### A student moves -/

/-- What a move has to write for the two sides to agree: the ids that are listed, and the group of the student. -/
structure Moves (w : World) (o i : Oid) (ids : List Oid) (v : Bson) : Prop where
  nodup : ids.Nodup
  others : ∀ g j s, w.stored .groups o = some g → w.stored .infos j = some s → s.IsStudentInfo → j ≠ i →
    (j ∈ ids ↔ j ∈ g.members)
  listed : i ∈ ids ↔ v = .oid o
  elsewhere : ∀ o' g, w.stored .groups o' = some g → o' ≠ o → (i ∈ g.members ↔ v = .oid o')

/-- A move that writes so makes the two sides agree; they need not agree on the student before it. -/
theorem AgreeOn.moved {this stud : ℕ} {bg bs : IFromDB} {g : Group} {s : StudentInfo} {students : List ℕ}
    {group : Pointer} {ids : List Oid} {v : Bson} (hagree : AgreeOn (· ≠ bs.id) w)
    (hm : Moved w this stud bg bs g s students group w') (hi : Issued w) (hids : existingIds w.heap students = .ok ids)
    (hv : group.value w.heap = .ok v) (h : Moves w bg.id bs.id ids v) : Membership w' := by
  obtain ⟨dg, ds, hdg, hds, hst, -, -⟩ := hm.docs
  obtain ⟨-, v', hv', hgroup⟩ := group_written hds bs.id
  obtain rfl := Except.ok.inj (hv.symm.trans hv')
  have hmem := Except.ok.inj ((members_written hdg bg.id).symm.trans hids)
  have groups : ∀ {o d}, w'.stored .groups o = some d →
      (o = bg.id ∧ d.members = ids) ∨ (o ≠ bg.id ∧ w.stored .groups o = some d) := by
    intro o d hd
    rw [hst] at hd
    split_ifs at hd with he he'
    · exact .inl ⟨he.2, Option.some.inj hd ▸ hmem⟩
    · exact absurd he'.1 (by simp)
    · exact .inr ⟨fun ho => he ⟨rfl, ho⟩, hd⟩
  have infos : ∀ {i d}, w'.stored .infos i = some d →
      (i = bs.id ∧ d.get? "Group" = some v) ∨ (i ≠ bs.id ∧ w.stored .infos i = some d) := by
    intro i d hd
    rw [hst, if_neg (by simp)] at hd
    split_ifs at hd with he
    · exact .inl ⟨he.2, Option.some.inj hd ▸ hgroup⟩
    · exact .inr ⟨fun ho => he ⟨rfl, ho⟩, hd⟩
  obtain ⟨g₀, hg₀⟩ := Option.isSome_iff_exists.mp hm.group_stored
  refine ⟨fun o d i e hd he hst _ => ?_, fun o d hd => ?_, fun o d i hd hid => ?_, fun i d o hd ho => ?_⟩
  · rcases groups hd with ⟨rfl, hl⟩ | ⟨ho, hl⟩ <;> rcases infos he with ⟨rfl, hs⟩ | ⟨hne, hs⟩
    · rw [hl, hs, h.listed, Option.some.injEq]
    · rw [hl, h.others g₀ i e hg₀ hs hst hne, hagree.both bg.id g₀ i e hg₀ hs hst hne]
    · rw [hs, h.elsewhere o d hl ho, Option.some.injEq]
    · exact hagree.both o d i e hl hs hst hne
  · rcases groups hd with ⟨rfl, hl⟩ | ⟨-, hl⟩
    · rw [hl]
      exact h.nodup
    · exact hagree.nodup o d hl
  · rw [hm.nextOid]
    rcases groups hd with ⟨rfl, hl⟩ | ⟨-, hl⟩
    · exact hi.existingIds hids (hl ▸ hid)
    · exact hagree.given o d i hl hid
  · rw [hm.nextOid]
    rcases infos hd with ⟨rfl, hl⟩ | ⟨-, hl⟩
    · rw [hl, Option.some.injEq] at ho
      exact hi.value (ho ▸ hv)
    · exact hagree.older i d o hl ho

/-! ### The ids of a list of students -/

theorem existingIds_append_iff {h : Memory} {l l' : List ℕ} {ids : List Oid} : existingIds h (l ++ l') = .ok ids ↔
    ∃ ids₁ ids₂, existingIds h l = .ok ids₁ ∧ existingIds h l' = .ok ids₂ ∧ ids = ids₁ ++ ids₂ := by
  induction l generalizing ids with
  | nil => simp [existingIds]
  | cons p l ih =>
    simp only [List.cons_append, existingIds_cons, exceptBind_eq_ok, exceptPure_eq_ok, ih]
    constructor
    · rintro ⟨i, hi, _, ⟨ids₁, ids₂, h₁, h₂, rfl⟩, rfl⟩
      exact ⟨_, ids₂, ⟨i, hi, ids₁, h₁, rfl⟩, h₂, by split_ifs <;> simp⟩
    · rintro ⟨_, ids₂, ⟨i, hi, ids₁, h₁, rfl⟩, h₂, rfl⟩
      exact ⟨i, hi, _, ⟨ids₁, ids₂, h₁, h₂, rfl⟩, by split_ifs <;> simp⟩

theorem existingIds_singleton {h : Memory} {p : ℕ} {b : IFromDB} {x : Fields} (hp : h.get p = some ⟨some b, x⟩) :
    existingIds h [p] = .ok (if b.isExist then [b.id] else []) := by
  simp [existingIds, header_eq_ok.mpr ⟨x, hp⟩]

/-- The group's object has the students, of those that are stored, that are stored as its members, and none twice. -/
def Lib.Conf.InStep (w : World) (this : ℕ) : Prop :=
  ∀ b g ids d, w.heap.get this = some ⟨some b, .group g⟩ → existingIds w.heap g.students = .ok ids →
    w.stored .groups b.id = some d → ids.Nodup ∧
      ∀ i s, w.stored .infos i = some s → s.IsStudentInfo → (i ∈ ids ↔ i ∈ d.members)

/-- The info is a stored student's. -/
def Lib.Conf.OnFile (w : World) (i : Oid) : Prop := ∃ s, w.stored .infos i = some s ∧ s.IsStudentInfo

instance (w : World) (i : Oid) : Decidable (w.OnFile i) :=
  decidable_of_iff ((w.stored .infos i).any fun s => s.IsStudentInfo) <| by
    unfold Lib.Conf.OnFile
    cases w.stored .infos i <;> simp

/-- Only the ids of the two lists have to be looked at. -/
instance (w : World) (this : ℕ) : Decidable (w.InStep this) :=
  decidable_of_iff ((match w.heap.get this with
    | some ⟨some b, .group g⟩ => match existingIds w.heap g.students, w.stored .groups b.id with
      | .ok ids, some d => decide (ids.Nodup ∧ ∀ i ∈ ids ++ d.members, w.OnFile i → i ∈ ids ∧ i ∈ d.members)
      | _, _ => true
    | _ => true) = true) <| by
    unfold Lib.Conf.InStep
    constructor
    · intro h b g ids d hg hids hd
      simp only [hg, hids, hd, decide_eq_true_eq] at h
      refine ⟨h.1, fun i s hs hst => ⟨fun hi => ?_, fun hi => ?_⟩⟩
      · exact (h.2 i (List.mem_append_left _ hi) ⟨s, hs, hst⟩).2
      · exact (h.2 i (List.mem_append_right _ hi) ⟨s, hs, hst⟩).1
    · intro h
      split
      · rename_i b g hg
        split
        · rename_i ids d hids hd
          obtain ⟨hn, hl⟩ := h b g ids d hg hids hd
          rw [decide_eq_true_eq]
          refine ⟨hn, fun i hi hon => ?_⟩
          obtain ⟨s, hs, hst⟩ := hon
          rcases List.mem_append.mp hi with hi | hi
          · exact ⟨hi, (hl i s hs hst).mp hi⟩
          · exact ⟨(hl i s hs hst).mpr hi, hi⟩
        · rfl
      · rfl

/-- The group and the student exist, the group's object is in step, and no stored group lists the student. -/
structure Lib.Conf.Enrolls (w : World) (this stud : ℕ) : Prop where
  group : w.Alive this
  inStep : w.InStep this
  student : w.Alive stud
  free : ∀ i, w.idOf stud = some i → w.OnFile i ∧ ∀ o g, w.stored .groups o = some g → i ∉ g.members

/-- The group's object is in step, and the entry that goes exists, unless no stored group lists the student. -/
structure Lib.Conf.Expels (w : World) (this : ℕ) (i : Oid) : Prop where
  inStep : w.InStep this
  onFile : w.OnFile i
  entry : ∀ c g p, w.heap.get this = some ⟨c, .group g⟩ → (g.students.find? fun q => w.idOf q = some i) = some p →
    w.Alive p ∨ ∀ o d, w.stored .groups o = some d → i ∉ d.members

/-- A student enters a group. -/
theorem AgreeOn.enrolled {this stud : ℕ} (h : AgreeOn (fun i => w.idOf stud ≠ some i) w) (hi : Issued w)
    (hg : w.Enrolls this stud) (he : Enrolled w this stud w') : Membership w' := by
  obtain ⟨bg, bs, g, s, hthis, hstud, hm⟩ := he.moved
  obtain ⟨b, x, hthis', hbg⟩ := hg.group
  obtain ⟨rfl, -⟩ : b = bg ∧ x = .group g := by simpa [hthis] using hthis'.symm
  obtain ⟨b', x', hstud', hbs⟩ := hg.student
  obtain ⟨rfl, -⟩ : b' = bs ∧ x' = .student s := by simpa [hstud] using hstud'.symm
  have hid := Lib.Conf.idOf_of_get hstud
  obtain ⟨⟨s₀, hs₀, hst₀⟩, hfree⟩ := hg.free b'.id hid
  obtain ⟨dg, ds, hdg, -⟩ := hm.docs
  obtain ⟨ids, ids₂, hids, h₂, happ⟩ := existingIds_append_iff.mp (members_written hdg b.id)
  obtain ⟨d, hd⟩ := Option.isSome_iff_exists.mp hm.group_stored
  obtain ⟨hnodup, hmem⟩ := hg.inStep b g ids d hthis hids hd
  have hnew : b'.id ∉ ids := fun hin => hfree b.id d hd ((hmem b'.id s₀ hs₀ hst₀).mp hin)
  have hone : existingIds w.heap [stud] = .ok [b'.id] := by rw [existingIds_singleton hstud, if_pos hbs]
  have hval : (Pointer.to this).value w.heap = .ok (.oid b.id) := by
    simp [Pointer.value, header_eq_ok.mpr ⟨_, hthis⟩, hbg]
  have hagree : AgreeOn (· ≠ b'.id) w := h.mono fun i hne => by simpa [hid] using hne.symm
  apply hagree.moved hm hi (existingIds_append_iff.mpr ⟨ids, [b'.id], hids, hone, rfl⟩) hval
  refine ⟨?_, fun g j t hg' ht htt hne => ?_, by simp, fun o' g hg' ho => ?_⟩
  · rw [List.nodup_append]
    refine ⟨hnodup, List.nodup_singleton _, ?_⟩
    rintro a ha _ hb rfl
    exact hnew (List.mem_singleton.mp hb ▸ ha)
  · obtain rfl := Option.some.inj (hd.symm.trans hg')
    simp [hmem j t ht htt, hne]
  · simp [hfree o' g hg', Ne.symm ho]

/-- A student leaves a group. -/
theorem Membership.expelled {this stud : ℕ} {i : Oid} (h : Membership w) (hi : Issued w) (hid : w.idOf stud = some i)
    (hg : w.Expels this i) (he : Expelled w this stud w') : Membership w' := by
  obtain ⟨bg, bs, g, s, l₁, p, l₂, hthis, hstud, hl, hbefore, hp, hm⟩ := he.moved
  obtain rfl : bs.id = i := by simpa [Lib.Conf.idOf_of_get hstud] using hid
  obtain ⟨s₀, hs₀, hst₀⟩ := hg.onFile
  obtain ⟨dg, ds, hdg, -⟩ := hm.docs
  obtain ⟨ids₁, ids₂, h₁, h₂, happ⟩ := existingIds_append_iff.mp (members_written hdg bg.id)
  obtain ⟨d, hd⟩ := Option.isSome_iff_exists.mp hm.group_stored
  have hfind : (g.students.find? fun q => w.idOf q = some bs.id) = some p := by
    rw [hl, List.find?_append, List.find?_eq_none.mpr (by simpa using hbefore)]
    simp [hp]
  obtain ⟨b, x, hget, hb⟩ : ∃ b x, w.heap.get p = some ⟨some b, x⟩ ∧ b.id = bs.id := by
    unfold Lib.Conf.idOf at hp
    cases hget : w.heap.get p with
    | none => simp [hget] at hp
    | some o =>
      obtain ⟨_ | b, x⟩ := o
      · simp [hget] at hp
      · exact ⟨b, x, rfl, by simpa [hget] using hp⟩
  have hone := existingIds_singleton hget
  have hwhole : existingIds w.heap g.students = .ok (ids₁ ++ ((if b.isExist then [b.id] else []) ++ ids₂)) := by
    rw [hl, existingIds_append_iff]
    exact ⟨ids₁, _, h₁, existingIds_append_iff.mpr ⟨_, ids₂, hone, h₂, rfl⟩, rfl⟩
  obtain ⟨hnodup, hmem⟩ := hg.inStep bg g _ d hthis hwhole hd
  have hrest : ∀ (ids : List Oid), (bs.id ∉ ids) → ids = ids₁ ++ ids₂ → ids.Nodup →
      (∀ j t, w.stored .infos j = some t → t.IsStudentInfo → j ≠ bs.id → (j ∈ ids ↔ j ∈ d.members)) →
      (∀ o' g', w.stored .groups o' = some g' → o' ≠ bg.id → bs.id ∉ g'.members) → Membership w' := by
    rintro _ hgone rfl hn hsame helse
    refine (h.mono fun _ _ => trivial).moved hm hi (existingIds_append_iff.mpr ⟨ids₁, ids₂, h₁, h₂, rfl⟩) rfl
      ⟨hn, fun g' j t hg' ht htt hne => ?_, by simpa [nullValue] using hgone, fun o' g' hg' ho => ?_⟩
    · obtain rfl := Option.some.inj (hd.symm.trans hg')
      exact hsame j t ht htt hne
    · simpa [nullValue] using helse o' g' hg' ho
  by_cases hex : b.isExist = true
  · -- the entry that goes is the only one with the id
    rw [if_pos hex, hb, List.singleton_append] at hnodup hmem
    obtain ⟨hgone, hn⟩ := List.nodup_cons.mp (List.nodup_middle.mp hnodup)
    have hown := (h.both bg.id d bs.id s₀ hd hs₀ hst₀ trivial).mp ((hmem bs.id s₀ hs₀ hst₀).mp (by simp))
    refine hrest _ hgone rfl hn (fun j t ht htt hne => ?_) fun o' g' hg' ho hin => ?_
    · rw [← hmem j t ht htt]
      simp [hne]
    · rw [(h.both o' g' bs.id s₀ hg' hs₀ hst₀ trivial).mp hin] at hown
      exact ho (by simpa using hown)
  · rw [if_neg hex, List.nil_append] at hnodup hmem
    rcases hg.entry _ g p hthis hfind with ⟨c, y, hc, hlive⟩ | hfree
    · obtain ⟨rfl, -⟩ : b = c ∧ x = y := by simpa [hget] using hc
      exact absurd hlive hex
    · exact hrest _ (fun hin => hfree bg.id d hd ((hmem bs.id s₀ hs₀ hst₀).mp hin)) rfl hnodup
        (fun j t ht htt _ => hmem j t ht htt) fun o' g' hg' _ => hfree o' g' hg'

end Cbt
