import Cbt.Caches.Registered
import Cbt.Calls.Students
import Cbt.Calls.Undoing

/-! The roster of a group. A group writes the ids of students only, an info keeps
the class of its record, and an id is never given twice; so a member of a stored
group is a student or is not stored, in every state. The cached object of the
group holds the stored document, and its students can be looked up: the answer
is the stored members, in their order. -/

namespace Cbt

open Lib.Command (run_bind_iff run_pure_iff)

variable {w w' : World} {k : Kind}

/-- An id that was given and names a student, or nothing that is stored. -/
def Lib.Conf.NamesStudent (w : World) (i : Oid) : Prop :=
  i < w.env.nextOid ∧ ∀ d, w.stored .infos i = some d → ∃ x, DBClass.studentInfoDB.fields d = .ok x

/-- A document whose members are such ids. -/
def Lib.Conf.IsRoster (w : World) (d : Doc) : Prop := ∃ ids, d.MembersAre ids ∧ ∀ i ∈ ids, w.NamesStudent i

/-- Every stored group lists students. -/
def Rostered (w : World) : Prop := ∀ o d, w.stored .groups o = some d → w.IsRoster d

/-! ### What a group writes -/

theorem mem_existingIds {h : Memory} {l : List ℕ} {ids : List Oid} (hl : existingIds h l = .ok ids) {i : Oid}
    (hi : i ∈ ids) : ∃ q ∈ l, ∃ b, header h q = .ok b ∧ b.id = i := by
  induction l generalizing ids with
  | nil =>
    obtain rfl := Except.ok.inj hl
    cases hi
  | cons q l ih =>
    simp only [existingIds] at hl
    cases hq : header h q with
    | error e => simp [hq] at hl
    | ok b =>
      cases hr : existingIds h l with
      | error e => simp [hq, hr] at hl
      | ok ids' =>
        simp only [hq, hr, Except.ok.injEq] at hl
        have htail : i ∈ ids' → ∃ r ∈ q :: l, ∃ b, header h r = .ok b ∧ b.id = i := fun hi' =>
          (ih hr hi').imp fun _ hr' => ⟨List.mem_cons_of_mem _ hr'.1, hr'.2⟩
        rw [← hl] at hi
        split_ifs at hi with he
        · rcases List.mem_cons.mp hi with rfl | hi'
          · exact ⟨q, List.mem_cons_self, b, hq, rfl⟩
          · exact htail hi'
        · exact htail hi

theorem Recorded.namesStudent (h : Recorded w) {p : ℕ} {b : IFromDB} {x : Fields} (hp : w.heap.get p = some ⟨some b, x⟩)
    (hx : x.cls = .studentInfoDB) : w.NamesStudent b.id := by
  have hk : x.kind = .infos := by rw [← Fields.kind_cls, hx]; rfl
  exact ⟨h.below p b x hp hk, fun d hd => ⟨_, hx ▸ h.reads p b x d hp hk hd⟩⟩

/-- The members a group writes are its students. -/
theorem isRoster_written (h : Recorded w) {g : Group} {d : Doc} (hd : (Fields.group g).toDoc w.heap = .ok d) (i : Oid)
    (hs : ∀ q ∈ g.students, ∀ o, w.heap.get q = some o → o.fields.cls = .studentInfoDB) :
    w.IsRoster (("_id", .oid i) :: d) := by
  obtain ⟨c, m, -, hm, rfl⟩ := Group.build_iff.mp hd
  have hget : Doc.get? [("_id", .oid i), ("Name", .string g.name), ("Curator", c), ("Members", m)] "Members" = some m := by
    simp [Doc.get?_cons]
  unfold membersValue at hm
  split_ifs at hm with he
  · obtain rfl := Except.ok.inj hm
    exact ⟨[], .inr ⟨rfl, _, hget, by simp [nullValue]⟩, by simp⟩
  · cases hids : existingIds w.heap g.students with
    | error e => simp [hids, Functor.map, Except.map] at hm
    | ok ids =>
      rw [hids] at hm
      obtain rfl := Except.ok.inj hm
      refine ⟨ids, .inl hget, fun j hj => ?_⟩
      obtain ⟨q, hq, b, hb, rfl⟩ := mem_existingIds hids hj
      obtain ⟨x, hx⟩ := header_eq_ok.mp hb
      exact h.namesStudent hx (hs q hq _ hx)

/-! ### Ids that go on naming students -/

/-- Ids that name students go on doing so. -/
def KeepsStudents (w w' : World) : Prop := ∀ i, w.NamesStudent i → w'.NamesStudent i

theorem Lib.Conf.IsRoster.keep {d : Doc} (h : w.IsRoster d) (hk : KeepsStudents w w') : w'.IsRoster d :=
  h.imp fun _ hd => ⟨hd.1, fun i hi => hk i (hd.2 i hi)⟩

theorem keepsStudents_of_stored (hs : ∀ i d, w'.stored .infos i = some d → w.stored .infos i = some d)
    (hn : w.env.nextOid ≤ w'.env.nextOid) : KeepsStudents w w' :=
  fun i hi => ⟨hi.1.trans_le hn, fun d hd => hi.2 d (hs i d hd)⟩

theorem Rostered.keep (h : Rostered w) (hk : KeepsStudents w w')
    (hs : ∀ o d, w'.stored .groups o = some d → w.stored .groups o = some d) : Rostered w' :=
  fun o d hd => (h o d (hs o d hd)).keep hk

theorem Rostered.quiet {L : Loads} (h : Rostered w) (hq : Quiet L w w') : Rostered w' := by
  have hs := hq.stored
  exact h.keep (keepsStudents_of_stored (fun _ _ hd => hs ▸ hd) (by rw [hq.env])) fun _ _ hd => hs ▸ hd

/-- What is known of every state: the classes of the pointers, the records behind the infos, and the rosters. -/
structure Enlisted (w : World) : Prop where
  sound : Sound w
  typed : ∃ Γ, WellTyped Γ w
  recorded : Recorded w
  concrete : Concrete w
  rosters : Rostered w

namespace Enlisted

theorem students (h : Enlisted w) {p q : ℕ} {c : Option IFromDB} {g : Group} {o : Obj}
    (hp : w.heap.get p = some ⟨c, .group g⟩) (hq : q ∈ g.students) (ho : w.heap.get q = some o) :
    o.fields.cls = .studentInfoDB := by
  obtain ⟨Γ, hΓ⟩ := h.typed
  have hc := hΓ.students p c g hp q hq
  rw [hΓ.cls q o ho] at hc
  exact Option.some.inj hc

/-- The class of a record whose id names a student. -/
theorem cls_eq (h : Enlisted w) {p : ℕ} {b : IFromDB} {x : Fields} (hp : w.heap.get p = some ⟨some b, x⟩)
    (hx : x.kind = .infos) (hi : w.NamesStudent b.id) (hs : (w.stored .infos b.id).isSome) : x.cls = .studentInfoDB := by
  obtain ⟨d, hd⟩ := Option.isSome_iff_exists.mp hs
  exact (h.recorded.shape _ _ hd).unique (by rw [Fields.kind_cls, hx]) rfl (h.concrete p _ hp) (by simp)
    ⟨_, h.recorded.reads p b x d hp hx hd⟩ (hi.2 d hd)

theorem update (h : Enlisted w) {el : ℕ} {r : Bool} (hu : run (Controller.update k el) w = .ok (r, w')) :
    Rostered w' := by
  obtain ⟨b, x, d, hel, hk, hd, hs, -, -, -, hn, hst⟩ := update_effect hu
  have hkeep : KeepsStudents w w' := by
    refine fun i hi => ⟨hn ▸ hi.1, fun d' hd' => ?_⟩
    rw [hst] at hd'
    split_ifs at hd' with he
    · obtain rfl := Option.some.inj hd'
      obtain ⟨rfl, rfl⟩ := he
      have hcls := h.cls_eq hel hk hi hs
      exact ⟨_, hcls ▸ (Recorded.written (by simp [hcls]) hd b.id).2⟩
    · exact hi.2 d' hd'
  intro o d' hd'
  rw [hst] at hd'
  split_ifs at hd' with he
  · obtain rfl := Option.some.inj hd'
    obtain ⟨g, rfl⟩ : ∃ g, x = .group g := by
      rw [← he.1] at hk
      cases x <;> first | exact ⟨_, rfl⟩ | cases hk
    exact (isRoster_written h.recorded hd b.id fun q hq o ho => h.students hel hq ho).keep hkeep
  · exact (h.rosters o d' hd').keep hkeep

theorem moved (h : Enlisted w) {this stud : ℕ} {bg bs : IFromDB} {g : Group} {s : StudentInfo} {students : List ℕ}
    {v : Pointer} (hm : Moved w this stud bg bs g s students v w')
    (hs : ∀ q ∈ students, ∀ o, w.heap.get q = some o → o.fields.cls = .studentInfoDB) : Rostered w' := by
  obtain ⟨dg, ds, hdg, hds, hst, -, -⟩ := hm.docs
  have hkeep : KeepsStudents w w' := by
    refine fun i hi => ⟨hm.nextOid ▸ hi.1, fun d' hd' => ?_⟩
    rw [hst, if_neg (by simp)] at hd'
    split_ifs at hd' with he
    · obtain rfl := Option.some.inj hd'
      exact ⟨_, (Recorded.written (by simp [Fields.cls]) hds bs.id).2⟩
    · exact hi.2 d' hd'
  intro o d' hd'
  rw [hst] at hd'
  split_ifs at hd' with he he'
  · obtain rfl := Option.some.inj hd'
    exact (isRoster_written h.recorded hdg bg.id hs).keep hkeep
  · cases he'.1
  · exact (h.rosters o d' hd').keep hkeep

theorem enrolled (h : Enlisted w) {this stud : ℕ} (he : Enrolled w this stud w') : Rostered w' := by
  obtain ⟨bg, bs, g, s, hg, hs, hm⟩ := he.moved
  refine h.moved hm fun q hq o ho => ?_
  rcases List.mem_append.mp hq with hq | hq
  · exact h.students hg hq ho
  · obtain rfl := List.mem_singleton.mp hq
    obtain rfl := Option.some.inj (hs.symm.trans ho)
    rfl

theorem expelled (h : Enlisted w) {this stud : ℕ} (he : Expelled w this stud w') : Rostered w' := by
  obtain ⟨bg, bs, g, s, l₁, p, l₂, hg, -, hl, -, -, hm⟩ := he.moved
  refine h.moved hm fun q hq o ho => h.students hg ?_ ho
  rw [hl]
  rcases List.mem_append.mp hq with hq | hq
  · exact List.mem_append_left _ hq
  · exact List.mem_append_right _ (List.mem_cons_of_mem _ hq)

/-! ### A new info -/

theorem push (h : Enlisted w) {c : DBClass} {i : Oid} {d : Doc} {o : Obj} (hs : w.stored c.kind i = some d)
    (ho : c.ofDoc d = .ok o) (hc : c ≠ .additionalInfoDB) : Enlisted (w.push o) := by
  obtain ⟨Γ, hΓ⟩ := h.typed
  obtain ⟨x, j, hx, -, rfl⟩ := ofDoc_eq_ok.mp ho
  obtain ⟨Γ', -, hΓ', -⟩ := hΓ.push (o := ⟨some _, x⟩) (DBClass.bare_fields hx)
  exact ⟨sound_push h.sound _, ⟨Γ', hΓ'⟩, h.recorded.push_builds (.inr ⟨c, i, d, hs, ho⟩),
    h.concrete.push (DBClass.cls_fields hx ▸ hc), h.rosters⟩

theorem getter (h : Enlisted w) {g : Getter} {this : ℕ} {r : Option ℕ} (hr : run (g.call this) w = .ok (r, w')) :
    Enlisted w' := by
  have hq := quiet_getter h.sound hr
  obtain ⟨Γ, hΓ⟩ := h.typed
  obtain ⟨Γ', -, hΓ', -⟩ := types_getter g this Γ w r w' le_rfl hΓ hr
  exact ⟨hq.sound h.sound, ⟨Γ', hΓ'⟩, h.recorded.quiet hq, concrete_getter g this _ _ _ hr h.concrete, h.rosters.quiet hq⟩

theorem grouped (h : Enlisted w) {temp : ℕ} (hg : Grouped w temp w') : Rostered w' := by
  cases hg with
  | none h₁ => exact (h.getter (g := .getStudentGroup) h₁).rosters
  | some h₁ h₂ he => exact ((h.getter (g := .getStudentGroup) h₁).getter (g := .getStudentGroup) h₂).enrolled he

theorem infoAdded (h : Enlisted w) {id : Oid} {t : AccountType} {r : Option ℕ} (ha : InfoAdded w id t r w') :
    Rostered w' := by
  -- the owner's document is the only one that changes when the info is given to it
  have given : ∀ {v : World} {acc res : ℕ}, Rostered v → Attached v acc res w' → Rostered w' := by
    intro v acc res hr ha
    obtain ⟨ba, br, a, x, -, -, -, hgiven⟩ := ha.given
    obtain ⟨da, -, hst, -⟩ := hgiven.docs
    refine hr.keep (keepsStudents_of_stored (fun i d hd => ?_) hgiven.nextOid.ge) fun o d hd => ?_
    · rwa [hst, if_neg (by simp)] at hd
    · rwa [hst, if_neg (by simp)] at hd
  cases ha with
  | admin => exact h.rosters
  | student hs ho hgo hgr ha =>
    exact given (((h.push (c := .studentInfoDB) hs ho (by simp)).getter (g := .getStudentOwner) hgo).grouped hgr) ha
  | teacher hs ho hgo ha =>
    exact given ((h.push (c := .teacherInfoDB) hs ho (by simp)).getter (g := .getTeacherOwner) hgo).rosters ha

theorem post (h : Enlisted w) {e : ℕ} {x : Fields} {d : Doc} (he : w.heap.get e = some ⟨none, x⟩)
    (hd : x.toDoc w.heap = .ok d) : Enlisted (w.post x.kind e d) := by
  obtain ⟨Γ, hΓ⟩ := h.typed
  have hkeep : KeepsStudents w (w.post x.kind e d) := by
    refine fun i hi => ⟨Nat.lt_succ_of_lt hi.1, fun d' hd' => ?_⟩
    rw [stored_post, if_neg fun hk => hi.1.ne hk.2] at hd'
    exact hi.2 d' hd'
  refine ⟨h.sound.post he d, ⟨Γ, (hΓ.free e).of_heap rfl (by simp)⟩, h.recorded.post h.concrete he hd,
    h.concrete.post d, fun o d' hd' => ?_⟩
  rw [stored_post] at hd'
  split_ifs at hd' with hk
  · obtain rfl := Option.some.inj hd'
    obtain ⟨g, rfl⟩ : ∃ g, x = .group g := by
      have hk := hk.1
      cases x <;> first | exact ⟨_, rfl⟩ | cases hk
    exact (isRoster_written h.recorded hd _ fun q hq o ho => h.students he hq ho).keep hkeep
  · exact (h.rosters o d' hd').keep hkeep

end Enlisted

/-! ### Every run -/

/-- The actions other than a log-in and a listing of the infos; what is deleted is cached. -/
def Action.ofMembers (a : Action) (w : World) : Prop := a ≠ .getAll .infos ∧ a.cacheBound w

theorem Enlisted.step {a : Action} (h : Enlisted w) (hs : a.Step w w') (ha : a ≠ .getAll .infos) : Enlisted w' := by
  have ho := outcome_of_step h.sound hs
  obtain ⟨hrec, hcon⟩ := recorded_step h.recorded h.sound h.concrete hs (by
    unfold Action.findsInfos
    split
    · exact absurd rfl ha
    · trivial)
  refine ⟨ho.sound h.sound, wellTyped_step hs h.typed, hrec, hcon, ?_⟩
  cases ho with
  | quiet hq => exact h.rosters.quiet hq
  | listed _ _ hq => exact fun o d hd => (h.rosters.quiet hq) o d hd
  | loggedIn => exact h.rosters
  | added _ he hx hd => exact hx ▸ (h.post he hd).rosters
  | infoAdded he hx hd h' => exact (h.post he hd).infoAdded (hx ▸ h')
  | deleted hd =>
    obtain ⟨p, b, x, db, -, -, rfl, hdb⟩ := hd.effect
    have hback : ∀ k' o d, db.get? k' o = some d → w.stored k' o = some d := by
      intro k' o d hs
      rw [hdb] at hs
      split_ifs at hs
      exact hs
    exact h.rosters.keep (keepsStudents_of_stored (hback .infos) hd.next.ge) (hback .groups)
  | updated hu => exact h.update hu
  | enrolled he => exact h.enrolled he
  | expelled he => exact h.expelled he

/-- The infos are records, and the groups list ids of students or of nothing that is stored. -/
structure Database.ListsStudents (db : Database) : Prop where
  infos : ∀ i d, db.get? .infos i = some d → Kind.infos.Shaped d
  groups : ∀ o d, db.get? .groups o = some d → ∃ ids, d.MembersAre ids ∧
    ∀ i ∈ ids, i < db.nextOid ∧ ∀ d', db.get? .infos i = some d' → d'.IsRecord .studentInfoDB

theorem enlisted_start {db : Database} (hdb : db.ListsStudents) : Enlisted (World.start db) := by
  obtain ⟨hrec, hcon⟩ := recorded_start hdb.infos
  refine ⟨sound_start db, ⟨_, wellTyped_start db⟩, hrec, hcon, fun o d hd => ?_⟩
  obtain ⟨ids, hm, hids⟩ := hdb.groups o d hd
  exact ⟨ids, hm, fun i hi => (hids i hi).imp_right fun hr d' hd' => (hr d' hd').isOf.fields⟩

/-- `getStudents` of each cached group answers with the students whose ids are stored as its members and whose infos are
stored, in their order, and leaves them as the students of the group; asked again it gives the same answer, and it
stores nothing. -/
def StudentsAnswer (w : World) : Prop :=
  ∀ p ∈ w.cash .groups, ∃ b g d ids l w₁ w₂, w.heap.get p = some ⟨some b, .group g⟩ ∧
    w.stored .groups b.id = some d ∧ d.MembersAre ids ∧ run (GroupDB.getStudents p) w = .ok (l, w₁) ∧
    l.map w₁.idOf = (ids.filter fun i => (w.stored .infos i).isSome).map some ∧
    (∀ q ∈ l, q ∈ w₁.cash .infos ∧ ∃ c s, w₁.heap.get q = some ⟨some c, .student s⟩ ∧ c.isExist = true) ∧
    w₁.heap.get p = some ⟨some b, .group { g with students := l }⟩ ∧ w₁.stored = w.stored ∧
    run (GroupDB.getStudents p) w₁ = .ok (l, w₂) ∧ w₂.stored = w.stored

/-- A cached object under an id that names a student is a student. -/
theorem Enlisted.findsStudent (h : Enlisted w) (hw : Coherent w) {i : Oid} (hi : w.NamesStudent i) :
    w.findsStudent i = (w.stored .infos i).isSome := by
  unfold Lib.Conf.findsStudent
  cases hc : w.cached .infos i with
  | none => rfl
  | some q =>
    obtain ⟨b, x, hq, -, hk⟩ := hw.entry .infos q (Lib.Conf.cached_mem hc)
    obtain rfl : b.id = i := by simpa [Lib.Conf.idOf_of_get hq] using Lib.Conf.cached_idOf hc
    have hs := hw.doc .infos q (Lib.Conf.cached_mem hc) b x hq
    have hcls := h.cls_eq hq hk hi (by simp [hs])
    obtain ⟨s, rfl⟩ : ∃ s, x = .student s := by cases x <;> first | exact ⟨_, rfl⟩ | cases hcls
    simp [hq, hs, Fields.isStudent]

theorem exists_getStudents {p : ℕ} {b : IFromDB} {g : Group} {ids : List Oid} (hw : Sound w)
    (hg : w.heap.get p = some ⟨some b, .group g⟩) (hm : b.doc.MembersAre ids) (hids : ∀ i ∈ ids, w.NamesStudent i) :
    ∃ l w', run (GroupDB.getStudents p) w = .ok (l, w') := by
  have hput : Extends (· = p) w (w.put p ⟨some b, .group { g with students := [] }⟩) := .put hw hg rfl rfl (.inl rfl)
  have hg₀ : (w.put p ⟨some b, .group { g with students := [] }⟩).heap.get p =
      some ⟨some b, .group { g with students := [] }⟩ := by rw [Lib.Conf.get_put hg, if_pos rfl]
  rcases hm with hv | ⟨rfl, v, hv, hno⟩
  · obtain ⟨w', hr⟩ := exists_loadStudents_of hput.sound hg₀ fun i (hi : i ∈ ids) _ d hd => by
      rw [hput.stored] at hd
      obtain ⟨x, hx⟩ := (hids i hi).2 d hd
      exact ⟨_, ofDoc_eq_ok.mpr ⟨x, i, hx, (w.env.coll .infos).ids i d hd, rfl⟩⟩
    obtain ⟨ids', l, -, hld⟩ := loaded_of_run hput.sound hg₀ hr
    exact ⟨_, w', run_getStudents_iff.mpr ⟨b, g, _, hg, hv, .inl ⟨_, rfl, hr⟩, _, _, hld.get, rfl⟩⟩
  · exact ⟨_, _, run_getStudents_iff.mpr ⟨b, g, v, hg, hv, .inr ⟨hno, rfl⟩, _, _, hg₀, rfl⟩⟩

theorem Doc.MembersAre.unique {d : Doc} {ids ids' : List Oid} (h : d.MembersAre ids) (h' : d.MembersAre ids') :
    ids = ids' := by
  have inj : Function.Injective (List.map Element.oid) := List.map_injective_iff.mpr fun i j he => by simpa using he
  rcases h with hv | ⟨rfl, v, hv, hno⟩ <;> rcases h' with hv' | ⟨rfl, v', hv', hno'⟩
  · exact inj (by simpa using hv.symm.trans hv')
  · exact absurd (Option.some.inj (hv'.symm.trans hv)) (hno' _)
  · exact absurd (Option.some.inj (hv.symm.trans hv')) (hno _)
  · rfl

theorem Enlisted.studentsAnswer (h : Enlisted w) (hw : Coherent w) : StudentsAnswer w := by
  intro p hp
  obtain ⟨b, x, hg, -, hk⟩ := hw.entry .groups p hp
  obtain ⟨g, rfl⟩ : ∃ g, x = .group g := by cases x <;> first | exact ⟨_, rfl⟩ | cases hk
  have hdoc := hw.doc .groups p hp b _ hg
  obtain ⟨ids, hm, hids⟩ := h.rosters b.id b.doc hdoc
  obtain ⟨l, w₁, hr⟩ := exists_getStudents hw.toSound hg hm hids
  obtain ⟨ids', hgot⟩ := got_students hw.toSound hg hr
  obtain rfl := hm.unique hgot.members
  have hfilter : ids.filter w.findsStudent = ids.filter fun i => (w.stored .infos i).isSome :=
    List.filter_congr fun i hi => h.findsStudent hw (hids i hi)
  -- the second call finds what the first one left
  have hlt : ∀ q ∈ l, q < w₁.heap.next := by
    intro q hq
    obtain ⟨c, y, hy, -⟩ := hgot.live hq
    exact Lib.Heap.lt_next hy
  obtain ⟨w₂, hr₂⟩ := (lists_iff hgot.grown.sound hgot.get hlt).mpr ⟨ids, hgot.members, hgot.all, hgot.listed⟩
  obtain ⟨_, hgot₂⟩ := got_students hgot.grown.sound hgot.get hr₂
  refine ⟨b, g, b.doc, ids, l, w₁, w₂, hg, hdoc, hm, hr, hfilter ▸ hgot.ids_eq, fun q hq => ?_, hgot.get, hgot.grown.stored,
    hr₂, hgot₂.grown.stored.trans hgot.grown.stored⟩
  obtain ⟨i, -, hc, c, s, hs, hlive, -⟩ := hgot.cached hq
  exact ⟨Lib.Conf.cached_mem hc, c, s, hs, hlive⟩

/-- The students of every cached group can be looked up in every state. -/
theorem studentsAnswer_of_run {db : Database} {as : List Action} (hdb : db.ListsStudents)
    (hr : Lib.Run Action.Step Action.ofMembers (World.start db) as w) : StudentsAnswer w := by
  have hinv : Coherent w ∧ Registered (fun _ => False) w ∧ Enlisted w := by
    refine hr.invariant (I := fun w => Coherent w ∧ Registered (fun _ => False) w ∧ Enlisted w)
      ⟨coherent_start db, registered_start db, enlisted_start hdb⟩ ?_
    rintro a w w' ⟨hw, hreg, h⟩ ⟨ha, hb⟩ hs
    obtain ⟨hw', hreg'⟩ := (outcome_of_step (a := a) hw.toSound hs).registered hw hreg hb
    exact ⟨hw', hreg', h.step hs ha⟩
  exact hinv.2.2.studentsAnswer hinv.1

theorem listsStudents_groupAndStudent : groupAndStudent.ListsStudents := by
  constructor
  · intro i d h
    rw [groupAndStudent, Database.get?_insert] at h
    split_ifs at h
    · obtain rfl := Option.some.inj h
      refine .inl ⟨⟨⟨_, rfl⟩, fun f hf => ?_⟩, rfl⟩
      cases f <;> first | exact ⟨_, rfl⟩ | simp [DBClass.refs] at hf
    · rw [Database.get?_insert, if_neg (by simp)] at h
      simp [Database.get?, Database.empty, Collection.get?, Collection.empty] at h
  · intro o d h
    rw [groupAndStudent, Database.get?_insert, if_neg (by simp), Database.get?_insert] at h
    split_ifs at h
    · obtain rfl := Option.some.inj h
      exact ⟨[], .inr ⟨rfl, nullValue, rfl, by simp [nullValue]⟩, by simp⟩
    · simp [Database.get?, Database.empty, Collection.get?, Collection.empty] at h

/-- The students of the group after the student was added to it. -/
theorem studentsAnswer_of_addStudent : ∃ w, w.cash .groups = [0] ∧ (w.stored .groups 0).any (fun d =>
    d.get? "Members" = some (.array [.oid 1])) = true ∧ StudentsAnswer w := by
  have hplay : (play [.getFromDB .groups 0 .admin, .getFromDB .infos 1 .student, .addStudent 0 1]
      (World.start groupAndStudent)).any (fun w => w.cash .groups = [0] ∧
        (w.stored .groups 0).any (fun d => d.get? "Members" = some (.array [.oid 1])) = true) = true := by decide
  obtain ⟨w, hw, hc⟩ := Option.any_eq_true .. |>.mp hplay
  obtain ⟨hcash, hdoc⟩ := of_decide_eq_true hc
  obtain ⟨w₁, h₁, hw⟩ := Option.bind_eq_some_iff.mp hw
  obtain ⟨w₂, h₂, hw⟩ := Option.bind_eq_some_iff.mp hw
  obtain ⟨w₃, h₃, hnil⟩ := Option.bind_eq_some_iff.mp hw
  obtain rfl := Option.some.inj hnil
  exact ⟨w₃, hcash, hdoc, studentsAnswer_of_run listsStudents_groupAndStudent
    (.snoc (.snoc (.snoc .nil (by simp [Action.ofMembers, Action.cacheBound]) (Action.step_of_next? h₁))
      (by simp [Action.ofMembers, Action.cacheBound]) (Action.step_of_next? h₂))
        (by simp [Action.ofMembers, Action.cacheBound]) (Action.step_of_next? h₃))⟩

end Cbt
