import Cbt.Windows.Drawing
import Cbt.Windows.Pointers

/-! Showing a group. The screen of a group can be drawn in a drawable memory when the
members the group's document lists can be loaded as students, the account of each of
them can be shown as a row, and the curator is settled. Drawing keeps all of this, so
the group can be opened again. -/

namespace Cbt

open Lib.Command (Returns run_bind_iff run_pure_iff)

variable {κ : Oid → Option DBClass} {w w' : World} {d : Doc} {i : Oid} {p grp : ℕ}

/-! ### Members -/

/-- A student can be asked for its account, and the account can be shown as a row. -/
structure Lib.Conf.Accounted (κ : Oid → Option DBClass) (w : World) (d : Doc) (s : StudentInfo) : Prop where
  follows : w.Follows κ d .owner (some .accountDB) s.owner
  fills : ∀ d' x, w.Leads κ d .owner s.owner d' x → ∃ a, x = .account a ∧ w.Fills κ d' a

/-- The member of a group with an id can be loaded as a student, and a student with the id has an account that can be
shown. -/
structure Lib.Conf.Seated (κ : Oid → Option DBClass) (w : World) (i : Oid) : Prop where
  loads : w.cached .infos i = none → ∀ d, w.stored .infos i = some d →
    κ i = some .studentInfoDB ∧ ∃ x, DBClass.studentInfoDB.fields d = .ok x
  owned : ∀ d s, w.Found κ .infos i d (.student s) → w.Accounted κ d s

/-- A group's document lists its members by their ids, and each can be shown. -/
structure Lib.Conf.Roster (κ : Oid → Option DBClass) (w : World) (d : Doc) : Prop where
  key : ∃ u, d.get? "Members" = some u
  members : ∀ vs, d.get? "Members" = some (.array vs) → ∀ v ∈ vs, ∃ i, v = .oid i ∧ w.Seated κ i

/-- The student at an address can be shown by its account. -/
def Lib.Conf.Pupil (κ : Oid → Option DBClass) (w : World) (p : ℕ) : Prop :=
  ∃ b s, w.heap.get p = some ⟨some b, .student s⟩ ∧ b.isExist = true ∧ w.Accounted κ b.doc s

namespace Renews

theorem accounted {s s' : StudentInfo} (h : Renews κ w w') (hw : Sound w) (hw' : Sound w') (hl : Looks w w')
    (hr : Renewed w w' d .owner s.owner s'.owner) (hs : w'.Seen (.student s')) (ho : w.Accounted κ d s) : w'.Accounted κ d s' where
  follows := h.follows hw' hr ho.follows (h.firm_of_seen (f := .owner) hs rfl rfl)
  fills d' x' hd := by
    obtain ⟨x, hd₀, hren, hseen⟩ := h.leads_back hw hr ho.follows.held hd
    obtain ⟨a, rfl, hfills⟩ := ho.fills d' x hd₀
    have hbare := hren.bare
    cases x' with
    | account a' =>
      obtain ⟨a₀, ha₀, ht, hr'⟩ := hren.account
      obtain rfl := Fields.account.inj ha₀
      exact ⟨a', rfl, h.fills hw hw' hl ht.symm hr' hseen hfills⟩
    | group | additionalInfo | student | teacher | schedule => cases hbare

theorem seated (h : Renews κ w w') (hw : Sound w) (hw' : Sound w') (hl : Looks w w') (he : w.Seated κ i) : w'.Seated κ i where
  loads hn d hs := he.loads (h.cached_none hn) d (by rwa [h.stored] at hs)
  owned d s' hf := by
    obtain ⟨x, hf₀, hren, hseen⟩ := h.found_back hw hf
    obtain ⟨s, rfl, hr, -⟩ := hren.student
    exact h.accounted hw hw' hl hr hseen (he.owned d s hf₀)

theorem roster (h : Renews κ w w') (hw : Sound w) (hw' : Sound w') (hl : Looks w w') (hr : w.Roster κ d) : w'.Roster κ d where
  key := hr.key
  members vs hv v hm := by
    obtain ⟨i, rfl, he⟩ := hr.members vs hv v hm
    exact ⟨i, rfl, h.seated hw hw' hl he⟩

theorem pupil (h : Renews κ w w') (hw : Sound w) (hw' : Sound w') (hl : Looks w w') (hp : w.Pupil κ p) : w'.Pupil κ p := by
  obtain ⟨b, s, hg, hb, ho⟩ := hp
  obtain ⟨b', x', hg', hcore, -⟩ := hl.kept hg hb
  obtain ⟨b₀, x₀, hg₀, -, hren⟩ := h.back p b' x' (Lib.Heap.lt_next hg) hg'
  obtain ⟨rfl, rfl⟩ : b = b₀ ∧ Fields.student s = x₀ := by simpa [hg] using hg₀
  simp only [IFromDB.core, Prod.mk.injEq] at hcore
  have hbare := hren.bare
  cases x' with
  | student s' =>
    obtain ⟨s₀, hs₀, hr, -⟩ := hren.student
    obtain rfl := Fields.student.inj hs₀
    refine ⟨b', s', hg', hcore.2.2.trans hb, ?_⟩
    rw [hcore.2.1]
    exact h.accounted hw hw' hl hr (.inl ⟨p, b', hg'⟩) ho
  | account | group | additionalInfo | teacher | schedule => cases hbare

end Renews

namespace Asked

theorem roster (h : Asked κ w w') (hd : w.Drawable κ) (hr : w.Roster κ d) : w'.Roster κ d :=
  (h.induct (P := fun w => w.Roster κ d) (fun _ _ hd hw' hl hr => hr.roster hd.sound hw' hl) hd hr).2

theorem seated (h : Asked κ w w') (hd : w.Drawable κ) (he : w.Seated κ i) : w'.Seated κ i :=
  (h.induct (P := fun w => w.Seated κ i) (fun _ _ hd hw' hl hr => hr.seated hd.sound hw' hl) hd he).2

theorem pupil (h : Asked κ w w') (hd : w.Drawable κ) (hp : w.Pupil κ p) : w'.Pupil κ p :=
  (h.induct (P := fun w => w.Pupil κ p) (fun _ _ hd hw' hl hr => hr.pupil hd.sound hw' hl) hd hp).2

end Asked

/-! ### The students of a group -/

/-- A look-up that can be made is made by asking. -/
theorem asked_of_seated (h : w.Seated κ i) :
    ∃ r w', Looked w .infos i (some .studentInfoDB) r w' ∧ Asked κ w w' := by
  cases hc : w.cached .infos i with
  | some p => exact ⟨_, _, .hit hc, .refl⟩
  | none =>
    cases hs : w.stored .infos i with
    | none => exact ⟨_, _, .absent hc (.inl hs), .refl⟩
    | some d =>
      obtain ⟨hκ, x, hx⟩ := h.loads hc d hs
      have hof : DBClass.studentInfoDB.ofDoc d = .ok ⟨some { doc := d, id := i }, x⟩ := ofDoc_eq_ok.mpr ⟨x, i, hx, stored_id hs, rfl⟩
      exact ⟨_, _, .loaded hc hs rfl hof, .single (.load hc hs hκ rfl hx)⟩

/-- The object of a group, whose students can be shown. -/
def Lib.Conf.Class (κ : Oid → Option DBClass) (w : World) (grp : ℕ) (d : Doc) : Prop :=
  ∃ b g, w.heap.get grp = some ⟨some b, .group g⟩ ∧ b.isExist = true ∧ b.doc = d ∧ ∀ p ∈ g.students, w.Pupil κ p

theorem Looked.class {r : Option ℕ} (h : Looked w .infos i (some .studentInfoDB) r w') (ha : Asked κ w w') (hd : w.Drawable κ)
    (hg : w.Class κ grp d) : w'.Class κ grp d := by
  obtain ⟨b, g, hg, hb, hdoc, hp⟩ := hg
  exact ⟨b, g, h.get hg, hb, hdoc, fun p hp' => ha.pupil hd (hp p hp')⟩

theorem draws_loadStudents {vs : List Element} (h : w.Drawable κ) (hg : w.Class κ grp d)
    (hv : ∀ v ∈ vs, ∃ i, v = .oid i ∧ w.Seated κ i) :
    Draws κ (GroupDB.loadStudents grp vs) w fun _ w' => w'.Class κ grp d := by
  induction vs generalizing w with
  | nil => exact Draws.pure hg
  | cons v vs ih =>
    obtain ⟨i, rfl, hi⟩ := hv v (by simp)
    obtain ⟨r, w₁, hl, ha⟩ := asked_of_seated hi
    have h₁ := ha.drawable h
    have hg₁ := hl.class ha h hg
    have hv₁ : ∀ v ∈ vs, ∃ i, v = .oid i ∧ w₁.Seated κ i := fun v hm => by
      obtain ⟨j, rfl, hj⟩ := hv v (List.mem_cons_of_mem _ hm)
      exact ⟨j, rfl, ha.seated h hj⟩
    have hr : run (InfosController.getFromDB i .student) w = .ok (r, w₁) := (run_infosGetFromDB_iff (h.sound.live .infos)).mpr hl
    have hskip (hr' : r = none ∨ ∃ p o, r = some p ∧ w₁.heap.get p = some o ∧ o.fields.isStudent = false) :
        Draws κ (GroupDB.loadStudents grp (.oid i :: vs)) w fun _ w' => w'.Class κ grp d := by
      obtain ⟨u, w', hrest, ha', hg'⟩ := ih h₁ hg₁ hv₁
      exact ⟨u, w', run_loadStudents_cons_iff.mpr ⟨i, r, w₁, rfl, hr, .inl ⟨hr', hrest⟩⟩, ha.trans ha', hg'⟩
    cases r with
    | none => exact hskip (.inl rfl)
    | some p =>
      have hin := hl.cached h.sound
      obtain ⟨c, y, hp, hc, -⟩ := h₁.sound.entry _ p (Lib.Conf.cached_mem hin)
      cases y with
      | student s =>
        -- the student takes its place in the group
        obtain ⟨b, g, hget, hb, rfl, hpup⟩ := hg₁
        have hpupil : w₁.Pupil κ p := ⟨c, s, hp, hc, (ha.seated h hi).owned _ _ (.cached hin hp)⟩
        have hput : Asked κ w₁ (w₁.put grp ⟨some b, .group { g with students := g.students ++ [p] }⟩) := .single (.students hget)
        have hg₂ : (w₁.put grp ⟨some b, .group { g with students := g.students ++ [p] }⟩).Class κ grp b.doc := by
          refine ⟨b, _, by rw [Lib.Conf.get_put hget, if_pos rfl], hb, rfl, fun q hq => hput.pupil h₁ ?_⟩
          rcases List.mem_append.mp hq with hq | hq
          · exact hpup q hq
          · exact List.mem_singleton.mp hq ▸ hpupil
        obtain ⟨u, w', hrest, ha', hg'⟩ := ih (hput.drawable h₁) hg₂ fun v hm => by
          obtain ⟨j, rfl, hj⟩ := hv₁ v hm
          exact ⟨j, rfl, hput.seated h₁ hj⟩
        exact ⟨u, w', run_loadStudents_cons_iff.mpr ⟨i, some p, w₁, rfl, hr, .inr ⟨p, c, _, rfl, hp, rfl, .inr ⟨hc, some b, g, hget,
          hrest⟩⟩⟩, ha.trans (hput.trans ha'), hg'⟩
      | account | group | additionalInfo | teacher | schedule => exact hskip (.inr ⟨p, _, rfl, hp, rfl⟩)

/-- The students of a group that exists are loaded, and can be shown. -/
theorem draws_getStudents {b : IFromDB} {g : Group} (h : w.Drawable κ) (hg : w.heap.get grp = some ⟨some b, .group g⟩)
    (hb : b.isExist = true) (hr : w.Roster κ b.doc) :
    Draws κ (GroupDB.getStudents grp) w fun r w' => ∀ p ∈ r, w'.Pupil κ p := by
  have hclear : Asked κ w (w.put grp ⟨some b, .group { g with students := [] }⟩) := .single (.students hg)
  have hg₀ : (w.put grp ⟨some b, .group { g with students := [] }⟩).heap.get grp = some ⟨some b, .group { g with students := [] }⟩ := by
    rw [Lib.Conf.get_put hg, if_pos rfl]
  have hclass : (w.put grp ⟨some b, .group { g with students := [] }⟩).Class κ grp b.doc := ⟨b, _, hg₀, hb, rfl, by simp⟩
  obtain ⟨v, hv⟩ := hr.key
  by_cases harr : ∃ vs, v = .array vs
  · obtain ⟨vs, rfl⟩ := harr
    obtain ⟨u, w', hrun, ha, b', g', hg', hb', hdoc, hp⟩ := draws_loadStudents (hclear.drawable h) hclass
      ((hclear.roster h hr).members vs hv)
    exact ⟨g'.students, w', run_getStudents_iff.mpr ⟨b, g, _, hg, hv, .inl ⟨vs, rfl, hrun⟩, some b', g', hg', rfl⟩, hclear.trans ha, hp⟩
  · exact ⟨[], _, run_getStudents_iff.mpr ⟨b, g, v, hg, hv, .inr ⟨fun vs he => harr ⟨vs, he⟩, rfl⟩, some b, _, hg₀, rfl⟩, hclear,
      by simp⟩

/-- The accounts of students that can be shown can be. -/
theorem draws_owners {infos : List ℕ} (h : w.Drawable κ) (hp : ∀ p ∈ infos, w.Pupil κ p) :
    Draws κ (GroupedAccountsTable.owners infos) w fun r w' => ∀ p, some p ∈ r → w'.Presents κ p := by
  induction infos generalizing w with
  | nil => exact Draws.pure (by simp)
  | cons info infos ih =>
    rw [List.forall_mem_cons] at hp
    obtain ⟨b, s, hg, hb, hown⟩ := hp.1
    have hget : Draws κ (StudentInfoDB.getOwner info) w fun r w' => ∀ q, r = some q →
        w'.Alive q ∧ w'.refOf info .owner = some (.to q) :=
      (draws_get (g := .getStudentOwner) h.sound hg hb (by decide) (fun _ => rfl) rfl rfl hown.follows).mono fun _ _ _ hr => hr.1
    refine hget.bind fun r w₁ ha hr => ?_
    have h₁ := ha.drawable h
    refine (ih h₁ fun p hp' => ha.pupil h (hp.2 p hp')).bind fun rs w₂ ha₂ hrs => Draws.pure fun p hp' => ?_
    rcases List.mem_cons.mp hp' with hp' | hp'
    · -- the account is the student's now, and such an account can be shown
      obtain ⟨⟨c, y, hq, hc⟩, hown₁⟩ := hr p hp'.symm
      obtain ⟨b', s', hg', -, hacc⟩ := ha.pupil h hp.1
      rw [refOf_of_get hg'] at hown₁
      obtain ⟨a, rfl, hfills⟩ := hacc.fills c.doc y (by rw [Option.some.inj hown₁]; exact .held hq hc)
      exact ha₂.presents h₁ ⟨c, a, hq, hc, hfills⟩
    · exact hrs p hp'

/-! ### The screen of a group -/

/-- The curator of a group is settled: it is a teacher that exists, or there is none and the document names none. -/
inductive Lib.Conf.Settles (w : World) (d : Doc) : Option ℕ → Prop
  | none {u : Bson} (hu : d.get? "Curator" = some u) (hi : u.oid? = none) : w.Settles d none
  | some {q : ℕ} {text : String} (hq : w.Alive q) (ht : w.curatorText q = some text) : w.Settles d (some q)

/-- The group at an address exists and can be shown with a curator, or none. -/
def Lib.Conf.Opens (κ : Oid → Option DBClass) (w : World) (grp : ℕ) (curator : Option ℕ) : Prop :=
  ∃ b g, w.heap.get grp = some ⟨some b, .group g⟩ ∧ b.isExist = true ∧ g.curator = .ofOption curator ∧
    w.Settles b.doc curator ∧ w.Roster κ b.doc

theorem Renews.opens {curator : Option ℕ} (h : Renews κ w w') (hw : Sound w) (hw' : Sound w') (hl : Looks w w')
    (ho : w.Opens κ grp curator) : w'.Opens κ grp curator := by
  obtain ⟨b, g, hg, hb, hcur, hs, hr⟩ := ho
  obtain ⟨b', x', v', hg', hdoc, hv', hren⟩ := h.refOf (f := .curator) hl hg hb rfl
  obtain ⟨b₁, x₁, hg₁, hcore, hbare⟩ := hl.kept hg hb
  obtain ⟨rfl, rfl⟩ : b' = b₁ ∧ x' = x₁ := by simpa [hg'] using hg₁
  simp only [IFromDB.core, Prod.mk.injEq] at hcore
  cases x' with
  | group g' =>
    obtain rfl := Option.some.inj hv'
    refine ⟨b', g', hg', hcore.2.2.trans hb, ?_, ?_, hdoc ▸ h.roster hw hw' hl hr⟩
    · rw [hcur] at hren
      generalize g'.curator = u at hren
      cases hs with
      | none hu hi =>
        cases hren with
        | same => rfl
        | dropped => rfl
        | taken _ hj =>
          obtain rfl := Option.some.inj (hu.symm.trans hj)
          cases hi
      | some hq =>
        cases hren with
        | same => rfl
        | dropped h => exact absurd hq h.not_alive
        | taken h => exact absurd hq h.not_alive
    · rw [hdoc]
      cases hs with
      | none hu hi => exact .none hu hi
      | some hq ht => exact .some (hl.alive hq) ((hl.curatorText hq).trans ht)
  | account | additionalInfo | student | teacher | schedule => cases hbare

theorem Asked.opens {curator : Option ℕ} (h : Asked κ w w') (hd : w.Drawable κ) (ho : w.Opens κ grp curator) :
    w'.Opens κ grp curator :=
  (h.induct (P := fun w => w.Opens κ grp curator) (fun _ _ hd hw' hl hr => hr.opens hd.sound hw' hl) hd ho).2

theorem Lib.Conf.Opens.refOf {curator : Option ℕ} (h : w.Opens κ grp curator) : w.refOf grp .curator = some (.ofOption curator) := by
  obtain ⟨b, g, hg, -, hcur, -⟩ := h
  rw [refOf_of_get hg]
  exact congrArg some hcur

/-- The getter answers with a curator that is settled. -/
theorem Lib.Conf.Opens.run_getCurator {curator : Option ℕ} (h : w.Opens κ grp curator) (hw : Sound w) :
    run (GroupDB.getCurator grp) w = .ok (curator, w) := by
  obtain ⟨b, g, hg, hb, hcur, hs, -⟩ := h
  refine (run_getter_iff (g := .getCurator) hw hg (Fields.mem_refs.mpr ⟨g.curator, rfl⟩)).mpr ?_
  have hv : (Fields.group g).ref .curator = some (.ofOption curator) := congrArg some hcur
  cases hs with
  | none hu hi => exact .absent hg hv hu hi
  | some hq =>
    obtain ⟨c, y, hq, hc⟩ := hq
    exact .settled hg hv (.held hq hc)

theorem Lib.Conf.Opens.run_chooseCurator {curator : Option ℕ} (h : w.Opens κ grp curator) (hw : Sound w) (box : ComboBox) :
    ∃ box', run (AdminWindow.chooseCurator box grp) w = .ok (box', w) := by
  have hget := h.run_getCurator hw
  obtain ⟨b, g, -, -, -, hs, -⟩ := h
  simp only [AdminWindow.chooseCurator, run_bind_iff]
  cases hs with
  | none => exact ⟨box, none, w, hget, by simp⟩
  | @some q _ hq ht =>
    obtain ⟨c, t, hq⟩ := teacher_of_curatorText ht
    have hteach : run (teacherOf q) w = .ok (t, w) := run_teacherOf_iff.mpr ⟨⟨c, hq⟩, rfl⟩
    refine ⟨box.setCurrentText (cStr (t.firstName ++ " " ++ t.secondName)), some q, w, hget, ?_⟩
    simp only [Option.isSome_some, if_true, run_bind_iff]
    refine ⟨some q, w, hget, ?_⟩
    simp only [run_bind_iff]
    refine ⟨t, w, hteach, some q, w, hget, ?_⟩
    simp only [run_bind_iff]
    exact ⟨t, w, hteach, (run_pure_iff _).mpr ⟨rfl, rfl⟩⟩

namespace Lib.Conf.Drawable

/-- The accounts of a group's students can be shown. -/
theorem draws_groupedAccounts {curator : Option ℕ} (h : w.Drawable κ) (ho : w.Opens κ grp curator) :
    Draws κ (GroupedAccountsTable.getAccounts (some grp)) w fun r w' => ∀ p, some p ∈ r → w'.Presents κ p := by
  obtain ⟨b, g, hg, hb, -, -, hr⟩ := ho
  refine .seq (run_fromDB_iff.mpr ⟨header_eq_ok.mpr ⟨_, hg⟩, rfl⟩) ?_
  rw [if_neg (by simp [hb])]
  exact (draws_getStudents h hg hb hr).bind fun r w₁ ha hp => draws_owners (ha.drawable h) hp

/-- A group that can be shown can be opened. Its curator is in the box when a stored account has it for its info, and each
teacher in the box is the info of an account. -/
theorem draws_setGroup {curator : Option ℕ} (win : AdminWindow) (h : w.Drawable κ) (ho : w.Opens κ grp curator) :
    Draws κ (win.setGroup (some grp)) w fun win' w' =>
      (∀ q ∈ win'.allCurators, w'.Alive q ∧ ∃ p ∈ w'.cash .accounts, w'.refOf p .additionalInfo = some (.to q)) ∧
        ∀ i p q, w.stored .accounts i ≠ none → w.cached .accounts i = some p → w.Bears p .additionalInfo q →
          (w.curatorText q).isSome → q ∈ win'.allCurators := by
  refine (h.draws_groupedAccounts ho).bind fun accs w₁ ha₁ hp => ?_
  have h₁ := ha₁.drawable h
  refine (h₁.draws_updateTable hp).bind fun _ w₂ ha₂ _ => ?_
  have h₂ := ha₂.drawable h₁
  refine h₂.draws_accounts.bind fun all w₃ ha₃ hall => ?_
  have h₃ := ha₃.drawable h₂
  refine (h₃.draws_curators hall.1).bind fun curs w₄ ha₄ hcurs => ?_
  refine (draws_curatorNames fun q hq => (hcurs.1 q hq).2.1).bind fun names w₅ _ hw₅ => ?_
  subst hw₅
  have ha : Asked κ w w₅ := ha₁.trans (ha₂.trans (ha₃.trans ha₄))
  have hopen := ha.opens h ho
  obtain ⟨box, hbox⟩ := hopen.run_chooseCurator (ha.drawable h).sound (ComboBox.ofNames names)
  obtain ⟨b, g, hg, -⟩ := hopen
  refine .seq hbox (.seq (run_groupOf_iff.mpr ⟨⟨_, hg⟩, rfl⟩) (Draws.pure ⟨fun q hq => ?_, fun i p q hs hc hb ht => ?_⟩))
  · obtain ⟨halive, -, p, hp, hr⟩ := hcurs.1 q hq
    exact ⟨halive, p, ha₄.looks.mem_cash (hall.1 p hp), hr⟩
  · have ha' : Asked κ w w₂ := ha₁.trans ha₂
    have hinfos : Asked κ w w₃ := ha'.trans ha₃
    have hp : w.Alive p := h.sound.live _ p (Lib.Conf.cached_mem hc)
    have hin : p ∈ all := hall.2 i p (by rwa [ha'.looks.stored]) (ha'.cached h hc)
    refine hcurs.2 p hin q (hinfos.bears h hp hb) ?_
    rwa [hinfos.looks.curatorText (hb.alive h.sound)]

/-- And the whole screen can be drawn. -/
theorem draws_updateGroupsScrean {curator : Option ℕ} (win : AdminWindow) (h : w.Drawable κ) (ho : w.Opens κ grp curator) :
    Draws κ (win.updateGroupsScrean (some grp)) w fun win' w' =>
      (∀ q ∈ win'.allCurators, w'.Alive q ∧ ∃ p ∈ w'.cash .accounts, w'.refOf p .additionalInfo = some (.to q)) ∧
        ∀ i p q, w.stored .accounts i ≠ none → w.cached .accounts i = some p → w.Bears p .additionalInfo q →
          (w.curatorText q).isSome → q ∈ win'.allCurators := by
  refine (h.draws_setGroup win ho).bind fun win' w₁ ha₁ hbox => ?_
  have h₁ := ha₁.drawable h
  refine (h₁.draws_groupedAccounts (ha₁.opens h ho)).bind fun accs w₂ ha₂ hp => ?_
  have h₂ := ha₂.drawable h₁
  refine (h₂.draws_updateTable hp).bind fun _ w₃ ha₃ _ => ?_
  have h₃ := ha₃.drawable h₂
  refine (h₃.draws_accounts.bind fun all w₄ ha₄ hall => (ha₄.drawable h₃).draws_ungrouped hall.1).bind fun accs' w₄ ha₄ hp' => ?_
  have h₄ := ha₄.drawable h₃
  refine (h₄.draws_updateTable hp').bind fun _ w₅ ha₅ _ => ?_
  refine (ha₅.drawable h₄).draws_groupsTable.bind fun _ w₆ ha₆ _ => Draws.pure ⟨fun q hq => ?_, hbox.2⟩
  have ha : Asked κ w₁ w₆ := ha₂.trans (ha₃.trans (ha₄.trans (ha₅.trans ha₆)))
  obtain ⟨halive, p, hp, hr⟩ := hbox.1 q hq
  exact ⟨ha.looks.alive halive, p, ha.looks.mem_cash hp, ha.held h₁ (h₁.sound.live _ _ hp) halive hr⟩

end Lib.Conf.Drawable

/-! ### The entry of the curator -/

/-- A reference of a document that can only be answered with the object at one address. -/
inductive Lib.Conf.Denotes (w : World) (d : Doc) (f : RefField) (q : ℕ) : Pointer → Prop
  | held (hq : w.Alive q) : w.Denotes d f q (.to q)
  | found {v : Pointer} {i : Oid} (hv : w.Loose v) (hi : d.get? f.key = some (.oid i)) (hc : w.cached f.kind i = some q) :
      w.Denotes d f q v

/-- A teacher is the info of a stored account that is listed, and no account has another teacher with the same text. -/
structure Lib.Conf.Sole (κ : Oid → Option DBClass) (w : World) (q : ℕ) : Prop where
  borne : ∃ i p, w.stored .accounts i ≠ none ∧ w.cached .accounts i = some p ∧ w.Bears p .additionalInfo q
  alone : ∀ d a d' x text, w.Kept κ .accounts d (.account a) → w.Leads κ d .additionalInfo a.additionalInfo d' x →
    w.curatorText q = some text → x.curatorText = some text → w.Denotes d .additionalInfo q a.additionalInfo

/-- In a memory where everything is loaded, an account has the teacher for its info and no other teacher has the text. -/
def Lib.Conf.isSole (w : World) (q : ℕ) : Bool :=
  w.isLoaded && (w.heap.get q).any (fun o => o.fromDB.any (·.isExist)) &&
  ((w.cash .accounts).any fun p => w.refOf p .additionalInfo = some (.to q) &&
    (w.idOf p).any fun i => (w.stored .accounts i).isSome && w.cached .accounts i = some p) &&
  (w.cash .accounts).all fun p => (w.refOf p .additionalInfo).any fun v => v.targets.all fun r =>
    r = q || w.curatorText r ≠ w.curatorText q

theorem sole_of_isSole {q : ℕ} (h : w.isSole q = true) : w.Sole κ q := by
  simp only [Lib.Conf.isSole, Bool.and_eq_true, List.any_eq_true, List.all_eq_true, decide_eq_true_eq, Option.any_eq_true] at h
  obtain ⟨⟨⟨hl, ⟨o, hq, b, hb, hex⟩⟩, p, -, hr, i, -, hs, hc⟩, hall⟩ := h
  have hqa : w.Alive q := by
    obtain ⟨c, x⟩ := o
    obtain rfl : c = some b := hb
    exact ⟨b, x, hq, hex⟩
  refine ⟨⟨i, p, Option.isSome_iff_ne_none.mp hs, hc, .inl ⟨hr, hqa⟩⟩, fun d a d' x text hk hd ht hx => ?_⟩
  obtain ⟨p, hp, r, c, t, hpr, hv, hgr, hcr⟩ := teacher_of_isLoaded hl hk
  obtain ⟨v, hv', hr'⟩ := hall p hp
  obtain rfl := Option.some.inj (hpr.symm.trans hv')
  rw [hv] at hr' hd ⊢
  have hrq := hr' r (by simp)
  cases hd with
  | held hg =>
    obtain ⟨rfl, rfl⟩ : c = _ ∧ Fields.teacher t = x := by simpa [hgr] using hg
    have hsame : w.curatorText r = w.curatorText q := by
      rw [ht, ← hx, curatorText_of_get hgr]
      rfl
    obtain rfl : r = q := by simpa [hsame] using hrq
    exact .held hqa
  | found h => exact absurd ⟨c, _, hgr, hcr⟩ h.not_alive

theorem Lib.Conf.Sole.alive {q : ℕ} (h : w.Sole κ q) (hw : Sound w) : w.Alive q := by
  obtain ⟨i, p, -, -, hb⟩ := h.borne
  exact hb.alive hw

theorem Renews.denotes {f : RefField} {v v' : Pointer} {q : ℕ} (h : Renews κ w w') (hw' : Sound w') (hl : Looks w w')
    (hr : Renewed w w' d f v v')
    (hfirm : ∀ p, v' = .to p → (∃ b x, w.heap.get p = some ⟨some b, x⟩) → ∃ b x, w'.heap.get p = some ⟨some b, x⟩)
    (hd : w.Denotes d f q v) : w'.Denotes d f q v' := by
  cases hd with
  | held hq =>
    cases hr with
    | same => exact .held (hl.alive hq)
    | dropped h => exact absurd hq h.not_alive
    | taken h => exact absurd hq h.not_alive
  | found hv hi hc =>
    have hc' := h.cached _ _ _ hc
    cases hr with
    | same => exact .found (h.loose hfirm hv) hi hc'
    | dropped => exact .found .null hi hc'
    | taken _ hj hcp =>
      obtain rfl : _ = _ := by simpa [hi] using hj
      obtain rfl := Option.some.inj (hc'.symm.trans hcp)
      exact .held (hw'.live _ _ (Lib.Conf.cached_mem hcp))

theorem Renews.sole {q : ℕ} (h : Renews κ w w') (hd : w.Drawable κ) (hw' : Sound w') (hl : Looks w w') (hs : w.Sole κ q) :
    w'.Sole κ q where
  borne := by
    obtain ⟨i, p, hst, hc, hb⟩ := hs.borne
    exact ⟨i, p, by rwa [hl.stored], h.cached _ _ _ hc, h.bears hw' hl (hd.sound.live _ p (Lib.Conf.cached_mem hc)) hb⟩
  alone e a' d' x' text hk hled hq hx := by
    obtain ⟨y, hk₀, hren, hseen⟩ := h.kept_back hd.sound hk
    obtain ⟨a, rfl, -, hr⟩ := hren.account
    obtain ⟨x, hled₀, hren', -⟩ := h.leads_back hd.sound hr (hd.legible.account e a hk₀).held hled
    have hfirm := h.firm_of_seen (f := .additionalInfo) hseen rfl rfl
    refine h.denotes hw' hl hr hfirm (hs.alone e a d' x text hk₀ hled₀ ?_ ?_)
    · rwa [hl.curatorText (hs.alive hd.sound)] at hq
    · rw [← hx, ← Fields.curatorText_bare x, ← Fields.curatorText_bare x', hren'.bare]

theorem Asked.sole {q : ℕ} (h : Asked κ w w') (hd : w.Drawable κ) (hs : w.Sole κ q) : w'.Sole κ q :=
  (h.induct (P := fun w => w.Sole κ q) (fun _ _ hd hw' hl hr => hr.sole hd hw' hl) hd hs).2

/-- The chosen entry of the box is a teacher's, or the first. -/
structure AdminWindow.Picks (win : AdminWindow) (curator : Option ℕ) : Prop where
  chosen : win.chosen = curator
  first : curator = none → win.curatorComboBox.currentIndex = some 0

/-- The box shows the curator of a group that is opened, if no other teacher has the curator's text. -/
theorem picks_of_setGroup {curator : Option ℕ} {win win' : AdminWindow} (h : w.Drawable κ) (ho : w.Opens κ grp curator)
    (hs : ∀ q, curator = some q → w.Sole κ q ∧ w.curatorText q ≠ some "None")
    (hr : run (win.setGroup (some grp)) w = .ok (win', w')) : win'.Picks curator := by
  obtain ⟨win₁, w₁, hr₁, ha, hin, hmem⟩ := h.draws_setGroup win ho
  obtain ⟨rfl, rfl⟩ := Prod.mk.inj (Except.ok.inj (hr.symm.trans hr₁))
  obtain ⟨names, hn, hnull, hp⟩ := (preset_of_setGroup h.sound hr).names
  have href := (ha.opens h ho).refOf
  obtain ⟨b, g, -, -, -, hset, -⟩ := ha.opens h ho
  cases curator with
  | none =>
    have hidx : win'.curatorComboBox.currentIndex = some 0 := by
      rw [hnull href, ComboBox.currentIndex_ofNames]
    exact ⟨if_pos hidx, fun _ => hidx⟩
  | some q =>
    obtain ⟨hsole, hnone⟩ := hs q rfl
    have hsole' := ha.sole h hsole
    have hq := hsole.alive h.sound
    have ht : w'.curatorText q = w.curatorText q := ha.looks.curatorText hq
    cases hset with
    | @some _ text hq' htext =>
      have hcurs : q ∈ win'.allCurators := by
        obtain ⟨i, p, hst, hc, hb⟩ := hsole.borne
        exact hmem i p q hst hc hb (by rw [← ht, htext, Option.isSome_some])
      have hclear : CuratorClear w' win'.allCurators q := by
        obtain ⟨l₁, l₂, hl, hnot⟩ := List.eq_append_cons_of_mem hcurs
        refine ⟨ht ▸ hnone, l₁, l₂, hl, fun r hr' he => hnot ?_⟩
        -- a teacher in the box with the curator's text is the curator
        obtain ⟨⟨c, y, hgr, hc⟩, p, hp', hpr⟩ := hin r (by simp [hl, hr'])
        obtain ⟨bp, a, hgp, -, hk⟩ := (ha.drawable h).account hp'
        rw [refOf_of_get hgp] at hpr
        have hv : a.additionalInfo = .to r := Option.some.inj hpr
        have hy : y.curatorText = some text := by
          rw [htext] at he
          simpa [Lib.Conf.curatorText, hgr] using he
        have hden := hsole'.alone _ a c.doc y text hk (hv ▸ .held hgr hc) htext hy
        rw [hv] at hden
        cases hden with
        | held => exact hr'
        | found h => exact absurd ⟨c, y, hgr, hc⟩ h.not_alive
      obtain ⟨hidx, hat⟩ := ((preset_of_setGroup h.sound hr).entry_iff href hcurs).mpr hclear
      exact ⟨(if_neg hidx).trans (run_curatorAt_iff.mp hat), fun he => by cases he⟩

end Cbt
