import Cbt.Windows.Regrouping

/-! What `UpdateGroup` saves. The command changes the selected group in memory and
redraws the screen, and no document is written; so the stored document has what
the form shows afterwards only when it had it before. A curator that is cleared is
loaded again from the group's own document, one that no longer exists is let go of,
and the box shows the first teacher with the curator's text. -/

namespace Cbt

open Lib.Command (run_bind_iff run_pure_iff run_fault_iff)

variable {κ : Oid → Option DBClass} {w w' : World}

/-- A group's document has a name and a curator, or none. -/
structure Doc.Says (d : Doc) (name : String) (curator : Option Oid) : Prop where
  name : d.get? "Name" = some (.string name)
  curator : ∀ o, d.get? "Curator" = some (.oid o) ↔ curator = some o

/-- The screen shows a name and a curator of a group, or none: in the field of the name, by the group's pointer and in the
box of curators, where the entry is read back as the same teacher. -/
structure Shows (w : World) (win : AdminWindow) (grp : ℕ) (name : String) (curator : Option ℕ) : Prop where
  text : win.groupNameEdit = name
  pointer : w.refOf grp .curator = some (.ofOption curator)
  box : win.Picks curator

/-- The group is saved as the form showed it: its document has the name and the curator and the members it had, no
other document changed, and the group is shown so, now and when it is opened again. Without a curator there is none
in the document the group keeps either, where the getter looks when the pointer is null. -/
structure GroupSaved (w : World) (win : AdminWindow) (grp : ℕ) (i : Oid) (win' : AdminWindow) (w' : World) : Prop where
  stored : ∃ d d', w.stored .groups i = some d ∧ w'.stored .groups i = some d' ∧
    d'.Says win.groupNameEdit (win.chosen.bind w.idOf) ∧ d'.get? "Members" = d.get? "Members"
  others : ∀ k o, k ≠ .groups ∨ o ≠ i → w'.stored k o = w.stored k o
  cleared : win.chosen = none → w'.docRef grp "Curator" = none
  shown : Shows w' win' grp win.groupNameEdit win.chosen
  reopened : ∃ win₂ w₂, run (win'.setGroup (some grp)) w' = .ok (win₂, w₂) ∧ Shows w₂ win₂ grp win.groupNameEdit win.chosen

/-- The command completes and saves the group. -/
def SavesGroup (w : World) (win : AdminWindow) (grp : ℕ) (i : Oid) : Prop :=
  ∃ win' w', run win.updateGroup w = .ok (win', w') ∧ GroupSaved w win grp i win' w'

/-- The documents have the form's name and curator already, the name is shown whole, the first entry is chosen for none, and
a teacher that is chosen exists and has another text. -/
structure GroupOnFile (w : World) (win : AdminWindow) (b : IFromDB) : Prop where
  stored : ∃ d, w.stored .groups b.id = some d ∧ d.Says win.groupNameEdit (win.chosen.bind w.idOf)
  whole : cStr win.groupNameEdit = win.groupNameEdit
  first : win.chosen = none → win.curatorComboBox.currentIndex = some 0
  cleared : win.chosen = none → ∃ u, b.doc.get? "Curator" = some u ∧ u.oid? = none
  curator : ∀ q, win.chosen = some q → w.Alive q ∧ ∃ text, w.curatorText q = some text ∧ text ≠ "None"

/-! ### Redrawing -/

/-- `SetGroup` shows the group's name, and its curator is not one that no longer exists. -/
theorem setGroup_shows {win win' : AdminWindow} {grp : ℕ} {name : String} (hw : Sound w) (hg : w.Alive grp)
    (hn : w.groupName grp = some name) (h : run (win.setGroup (some grp)) w = .ok (win', w')) :
    win'.groupNameEdit = cStr name ∧
      ∀ q, ¬ w.Alive q → q < w.heap.next → w'.refOf grp .curator ≠ some (.to q) := by
  have hl := (views_setGroup win (some grp)).looks hw h
  simp only [AdminWindow.setGroup, AdminWindow.showGroup, run_bind_iff, run_groupOf_iff, run_pure_iff] at h
  obtain ⟨accs, w₁, h₁, rows, w₂, h₂, all, w₃, h₃, curs, w₄, h₄, names, _, h₅, box, w₅, h₆, g, _, ⟨⟨c, hget⟩, rfl⟩, rfl,
    rfl⟩ := h
  have hw₁ := (views_groupedAccounts (some grp)).looks hw h₁ |>.sound hw
  have hw₂ := (views_updateTable accs).looks hw₁ h₂ |>.sound hw₁
  have hw₃ := (views_getAll .accounts).looks hw₂ h₃ |>.sound hw₂
  have hw₄ := (views_curators all).looks hw₃ h₄ |>.sound hw₃
  obtain ⟨rfl, -⟩ := run_curatorNames h₅
  have hname := hl.groupName hg
  rw [hn, groupName_of_get hget, Option.some.injEq] at hname
  refine ⟨by rw [hname], fun q hq hlt => ?_⟩
  rcases run_chooseCurator hw₄ h₆ with ⟨hr, -⟩ | ⟨p, text, hr, hp, -⟩
  · rw [hr]
    simp
  · rw [hr]
    rintro he
    obtain rfl : p = q := by simpa using he
    exact hl.dead hq hlt hp

/-- The redraw of the group screen opens the group and goes on asking. -/
theorem run_updateGroupsScrean {win win' : AdminWindow} {grp : ℕ} (h : run (win.updateGroupsScrean (some grp)) w = .ok (win', w')) :
    ∃ w₁, run (win.setGroup (some grp)) w = .ok (win', w₁) ∧ Watches w₁ w' := by
  simp only [AdminWindow.updateGroupsScrean, run_bind_iff, run_pure_iff] at h
  obtain ⟨win₁, w₁, h₁, accs, w₂, h₂, _, w₃, h₃, accs', w₄, h₄, _, w₅, h₅, _, w₆, h₆, rfl, rfl⟩ := h
  exact ⟨w₁, h₁, (((((views_groupedAccounts (some grp) _ _ _ h₂).trans
    (views_updateTable accs _ _ _ h₃)).trans (views_ungroupedAccounts _ _ _ h₄)).trans
      (views_updateTable accs' _ _ _ h₅))).trans (views_groupsTable _ _ _ h₆)⟩

/-- A null member is looked for in the document. -/
theorem GotBy.key {g : Getter} {p : ℕ} {r : Option ℕ} {b : IFromDB} {x : Fields} (h : GotBy w g p r w')
    (hp : w.heap.get p = some ⟨some b, x⟩) (hn : x.ref g.field = some .null) : ∃ u, b.doc.get? g.key = some u := by
  cases h with
  | settled ho hv =>
    obtain rfl := Option.some.inj (hp.symm.trans ho)
    rw [hn] at hv
    cases hv
  | absent ho _ hv | missed ho _ hv | loaded ho _ hv =>
    obtain ⟨rfl, -⟩ : b = _ ∧ x = _ := by simpa [hp] using ho
    exact ⟨_, hv⟩

/-- So a group without a curator that is opened has the key in its document. -/
theorem setGroup_key {win win' : AdminWindow} {grp : ℕ} {b : IFromDB} {x : Group} (hw : Sound w)
    (hget : w.heap.get grp = some ⟨some b, .group x⟩) (hs : w.SettledAt grp .curator .null)
    (h : run (win.setGroup (some grp)) w = .ok (win', w')) : ∃ u, b.doc.get? "Curator" = some u := by
  simp only [AdminWindow.setGroup, AdminWindow.showGroup, AdminWindow.chooseCurator, run_bind_iff] at h
  obtain ⟨accs, w₁, h₁, rows, w₂, h₂, all, w₃, h₃, curs, _, h₄, names, w₄, h₅, box, w₅, ⟨r, w₆, h₆, -⟩, -⟩ := h
  obtain ⟨rfl, -⟩ := run_curatorNames h₅
  have hwatch : Watches w w₄ := (((views_groupedAccounts (some grp) _ _ _ h₁).trans (views_updateTable accs _ _ _ h₂)).trans
    (views_getAll .accounts _ _ _ h₃)).trans (views_curators all _ _ _ h₄)
  have hl := Watches.looks hwatch hw
  obtain ⟨⟨b₀, x₀, hg₀, hb⟩, href, -⟩ := hwatch.settledAt hw (by decide) hs
  obtain ⟨⟨b₁, x₁, hg₁, hb₁⟩, -, -⟩ := hs
  obtain ⟨rfl, -⟩ : b = b₁ ∧ _ = x₁ := by simpa [hget] using hg₁
  obtain ⟨b', x', hg', hcore, -⟩ := hl.kept hget hb₁
  obtain ⟨rfl, rfl⟩ : b₀ = b' ∧ x₀ = x' := by simpa [hg₀] using hg'
  rw [refOf_of_get hg₀] at href
  simp only [IFromDB.core, Prod.mk.injEq] at hcore
  rw [← hcore.2.1]
  exact (run_getter (g := .getCurator) (hl.sound hw) h₆).key hg₀ href

/-! ### The command -/

/-- The walk to an entry of the box of curators, other than the first. -/
theorem run_curatorAt {win : AdminWindow} {cur : ℕ} (hidx : win.curatorComboBox.currentIndex ≠ some 0)
    (h : run win.curatorAt w = .ok (cur, w')) : win.chosen = some cur ∧ w' = w := by
  unfold AdminWindow.curatorAt at h
  unfold AdminWindow.chosen
  rw [if_neg hidx]
  split at h
  · exact ((run_fault_iff _).mp h).elim
  · rename_i hs
    obtain ⟨rfl, rfl⟩ := (run_pure_iff _).mp h
    exact ⟨hs, rfl⟩

/-- The entry of the box that is chosen can be read: it is the first one, or a teacher's. -/
structure AdminWindow.Chooses (win : AdminWindow) (w : World) : Prop where
  first : win.chosen = none → win.curatorComboBox.currentIndex = some 0
  curator : ∀ q, win.chosen = some q → ∃ c t, w.heap.get q = some ⟨some c, .teacher t⟩

/-- The state in which `UpdateGroup` redraws the screen: the group has the form's name and curator, and the curator is
counted. -/
def Lib.Conf.renamed (w : World) (win : AdminWindow) (grp : ℕ) (b : IFromDB) (x : Group) : World :=
  let w₁ := w.put grp ⟨some b, .group { x with name := win.groupNameEdit, curator := .ofOption win.chosen }⟩
  match win.chosen.bind fun q => (w.heap.get q).bind fun o => o.fromDB.map fun c => (q, c, o.fields) with
  | none => w₁
  | some (q, c, y) => w₁.put q ⟨some (c.own 1), y⟩

section Renamed
variable {win : AdminWindow} {grp : ℕ} {b : IFromDB} {x : Group}

theorem renamed_of_none (h : win.chosen = none) : w.renamed win grp b x =
    w.put grp ⟨some b, .group { x with name := win.groupNameEdit, curator := .null }⟩ := by
  simp [Lib.Conf.renamed, h, Pointer.ofOption]

theorem renamed_of_some {q : ℕ} {c : IFromDB} {y : Fields} (h : win.chosen = some q) (hq : w.heap.get q = some ⟨some c, y⟩) :
    w.renamed win grp b x = (w.put grp ⟨some b, .group { x with name := win.groupNameEdit, curator := .to q }⟩).put q
      ⟨some (c.own 1), y⟩ := by
  simp [Lib.Conf.renamed, h, hq, Pointer.ofOption]

/-- A teacher is not the group that is updated. -/
theorem AdminWindow.Chooses.ne {q : ℕ} (hc : win.Chooses w) (hget : w.heap.get grp = some ⟨some b, .group x⟩)
    (hq : win.chosen = some q) : q ≠ grp := by
  rintro rfl
  obtain ⟨c, t, ht⟩ := hc.curator q hq
  rw [hget] at ht
  cases ht

theorem run_rename_iff (hget : w.heap.get grp = some ⟨some b, .group x⟩) {name : String} {u : Unit} :
    run (assignScalar (.name name) grp) w = .ok (u, w') ↔ w' = w.put grp ⟨some b, .group { x with name }⟩ := by
  simp only [assignScalar, run_bind_iff, run_obj_iff]
  constructor
  · rintro ⟨o, _, ⟨ho, rfl⟩, h⟩
    obtain rfl := Option.some.inj (hget.symm.trans ho)
    exact (run_setObj_iff.mp h).symm
  · rintro rfl
    exact ⟨_, w, ⟨hget, rfl⟩, run_setObj_iff.mpr rfl⟩

/-- The curator is cleared after the group has its new name. -/
theorem run_clearCurator_iff (hget : w.heap.get grp = some ⟨some b, .group x⟩) (hch : win.chosen = none) {u : Unit} :
    run (Group.setCurator grp none) (w.put grp ⟨some b, .group { x with name := win.groupNameEdit }⟩) = .ok (u, w') ↔
      w' = w.renamed win grp b x := by
  have hget₁ : (w.put grp ⟨some b, .group { x with name := win.groupNameEdit }⟩).heap.get grp =
      some ⟨some b, .group { x with name := win.groupNameEdit }⟩ := by rw [Lib.Conf.get_put hget, if_pos rfl]
  rw [Group.setCurator, run_setRef_none_iff, renamed_of_none hch]
  constructor
  · rintro ⟨o, v, ho, -, rfl⟩
    obtain rfl := Option.some.inj (hget₁.symm.trans ho)
    exact put_put grp _ _
  · rintro rfl
    exact ⟨_, _, hget₁, rfl, put_put grp _ _⟩

/-- The chosen curator is set, if it is a teacher. -/
theorem run_setChosen_iff (hget : w.heap.get grp = some ⟨some b, .group x⟩) {cur : ℕ} (hch : win.chosen = some cur) {u : Unit} :
    run (Group.setCurator grp (some cur)) (w.put grp ⟨some b, .group { x with name := win.groupNameEdit }⟩) = .ok (u, w') ↔
      (∃ c t, w.heap.get cur = some ⟨some c, .teacher t⟩) ∧ w' = w.renamed win grp b x := by
  have hget₁ : ∀ q, (w.put grp ⟨some b, .group { x with name := win.groupNameEdit }⟩).heap.get q =
      if q = grp then some ⟨some b, .group { x with name := win.groupNameEdit }⟩ else w.heap.get q := Lib.Conf.get_put hget
  have hgrp := (hget₁ grp).trans (if_pos rfl)
  rw [Group.setCurator, run_setRef_some_iff]
  constructor
  · rintro ⟨o, v, oq, bq, xq, ho, -, hq, hadm, hbq, rfl⟩
    obtain rfl := Option.some.inj (hgrp.symm.trans ho)
    have hne : cur ≠ grp := by
      rintro rfl
      obtain rfl := Option.some.inj (hgrp.symm.trans hq)
      cases hadm
    rw [Lib.Conf.get_put hgrp, if_neg hne] at hbq
    obtain rfl := Option.some.inj (hq.symm.trans hbq)
    rw [hget₁, if_neg hne] at hbq
    refine ⟨?_, ?_⟩
    · cases xq <;> first | exact ⟨_, _, hbq⟩ | cases hadm
    · rw [renamed_of_some hch hbq, put_put]
      rfl
  · rintro ⟨⟨c, t, hq⟩, rfl⟩
    have hne : cur ≠ grp := by
      rintro rfl
      simp [hget] at hq
    have hq₁ := ((hget₁ cur).trans (if_neg hne)).trans hq
    refine ⟨_, _, _, c, .teacher t, hgrp, rfl, hq₁, rfl, by rw [Lib.Conf.get_put hgrp, if_neg hne, hq₁], ?_⟩
    rw [renamed_of_some hch hq, put_put]
    rfl

theorem run_updateGroup_iff {r : AdminWindow × World} (hg : win.group = some grp)
    (hget : w.heap.get grp = some ⟨some b, .group x⟩) : run win.updateGroup w = .ok r ↔
      win.Chooses w ∧ run (win.updateGroupsScrean (some grp)) (w.renamed win grp b x) = .ok r := by
  obtain ⟨win', w'⟩ := r
  simp only [AdminWindow.updateGroup, hg, run_bind_iff, run_rename_iff hget]
  by_cases hidx : win.curatorComboBox.currentIndex = some 0
  · have hch : win.chosen = none := if_pos hidx
    simp only [hidx, ne_eq, not_true, if_false, run_bind_iff]
    constructor
    · rintro ⟨_, _, rfl, _, _, h₂, h⟩
      obtain rfl := (run_clearCurator_iff hget hch).mp h₂
      exact ⟨⟨fun _ => hidx, fun q hq => by simp [hch] at hq⟩, h⟩
    · rintro ⟨-, h⟩
      exact ⟨(), _, rfl, (), _, (run_clearCurator_iff hget hch).mpr rfl, h⟩
  · simp only [hidx, ne_eq, not_false_eq_true, if_true, run_bind_iff]
    constructor
    · rintro ⟨_, _, rfl, cur, _, h₁, _, _, h₂, h⟩
      obtain ⟨hch, rfl⟩ := run_curatorAt hidx h₁
      obtain ⟨hq, rfl⟩ := (run_setChosen_iff hget hch).mp h₂
      refine ⟨⟨fun hnone => by simp [hch] at hnone, fun q hq' => ?_⟩, h⟩
      obtain rfl := Option.some.inj (hch.symm.trans hq')
      exact hq
    · rintro ⟨hc, h⟩
      cases hch : win.chosen with
      | none => exact absurd (hc.first hch) hidx
      | some cur =>
        have hat := hch
        rw [AdminWindow.chosen, if_neg hidx] at hat
        exact ⟨(), _, rfl, cur, _, run_curatorAt_iff.mpr hat, (), _, (run_setChosen_iff hget hch).mpr ⟨hc.curator cur hch, rfl⟩, h⟩

theorem cash_renamed : (w.renamed win grp b x).cash = w.cash := by
  unfold Lib.Conf.renamed
  split <;> rfl

theorem env_renamed : (w.renamed win grp b x).env = w.env := by
  unfold Lib.Conf.renamed
  split <;> rfl

/-- The other entities are as they were, but for the count of the curator. -/
theorem regroups_renamed (hget : w.heap.get grp = some ⟨some b, .group x⟩) (hc : win.Chooses w) :
    Regroups w (w.renamed win grp b x) := by
  cases hch : win.chosen with
  | none =>
    rw [renamed_of_none hch]
    exact .put hget rfl (.inr ⟨rfl, rfl⟩)
  | some q =>
    obtain ⟨c, t, hq⟩ := hc.curator q hch
    rw [renamed_of_some hch hq]
    refine .trans (.put hget rfl (.inr ⟨rfl, rfl⟩)) (.put (b := c) (x := .teacher t) ?_ (IFromDB.core_own c 1) (.inl rfl))
    rw [Lib.Conf.get_put hget, if_neg (hc.ne hget hch), hq]

theorem get_renamed (hget : w.heap.get grp = some ⟨some b, .group x⟩) (hc : win.Chooses w) : (w.renamed win grp b x).heap.get grp =
    some ⟨some b, .group { x with name := win.groupNameEdit, curator := .ofOption win.chosen }⟩ := by
  cases hch : win.chosen with
  | none =>
    rw [renamed_of_none hch, Lib.Conf.get_put hget, if_pos rfl]
    rfl
  | some q =>
    obtain ⟨c, t, hq⟩ := hc.curator q hch
    have hne := hc.ne hget hch
    rw [renamed_of_some hch hq, Lib.Conf.get_put (by rw [Lib.Conf.get_put hget, if_neg hne, hq]), if_neg hne.symm,
      Lib.Conf.get_put hget, if_pos rfl]
    rfl

/-- A curator that exists needs to outlive nobody. -/
theorem outlives_renamed (hget : w.heap.get grp = some ⟨some b, .group x⟩) (hc : win.Chooses w)
    (hq : ∀ q, win.chosen = some q → w.Alive q) (h : w.Outlives) : (w.renamed win grp b x).Outlives := by
  cases hch : win.chosen with
  | none =>
    rw [renamed_of_none hch]
    exact outlives_put h hget rfl fun _ => rfl
  | some q =>
    obtain ⟨c, t, hq₀⟩ := hc.curator q hch
    obtain ⟨c₁, y₁, hq₁, hc₁⟩ := hq q hch
    obtain ⟨rfl, -⟩ : c = c₁ ∧ _ = y₁ := by simpa [hq₀] using hq₁
    rw [renamed_of_some hch hq₀]
    have h₁ : (w.put grp ⟨some b, .group { x with name := win.groupNameEdit, curator := .to q }⟩).Outlives :=
      outlives_put h hget rfl fun _ => rfl
    refine outlives_put h₁ (b := c) (x := .teacher t) ?_ rfl fun hdead => ?_
    · rw [Lib.Conf.get_put hget, if_neg (hc.ne hget hch), hq₀]
    · simp [IFromDB.own, hc₁] at hdead

/-- What is saved is on file already. -/
theorem onFile_of_saves (hw : Sound w) (hg : win.group = some grp) (hget : w.heap.get grp = some ⟨some b, .group x⟩)
    (hb : b.isExist = true) (h : SavesGroup w win grp b.id) : GroupOnFile w win b := by
  obtain ⟨win', w', h, hS⟩ := h
  obtain ⟨hch, hs⟩ := (run_updateGroup_iff hg hget).mp h
  have hreg := regroups_renamed hget hch
  have hw₂ := hreg.sound hw (by rw [cash_renamed])
  have hget₂ := get_renamed hget hch
  have halive : (w.renamed win grp b x).Alive grp := ⟨b, _, hget₂, hb⟩
  obtain ⟨w₁, h₁, hrest⟩ := run_updateGroupsScrean hs
  have hl₁ := (views_setGroup win (some grp)).looks hw₂ h₁
  have hw₁ := hl₁.sound hw₂
  have hl : Looks (w.renamed win grp b x) w' := hl₁.trans (Watches.looks hrest hw₁)
  obtain ⟨hshown, hdead⟩ := setGroup_shows hw₂ halive (groupName_of_get hget₂) h₁
  obtain ⟨d, d', hd, hd', htext, -⟩ := hS.stored
  have hstored : w'.stored = w.stored := by
    rw [hl.stored]
    unfold Lib.Conf.stored
    rw [env_renamed]
  rw [hstored] at hd'
  refine ⟨⟨d', hd', htext⟩, hshown.symm.trans hS.shown.text, hch.first, fun hnone => ?_, fun q hq => ?_⟩
  · -- the getter looks for the key of a curator that is cleared
    have hdoc : b.doc.get? "Curator" >>= Bson.oid? = none := by
      obtain ⟨b', x', hget', hcore, -⟩ := hl.kept hget₂ hb
      rw [← hS.cleared hnone, docRef_of_kept hget₂ hget' hcore, docRef_of_get hget₂]
      rfl
    have hset : (w.renamed win grp b x).SettledAt grp .curator .null := by
      refine ⟨halive, by rw [refOf_of_get hget₂, hnone]; rfl, .inr ⟨rfl, ?_⟩⟩
      rw [docRef_of_get hget₂]
      exact hdoc
    obtain ⟨u, hu⟩ := setGroup_key hw₂ hget₂ hset h₁
    exact ⟨u, hu, by rwa [hu] at hdoc⟩
  · obtain ⟨c, t, hq₀⟩ := hch.curator q hq
    have hlt := Lib.Heap.lt_next hq₀
    have hqa : w.Alive q := by
      by_contra hnot
      have hne := hrest.ne_dead hw₁ (hl₁.alive halive) (hl₁.dead (fun ha => hnot (hreg.alive_back hlt ha)) (hlt.trans_le hreg.next_le))
        ((hlt.trans_le hreg.next_le).trans_le hl₁.next_le)
        (hdead q (fun ha => hnot (hreg.alive_back hlt ha)) (hlt.trans_le hreg.next_le))
      refine hne ?_
      rw [hS.shown.pointer, hq]
      rfl
    refine ⟨hqa, _, curatorText_of_get hq₀, fun hnone => ?_⟩
    -- the entry with the text of the first one is not shown
    have hset : (w.renamed win grp b x).SettledAt grp .curator (.to q) :=
      ⟨halive, by rw [refOf_of_get hget₂, hq]; rfl, .inl ⟨q, rfl, hreg.alive hqa⟩⟩
    have hset₁ := Watches.settledAt (views_setGroup win (some grp) _ _ _ h₁) hw₂ (by decide) hset
    have hpick := hS.shown.box.chosen
    rw [hq, AdminWindow.chosen] at hpick
    split_ifs at hpick with hidx
    have hclear := ((preset_of_setGroup hw₂ h₁).entry_iff hset₁.2.1 (List.mem_of_getElem? hpick)).mp
      ⟨hidx, run_curatorAt_iff.mpr hpick⟩
    refine hclear.1 ?_
    rw [hl₁.curatorText (hreg.alive hqa), hreg.curatorText hqa, curatorText_of_get hq₀, hnone]

/-- What is on file is saved, when the screen can be drawn and no other teacher has the text of the one that is chosen. -/
theorem saves_of_onFile (hd : w.Drawable κ) (hr : w.Roster κ b.doc) (hs : ∀ q, win.chosen = some q → w.Sole κ q)
    (hg : win.group = some grp) (hget : w.heap.get grp = some ⟨some b, .group x⟩) (hb : b.isExist = true)
    (hF : GroupOnFile w win b) : SavesGroup w win grp b.id := by
  have hch : win.Chooses w := ⟨hF.first, fun q hq => by
    obtain ⟨⟨c, y, hq₀, -⟩, text, ht, -⟩ := hF.curator q hq
    obtain ⟨c', t, hq₁⟩ := teacher_of_curatorText ht
    obtain ⟨rfl, rfl⟩ : some c = c' ∧ y = .teacher t := by simpa [hq₀] using hq₁
    exact ⟨c, t, hq₀⟩⟩
  have hreg := regroups_renamed hget hch
  have hget₂ := get_renamed hget hch
  set w₂ := w.renamed win grp b x with hw₂
  have hd₂ : w₂.Drawable κ := ⟨hreg.sound hd.sound (by rw [hw₂, cash_renamed]),
    hreg.legible hd.sound (outlives_renamed hget hch (fun q hq => (hF.curator q hq).1) hd.legible.outlives) hd.legible⟩
  have hopen : w₂.Opens κ grp win.chosen := by
    refine ⟨b, _, hget₂, hb, rfl, ?_, hreg.roster hd.sound hr⟩
    cases hc : win.chosen with
    | none =>
      obtain ⟨u, hu, hi⟩ := hF.cleared hc
      exact .none hu hi
    | some q =>
      obtain ⟨hq, text, ht, -⟩ := hF.curator q hc
      exact .some (hreg.alive hq) ((hreg.curatorText hq).trans ht)
  have hsole : ∀ q, win.chosen = some q → w₂.Sole κ q ∧ w₂.curatorText q ≠ some "None" := fun q hq => by
    obtain ⟨ha, text, ht, hne⟩ := hF.curator q hq
    refine ⟨hreg.sole hd (hs q hq), ?_⟩
    rw [hreg.curatorText ha, ht]
    simpa using hne
  -- the group is shown by each redraw that opens it
  have hshows : ∀ {win₁ win₂ : AdminWindow} {w₃ w₄ : World}, Asked κ w₂ w₃ → run (win₁.setGroup (some grp)) w₃ = .ok (win₂, w₄) →
      Shows w₄ win₂ grp win.groupNameEdit win.chosen := by
    intro win₁ win₂ w₃ w₄ ha h
    have hd₃ := ha.drawable hd₂
    have hopen₃ := ha.opens hd₂ hopen
    obtain ⟨win₂', w₄', h', ha', -⟩ := hd₃.draws_setGroup win₁ hopen₃
    obtain ⟨rfl, rfl⟩ := Prod.mk.inj (Except.ok.inj (h.symm.trans h'))
    have hname := (setGroup_shows hd₃.sound (ha.looks.alive ⟨b, _, hget₂, hb⟩)
      ((ha.looks.groupName ⟨b, _, hget₂, hb⟩).trans (groupName_of_get hget₂)) h).1
    refine ⟨hname.trans hF.whole, (ha'.opens hd₃ hopen₃).refOf, picks_of_setGroup hd₃ hopen₃ (fun q hq => ?_) h⟩
    obtain ⟨hsq, hne⟩ := hsole q hq
    exact ⟨ha.sole hd₂ hsq, by rwa [ha.looks.curatorText (hsq.alive hd₂.sound)]⟩
  obtain ⟨win', w', hrun, ha, -⟩ := hd₂.draws_updateGroupsScrean win hopen
  obtain ⟨w₁, h₁, hrest⟩ := run_updateGroupsScrean hrun
  obtain ⟨win₂, w₃, h₃, -⟩ := (ha.drawable hd₂).draws_setGroup win' (ha.opens hd₂ hopen)
  have hstored : w'.stored = w.stored := by
    rw [ha.looks.stored]
    unfold Lib.Conf.stored
    rw [hw₂, env_renamed]
  obtain ⟨d, hds, htext⟩ := hF.stored
  refine ⟨win', w', (run_updateGroup_iff hg hget).mpr ⟨hch, hrun⟩, ⟨d, d, hds, by rw [hstored, hds], htext, rfl⟩,
    fun k o _ => by rw [hstored], fun hc => ?_, ?_, win₂, w₃, h₃, hshows ha h₃⟩
  · obtain ⟨u, hu, hi⟩ := hF.cleared hc
    obtain ⟨b', x', hget', hcore, -⟩ := ha.looks.kept hget₂ hb
    rw [docRef_of_kept hget₂ hget' hcore, docRef_of_get hget₂, hu]
    exact hi
  · obtain ⟨htext, -, hbox⟩ := hshows .refl h₁
    exact ⟨htext, (ha.opens hd₂ hopen).refOf, hbox⟩

end Renamed

/-! ### Every state -/

/-- In every state, the command completes and saves what the form shows only when that is on file already; and then it
does when the accounts, the infos they name, the groups and the group's members can be read, and the chosen teacher is
the info of a listed account and the only one with its text. -/
theorem groupSaved_iff {c : Client} (hc : c.Reachable) {grp : ℕ} {b : IFromDB} {x : Group} (hg : c.win.group = some grp)
    (hget : c.world.heap.get grp = some ⟨some b, .group x⟩) (hb : b.isExist = true) :
    (SavesGroup c.world c.win grp b.id → GroupOnFile c.world c.win b) ∧
      ∀ κ, c.world.Legible κ → c.world.Roster κ b.doc → (∀ q, c.win.chosen = some q → c.world.Sole κ q) →
        (SavesGroup c.world c.win grp b.id ↔ GroupOnFile c.world c.win b) := by
  have hsaves := onFile_of_saves hc.sound hg hget hb
  exact ⟨hsaves, fun κ hl hr hs => ⟨hsaves, saves_of_onFile ⟨hc.sound, hl⟩ hr hs hg hget hb⟩⟩

/-- A form that shows what is on file is saved, with the second of two teachers chosen. -/
theorem groupSaved_of_unchanged : ∃ (c : Client) (b : IFromDB), c.win.group = some 0 ∧ c.win.allCurators = [4, 5] ∧
    c.win.chosen = some 5 ∧ SavesGroup c.world c.win 0 b.id := by
  have hplay : (Client.play [.call (.getAll .groups), .slot (.setGroup (some 0))] (Client.start twoCurators .null)).any
      (fun c => c.win.group = some 0 ∧ c.win.allCurators = [4, 5] ∧ c.win.chosen = some 5 ∧ c.win.groupNameEdit = "one" ∧
        c.world.idOf 5 = some 1 ∧ c.world.curatorText 5 = some "second teacher" ∧ c.world.isSole 5 = true ∧
        (c.world.heap.get 0).any (fun o => o.fromDB.any (fun b => b.isExist ∧ b.id = 4 ∧ b.doc.get? "Members" = some nullValue) ∧
          o.fields.kind = .groups) ∧
        (c.world.stored .groups 4).any (fun d => d.get? "Name" = some (.string "one") ∧ d.get? "Curator" = some (.oid 1)))
      = true := by decide +kernel
  obtain ⟨c, hc, h⟩ := Option.any_eq_true .. |>.mp hplay
  obtain ⟨hg, hcurs, hch, hname, hid, htext, hsole, hgrp, hd⟩ := of_decide_eq_true h
  obtain ⟨⟨c₀, x⟩, hget, ho⟩ := Option.any_eq_true .. |>.mp hgrp
  obtain ⟨hh, hk⟩ := of_decide_eq_true ho
  obtain ⟨b, rfl, hh⟩ := Option.any_eq_true .. |>.mp hh
  obtain ⟨hb, hi, hm⟩ : b.isExist = true ∧ b.id = 4 ∧ b.doc.get? "Members" = some nullValue := of_decide_eq_true hh
  obtain ⟨d, hd, htexts⟩ := Option.any_eq_true .. |>.mp hd
  obtain ⟨hdn, hdc⟩ := of_decide_eq_true htexts
  have hs : c.world.Sole (fun _ => none) 5 := sole_of_isSole hsole
  have hl : c.world.isLoaded = true := by
    simp only [Lib.Conf.isSole, Bool.and_eq_true] at hsole
    exact hsole.1.1.1
  cases x with
  | group x =>
    refine ⟨c, b, hg, hcurs, hch, ?_⟩
    have hr : c.world.Roster (fun _ => none) b.doc := ⟨⟨_, hm⟩, fun vs hv => by simp [hm, nullValue] at hv⟩
    refine ((groupSaved_iff ⟨_, _, _, Client.run_of_play hc⟩ hg hget hb).2 _ (legible_of_isLoaded hl) hr fun q hq => ?_).mpr
      ⟨⟨d, hi ▸ hd, ?_, ?_⟩, ?_, ?_, ?_, ?_⟩
    · obtain rfl : 5 = q := by simpa [hch] using hq
      exact hs
    · rw [hname, hdn]
    · intro o
      simp [hdc, hch, hid, eq_comm]
    · rw [hname]
      decide
    · simp [hch]
    · simp [hch]
    · rintro q hq
      obtain rfl : 5 = q := by simpa [hch] using hq
      exact ⟨hs.alive (Client.Reachable.sound ⟨_, _, _, Client.run_of_play hc⟩), _, htext, by decide⟩
  | account | additionalInfo | student | teacher | schedule => cases hk

/-- A new name is not saved. -/
theorem not_groupSaved_always : ¬ ∀ c : Client, c.Reachable → ∀ grp b x, c.win.group = some grp →
    c.world.heap.get grp = some ⟨some b, .group x⟩ → b.isExist = true → SavesGroup c.world c.win grp b.id := by
  intro h
  have hplay : (Client.play [.call (.getAll .groups), .slot (.setGroup (some 0)), .input (.groupName "other")]
      (Client.start oneCurator .null)).any (fun c => c.win.group = some 0 ∧ c.win.groupNameEdit = "other" ∧
        (c.world.heap.get 0).any (fun o => o.fromDB.any (fun b => b.isExist ∧ b.id = 2) ∧ o.fields.kind = .groups) ∧
        (yields c.win.updateGroup c.world).any fun r =>
          (r.2.stored .groups 2).any fun d => d.get? "Name" = some (.string "name")) = true := by decide +kernel
  obtain ⟨c, hc, hp⟩ := Option.any_eq_true .. |>.mp hplay
  obtain ⟨hg, hname, hgrp, hy⟩ := of_decide_eq_true hp
  obtain ⟨⟨c₀, x⟩, hget, ho⟩ := Option.any_eq_true .. |>.mp hgrp
  obtain ⟨hh, hk⟩ := of_decide_eq_true ho
  obtain ⟨b, rfl, hh⟩ := Option.any_eq_true .. |>.mp hh
  obtain ⟨hb, hi⟩ : b.isExist = true ∧ b.id = 2 := of_decide_eq_true hh
  cases x with
  | group x =>
    obtain ⟨win', w', hrun, hS⟩ := h c ⟨_, _, _, Client.run_of_play hc⟩ 0 b x hg hget hb
    obtain ⟨_, d', -, hd', htext, -⟩ := hS.stored
    have hy' : (w'.stored .groups 2).any (fun d => d.get? "Name" = some (.string "name")) = true := by
      simpa [yields, hrun, Except.toOption] using hy
    rw [hi] at hd'
    obtain ⟨d, hd, hdn⟩ := Option.any_eq_true .. |>.mp hy'
    obtain rfl := Option.some.inj (hd.symm.trans hd')
    have := htext.name.symm.trans (of_decide_eq_true hdn)
    simp [hname] at this
  | account | additionalInfo | student | teacher | schedule => cases hk

end Cbt
