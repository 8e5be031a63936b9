import Cbt.Windows.Acts
import Cbt.Effects.Getters

/-! The entries of the combo boxes. The box of groups is read back by name, so an
entry denotes the first group listed then with its text. The box of curators is
preset by name and read back by position, so the preset entry is the first one with
the curator's text. Both name their own entity when no entity before it has the name. -/

namespace Cbt

open Lib.Command (run_bind_iff run_pure_iff run_fault_iff)

variable {w w' : World}

/-! ### Boxes -/

namespace ComboBox

@[simp] theorem items_setCurrentText (box : ComboBox) (text : String) : (box.setCurrentText text).items = box.items := by
  unfold setCurrentText
  split <;> rfl

theorem items_foldl_addItem (texts : List String) (box : ComboBox) :
    (texts.foldl addItem box).items = box.items ++ texts := by
  induction texts generalizing box with
  | nil => simp
  | cons text texts ih => simp [ih, addItem]

@[simp] theorem items_ofNames (names : List String) : (ofNames names).items = "None" :: names := by
  rw [ofNames, items_setCurrentText, items_foldl_addItem]
  rfl

theorem currentText_choose {box : ComboBox} {i : ℕ} {text : String} (h : box.items[i]? = some text) :
    (box.choose i).currentText = text := by
  obtain ⟨hi, he⟩ := List.getElem?_eq_some_iff.mp h
  simp [choose, currentText, hi, he]

/-- Presetting a text chooses its first entry. -/
theorem currentIndex_setCurrentText {box : ComboBox} {text : String} {l₁ l₂ : List String}
    (h : box.items = l₁ ++ text :: l₂) (hn : text ∉ l₁) : (box.setCurrentText text).currentIndex = some l₁.length := by
  have hi : box.items.findIdx? (· = text) = some l₁.length := by
    have hnone : l₁.findIdx? (· = text) = none := by
      rw [List.findIdx?_eq_none_iff]
      intro s hs
      simpa using fun he : s = text => hn (he ▸ hs)
    rw [h, List.findIdx?_append, hnone]
    simp [List.findIdx?_cons]
  rw [setCurrentText, hi]

@[simp] theorem currentIndex_ofNames (names : List String) : (ofNames names).currentIndex = some 0 := by
  have hitems : (("None" :: names).foldl addItem {}).items = [] ++ "None" :: names := by rw [items_foldl_addItem]
  exact currentIndex_setCurrentText hitems (by simp)

end ComboBox

/-! ### Names -/

/-- The name of a group. -/
def Fields.groupName : Fields → Option String
  | .group g => some g.name
  | _ => none

/-- The text of a teacher in the box of curators. -/
def Fields.curatorText : Fields → Option String
  | .teacher t => some (cStr (t.firstName ++ " " ++ t.secondName))
  | _ => none

theorem Fields.curatorText_bare (x : Fields) : x.bare.curatorText = x.curatorText := by cases x <;> rfl

def Lib.Conf.groupName (w : World) (p : ℕ) : Option String := ((w.heap.get p).map fun o => o.fields.groupName).join

def Lib.Conf.curatorText (w : World) (p : ℕ) : Option String :=
  ((w.heap.get p).map fun o => o.fields.curatorText).join

theorem Looks.groupName (h : Looks w w') {p : ℕ} (hp : w.Alive p) : w'.groupName p = w.groupName p :=
  congrArg Option.join (h.view (fun x => by cases x <;> rfl) hp)

theorem Looks.curatorText (h : Looks w w') {p : ℕ} (hp : w.Alive p) : w'.curatorText p = w.curatorText p :=
  congrArg Option.join (h.view (fun x => by cases x <;> rfl) hp)

theorem groupName_of_get {p : ℕ} {c : Option IFromDB} {g : Group} (h : w.heap.get p = some ⟨c, .group g⟩) :
    w.groupName p = some g.name := by simp [Lib.Conf.groupName, h, Fields.groupName]

theorem curatorText_of_get {p : ℕ} {c : Option IFromDB} {t : TeacherInfo} (h : w.heap.get p = some ⟨c, .teacher t⟩) :
    w.curatorText p = some (cStr (t.firstName ++ " " ++ t.secondName)) := by
  simp [Lib.Conf.curatorText, h, Fields.curatorText]

theorem teacher_of_curatorText {p : ℕ} {text : String} (h : w.curatorText p = some text) :
    ∃ c t, w.heap.get p = some ⟨c, .teacher t⟩ := by
  unfold Lib.Conf.curatorText at h
  rcases hg : w.heap.get p with _ | ⟨c, x⟩
  · simp [hg] at h
  · cases x <;> simp [hg, Fields.curatorText] at h
    exact ⟨c, _, rfl⟩

theorem run_groupNames {grps : List ℕ} {names : List String} (h : run (groupNames grps) w = .ok (names, w')) :
    w' = w ∧ grps.map w.groupName = names.map some := by
  induction grps generalizing names with
  | nil =>
    obtain ⟨rfl, rfl⟩ := (run_pure_iff _).mp h
    exact ⟨rfl, rfl⟩
  | cons grp grps ih =>
    simp only [groupNames, run_bind_iff, run_groupOf_iff, run_pure_iff] at h
    obtain ⟨g, _, ⟨⟨c, hg⟩, rfl⟩, names', _, h, rfl, rfl⟩ := h
    obtain ⟨rfl, hn⟩ := ih h
    exact ⟨rfl, by rw [List.map_cons, List.map_cons, hn, groupName_of_get hg]⟩

theorem run_curatorNames {curs : List ℕ} {names : List String}
    (h : run (AdminWindow.curatorNames curs) w = .ok (names, w')) : w' = w ∧ curs.map w.curatorText = names.map some := by
  induction curs generalizing names with
  | nil =>
    obtain ⟨rfl, rfl⟩ := (run_pure_iff _).mp h
    exact ⟨rfl, rfl⟩
  | cons cur curs ih =>
    simp only [AdminWindow.curatorNames, AdminWindow.curatorName, run_bind_iff, run_teacherOf_iff, run_pure_iff] at h
    obtain ⟨_, _, ⟨t, _, ⟨⟨c, ht⟩, rfl⟩, rfl, rfl⟩, names', _, h, rfl, rfl⟩ := h
    obtain ⟨rfl, hn⟩ := ih h
    exact ⟨rfl, by rw [List.map_cons, List.map_cons, hn, curatorText_of_get ht]⟩

/-- The search finds the first group with the name. -/
theorem run_findName {grps : List ℕ} (hg : ∀ p ∈ grps, (w.groupName p).isSome) (text : String) :
    run (DisplayAccountWidget.findName text grps) w = .ok (grps.find? fun p => w.groupName p = some text, w) := by
  induction grps with
  | nil => rfl
  | cons grp grps ih =>
    obtain ⟨name, hn⟩ := Option.isSome_iff_exists.mp (hg grp (by simp))
    have ⟨c, g, hget, he⟩ : ∃ c g, w.heap.get grp = some ⟨c, .group g⟩ ∧ g.name = name := by
      unfold Lib.Conf.groupName at hn
      cases hget : w.heap.get grp with
      | none => simp [hget] at hn
      | some o =>
        obtain ⟨c, x⟩ := o
        cases x <;> simp [hget, Fields.groupName] at hn
        exact ⟨c, _, rfl, hn⟩
    subst he
    simp only [DisplayAccountWidget.findName, run_bind_iff, run_groupOf_iff]
    refine ⟨g, w, ⟨⟨c, hget⟩, rfl⟩, ?_⟩
    by_cases hname : g.name = text
    · rw [if_pos hname, List.find?_cons_of_pos (by simp [hn, hname])]
      rfl
    · rw [if_neg hname, List.find?_cons_of_neg (by simp [hn, hname])]
      exact ih fun p hp => hg p (by simp [hp])

/-! ### The box of groups -/

/-- The group an entry was built from; the first entry stands for none. -/
def entryGroup (grps : List ℕ) : ℕ → Option ℕ
  | 0 => none
  | i + 1 => grps[i]?

/-- The entry is the only one that can be meant: no group is named `"None"`, or the name of the entry's group is
shown whole and no cached group before it has the same. -/
def EntryClear (w : World) (grps : List ℕ) : ℕ → Prop
  | 0 => ∀ p ∈ w.cash .groups, w.groupName p ≠ some "None"
  | i + 1 => ∃ p name l₁ l₂, grps[i]? = some p ∧ w.groupName p = some name ∧ cStr name = name ∧
      w.cash .groups = l₁ ++ p :: l₂ ∧ ∀ q ∈ l₁, w.groupName q ≠ some name

/-- In a later state too the entry can only be meant for its group: no listed group is named `"None"`, or the entry's
group is listed, still has the name it is shown under, and no group listed before it has. -/
def EntryStill (w w' : World) (grps listed : List ℕ) : ℕ → Prop
  | 0 => ∀ p ∈ listed, w'.groupName p ≠ some "None"
  | i + 1 => ∃ p name l₁ l₂, grps[i]? = some p ∧ w.groupName p = some name ∧ w'.groupName p = some (cStr name) ∧
      listed = l₁ ++ p :: l₂ ∧ ∀ q ∈ l₁, w'.groupName q ≠ some (cStr name)

theorem entryStill_self {grps : List ℕ} {i : ℕ} : EntryStill w w grps (w.cash .groups) i ↔ EntryClear w grps i := by
  cases i with
  | zero => exact Iff.rfl
  | succ i =>
    constructor
    · rintro ⟨p, name, l₁, l₂, hp, hn, hs, hl, hq⟩
      have hc : cStr name = name := Option.some.inj (hs.symm.trans hn)
      exact ⟨p, name, l₁, l₂, hp, hn, hc, hl, by rwa [hc] at hq⟩
    · rintro ⟨p, name, l₁, l₂, hp, hn, hc, hl, hq⟩
      exact ⟨p, name, l₁, l₂, hp, hn, by rw [hc, hn], hl, by rwa [hc]⟩

/-- The form when an entry of its box of groups was chosen. -/
def DisplayAccountWidget.chooseGroup (form : DisplayAccountWidget) (i : ℕ) : DisplayAccountWidget :=
  { form with editGroup := form.editGroup.choose i }

/-- After the box was filled it has an entry for each group, and the groups are not listed anew. -/
structure Filled (w : World) (grps : List ℕ) (form : DisplayAccountWidget) : Prop where
  sound : Sound w
  isChanged : w.isChanged .groups = false
  alive : ∀ p ∈ grps, w.Alive p
  items : ∃ names : List String, grps.map w.groupName = names.map some ∧ form.editGroup.items = "None" :: names.map cStr

theorem listed_cached {k : Kind} {r : List ℕ} (hw : Sound w) (h : run (Controller.getAll k) w = .ok (r, w')) :
    w'.isChanged k = false ∧ ∀ p ∈ r, p ∈ w'.cash k := by
  rcases run_getAll_iff.mp h with ⟨hc, rfl, rfl⟩ | ⟨-, w₁, h₁, rfl⟩
  · exact ⟨hc, fun p hp => hp⟩
  · refine ⟨by simp [Lib.Conf.isChanged_setChanged], fun p hp => ?_⟩
    rw [Lib.Conf.cash_setChanged]
    exact mem_cash_of_collect hw (fun d hd o ho => Collection.get?_of_mem hd ho) h₁ p hp

theorem filled_of_layStudent {form form' : DisplayAccountWidget} {filled : Bool} {addInf : Option ℕ} {grps : List ℕ}
    {w₀ : World} (hw : Sound w) (hg : run (Controller.getAll .groups) w = .ok (grps, w₀))
    (h : run (form.layStudent filled addInf) w = .ok (form', w')) : Filled w' grps form' := by
  simp only [DisplayAccountWidget.layStudent, run_bind_iff] at h
  obtain ⟨_, _, hg', names, w₁, hn, h⟩ := h
  obtain ⟨rfl, rfl⟩ := Prod.mk.inj (Except.ok.inj (hg.symm.trans hg'))
  obtain ⟨rfl, hn⟩ := run_groupNames hn
  have hw₀ := (views_getAll .groups).looks hw hg |>.sound hw
  obtain ⟨hch, hmem⟩ := listed_cached hw hg
  have halive : ∀ p ∈ grps, w₁.Alive p := fun p hp => hw₀.live .groups p (hmem p hp)
  have hfill : ∀ {w₂} {form₂ : DisplayAccountWidget}, Looks w₁ w₂ → form₂.editGroup.items = "None" :: names.map cStr →
      Filled w₂ grps form₂ := by
    intro w₂ form₂ hl hi
    refine ⟨hl.sound hw₀, hl.isChanged hch, fun p hp => hl.alive (halive p hp), names, ?_, hi⟩
    rw [← hn]
    exact List.map_congr_left fun p hp => hl.groupName (halive p hp)
  cases filled with
  | false =>
    simp only [Bool.false_eq_true, if_false, run_pure_iff] at h
    obtain ⟨rfl, rfl⟩ := h
    exact hfill .refl (by simp)
  | true =>
    simp only [if_true, run_bind_iff] at h
    obtain ⟨p, w₂, h₂, s, w₃, h₃, r, w₄, h₄, h⟩ := h
    have hl₂ := (views_castDeref _ _).looks hw₀ h₂
    have hl₃ := (views_studentOf p).looks (hl₂.sound hw₀) h₃
    have hl₄ := (views_getStudentGroup p).looks (hl₃.sound (hl₂.sound hw₀)) h₄
    have hl : Looks w₁ w₄ := (hl₂.trans hl₃).trans hl₄
    cases r with
    | none =>
      simp only [Option.isSome_none, Bool.false_eq_true, if_false, run_pure_iff] at h
      obtain ⟨rfl, rfl⟩ := h
      exact hfill hl (by simp)
    | some q =>
      simp only [Option.isSome_some, if_true, run_bind_iff] at h
      obtain ⟨g?, w₅, h₅, h⟩ := h
      have hl' : Looks w₁ w₅ := hl.trans ((views_getStudentGroup p).looks (hl.sound hw₀) h₅)
      cases g? with
      | none => exact ((run_fault_iff _).mp h).elim
      | some g =>
        simp only [run_bind_iff, run_groupOf_iff, run_pure_iff] at h
        obtain ⟨_, _, ⟨-, rfl⟩, rfl, rfl⟩ := h
        exact hfill hl' (by simp)

theorem Sound.groupName_isSome (hw : Sound w) {p : ℕ} (hp : p ∈ w.cash .groups) : (w.groupName p).isSome := by
  obtain ⟨b, x, hg, -, hk⟩ := hw.entry .groups p hp
  cases x with
  | group g =>
    rw [groupName_of_get hg]
    rfl
  | _ => cases hk

/-- What is read back from a box is the first listed group with the entry's text. -/
theorem run_getGroupFromEdit (hw : Sound w) {form : DisplayAccountWidget} {listed : List ℕ}
    (hl : run (Controller.getAll .groups) w = .ok (listed, w')) {i : ℕ} {text : String}
    (hi : form.editGroup.items[i]? = some text) :
    run (form.chooseGroup i).getGroupFromEdit w = .ok (listed.find? (fun p => w'.groupName p = some text), w') := by
  have hw' := (views_getAll .groups).looks hw hl |>.sound hw
  simp only [DisplayAccountWidget.getGroupFromEdit, run_bind_iff]
  refine ⟨listed, w', hl, ?_⟩
  rw [DisplayAccountWidget.chooseGroup, ComboBox.currentText_choose hi]
  exact run_findName (fun p hp => hw'.groupName_isSome ((listed_cached hw hl).2 p hp)) text

/-- A box that was filled is read back later. -/
theorem Filled.read_iff {grps listed : List ℕ} {form : DisplayAccountWidget} (h : Filled w grps form) {w₁ w₂ : World}
    (hw : Sound w₁) (hl : run (Controller.getAll .groups) w₁ = .ok (listed, w₂)) {i : ℕ}
    (hi : i < form.editGroup.items.length) :
    run (form.chooseGroup i).getGroupFromEdit w₁ = .ok (entryGroup grps i, w₂) ↔ EntryStill w w₂ grps listed i := by
  obtain ⟨names, hn, he⟩ := h.items
  rw [run_getGroupFromEdit hw hl (List.getElem?_eq_getElem hi)]
  simp only [Except.ok.injEq, Prod.mk.injEq, and_true]
  cases i with
  | zero => simp [he, entryGroup, EntryStill]
  | succ i =>
    have hlen : i < names.length := by simpa [he] using hi
    have hlen' : i < grps.length := by
      have := congrArg List.length hn
      simp only [List.length_map] at this
      omega
    have hname : w.groupName grps[i] = some names[i] := by
      have := congrArg (·[i]?) hn
      simpa [hlen, hlen'] using this
    simp only [he, List.getElem_cons_succ, List.getElem_map, entryGroup, EntryStill, List.getElem?_eq_getElem hlen',
      List.find?_eq_some_iff_append]
    constructor
    · rintro ⟨hp, l₁, l₂, hl, hq⟩
      exact ⟨grps[i], names[i], l₁, l₂, rfl, hname, of_decide_eq_true hp, hl, fun q hq' => by simpa using hq q hq'⟩
    · rintro ⟨p, name, l₁, l₂, hp, hpn, hs, hl, hq⟩
      obtain rfl := Option.some.inj hp
      obtain rfl := Option.some.inj (hname.symm.trans hpn)
      exact ⟨by simp [hs], l₁, l₂, hl, fun q hq' => by simpa using hq q hq'⟩

theorem Filled.entry_iff {grps : List ℕ} {form : DisplayAccountWidget} (h : Filled w grps form) {i : ℕ}
    (hi : i < form.editGroup.items.length) :
    run (form.chooseGroup i).getGroupFromEdit w = .ok (entryGroup grps i, w) ↔ EntryClear w grps i :=
  (h.read_iff h.sound (run_getAll_iff.mpr (.inl ⟨h.isChanged, rfl, rfl⟩)) hi).trans entryStill_self

/-! ### The box of curators -/

theorem alive_of_getter {g : Getter} {this p : ℕ} (hw : Sound w) (h : run (g.call this) w = .ok (some p, w')) :
    w'.Alive p := ((run_getter hw h).alive hw).1

/-- The teachers of the box exist. -/
theorem alive_of_curators {accs r : List ℕ} (hw : Sound w) (h : run (AdminWindow.curators accs) w = .ok (r, w')) :
    ∀ p ∈ r, w'.Alive p := by
  induction accs generalizing w r with
  | nil =>
    obtain ⟨rfl, -⟩ := (run_pure_iff _).mp h
    simp
  | cons acc accs ih =>
    simp only [AdminWindow.curators, run_bind_iff] at h
    obtain ⟨info?, w₁, h₁, h⟩ := h
    have hw₁ := (views_getAdditionalInfo acc).looks hw h₁ |>.sound hw
    cases info? with
    | none => exact ih hw₁ (by simpa using h)
    | some info =>
      simp only [Option.isSome_some, if_true, run_bind_iff] at h
      obtain ⟨info?, w₂, h₂, teach?, w₃, h₃, h⟩ := h
      have hw₂ := (views_getAdditionalInfo acc).looks hw₁ h₂ |>.sound hw₁
      obtain ⟨rfl, hc⟩ := run_cast_iff.mp h₃
      cases teach? with
      | none => exact ih hw₂ h
      | some teach =>
        simp only [run_bind_iff, run_pure_iff] at h
        obtain ⟨r', _, h, rfl, rfl⟩ := h
        have ht : w₂.Alive teach := by
          rcases hc with ⟨-, hc⟩ | ⟨p, o, rfl, -, hc⟩
          · cases hc
          · obtain rfl : teach = p := by
              split_ifs at hc
              exact Option.some.inj hc
            exact alive_of_getter (g := .getAdditionalInfo) hw₁ h₂
        have hl := (views_curators accs).looks hw₂ h
        exact List.forall_mem_cons.mpr ⟨hl.alive ht, ih hw₂ h⟩

/-- The curator's text is preset when the group has a curator. -/
theorem run_chooseCurator {box box' : ComboBox} {grp : ℕ} (hw : Sound w)
    (h : run (AdminWindow.chooseCurator box grp) w = .ok (box', w')) :
    w'.refOf grp .curator = some .null ∧ box' = box ∨
      ∃ p text, w'.refOf grp .curator = some (.to p) ∧ w'.Alive p ∧ w'.curatorText p = some text ∧
        box' = box.setCurrentText text := by
  simp only [AdminWindow.chooseCurator, run_bind_iff] at h
  obtain ⟨r, w₁, h₁, h⟩ := h
  have hg := run_getter (g := .getCurator) hw h₁
  have hw₁ := (views_getCurator grp).looks hw h₁ |>.sound hw
  cases r with
  | none =>
    simp only [Option.isSome_none, Bool.false_eq_true, if_false, run_pure_iff] at h
    obtain ⟨rfl, rfl⟩ := h
    exact .inl ⟨hg.ref_none, rfl⟩
  | some p =>
    obtain ⟨hp, hr⟩ := hg.alive hw
    -- the pointer is there now, so asking again changes nothing
    have again : ∀ {r' w₂}, run (GroupDB.getCurator grp) w₁ = .ok (r', w₂) → r' = some p ∧ w₂ = w₁ :=
      fun h₂ => (run_getter (g := .getCurator) hw₁ h₂).of_to hr hp
    simp only [Option.isSome_some, if_true, run_bind_iff] at h
    obtain ⟨r₂, w₂, h₂, h⟩ := h
    obtain ⟨rfl, rfl⟩ := again h₂
    simp only [run_bind_iff, run_teacherOf_iff] at h
    obtain ⟨t, _, ⟨⟨c, ht⟩, rfl⟩, r₃, w₃, h₃, h⟩ := h
    obtain ⟨rfl, rfl⟩ := again h₃
    simp only [run_bind_iff, run_teacherOf_iff, run_pure_iff] at h
    obtain ⟨t', _, ⟨⟨c', ht'⟩, rfl⟩, rfl, rfl⟩ := h
    rw [ht, Option.some.injEq, Obj.mk.injEq, Fields.teacher.injEq] at ht'
    obtain ⟨-, rfl⟩ := ht'
    exact .inr ⟨p, _, hr, hp, curatorText_of_get ht, rfl⟩

/-- The teacher the curator box is set to. -/
def AdminWindow.chosen (win : AdminWindow) : Option ℕ :=
  if win.curatorComboBox.currentIndex = some 0 then none
  else win.allCurators[win.curatorComboBox.currentIndex.getD 0 - 1]?

/-- After `SetGroup` the box has an entry for each teacher, and the text of the group's curator is preset, if it has one. -/
structure Preset (w : World) (win : AdminWindow) (grp : ℕ) : Prop where
  names : ∃ names : List String, win.allCurators.map w.curatorText = names.map some ∧
    (w.refOf grp .curator = some .null → win.curatorComboBox = ComboBox.ofNames names) ∧
    ∀ p, w.refOf grp .curator = some (.to p) → ∃ text, w.curatorText p = some text ∧
      win.curatorComboBox = (ComboBox.ofNames names).setCurrentText text

theorem preset_of_setGroup {win win' : AdminWindow} {grp : ℕ} (hw : Sound w)
    (h : run (win.setGroup (some grp)) w = .ok (win', w')) : Preset w' win' grp := by
  simp only [AdminWindow.setGroup, AdminWindow.showGroup, run_bind_iff, run_groupOf_iff, run_pure_iff] at h
  obtain ⟨accs, w₁, h₁, rows, w₂, h₂, all, w₃, h₃, curs, w₄, h₄, names, _, h₅, box, w₅, h₆, g, _, ⟨⟨c, hg⟩, rfl⟩, rfl,
    rfl⟩ := h
  have hw₁ := (views_groupedAccounts (some grp)).looks hw h₁ |>.sound hw
  have hw₂ := (views_updateTable accs).looks hw₁ h₂ |>.sound hw₁
  have hw₃ := (views_getAll .accounts).looks hw₂ h₃ |>.sound hw₂
  have hw₄ := (views_curators all).looks hw₃ h₄ |>.sound hw₃
  obtain ⟨rfl, hn⟩ := run_curatorNames h₅
  have hl := (views_chooseCurator _ grp).looks hw₄ h₆
  refine ⟨names, ?_, fun hnull => ?_, fun p hp => ?_⟩
  · rw [← hn]
    exact List.map_congr_left fun p hp => hl.curatorText (alive_of_curators hw₃ h₄ p hp)
  · rcases run_chooseCurator hw₄ h₆ with ⟨-, rfl⟩ | ⟨q, text, hq, -⟩
    · rfl
    · rw [hq, Option.some.injEq] at hnull
      cases hnull
  · rcases run_chooseCurator hw₄ h₆ with ⟨hn', -⟩ | ⟨q, text, hq, -, ht, rfl⟩
    · rw [hn', Option.some.injEq] at hp
      cases hp
    · rw [hq, Option.some.injEq, Pointer.to.injEq] at hp
      subst hp
      exact ⟨text, ht, rfl⟩

/-- The entry of a curator is the only one that can be meant: its text is not that of the first entry, and no
teacher before it has the same. -/
def CuratorClear (w : World) (curs : List ℕ) (cur : ℕ) : Prop :=
  w.curatorText cur ≠ some "None" ∧
    ∃ l₁ l₂, curs = l₁ ++ cur :: l₂ ∧ ∀ q ∈ l₁, w.curatorText q ≠ w.curatorText cur

theorem run_curatorAt_iff {win : AdminWindow} {cur : ℕ} : run win.curatorAt w = .ok (cur, w) ↔
    win.allCurators[win.curatorComboBox.currentIndex.getD 0 - 1]? = some cur := by
  unfold AdminWindow.curatorAt
  split
  · rename_i hn
    simp [hn]
  · rename_i hs
    simp [hs]

theorem Preset.entry_iff {win : AdminWindow} {grp cur : ℕ} (h : Preset w win grp)
    (hr : w.refOf grp .curator = some (.to cur)) (hc : cur ∈ win.allCurators) :
    win.curatorComboBox.currentIndex ≠ some 0 ∧ run win.curatorAt w = .ok (cur, w) ↔
      CuratorClear w win.allCurators cur := by
  obtain ⟨names, hn, -, hp⟩ := h.names
  obtain ⟨text, ht, hbox⟩ := hp cur hr
  have hmem : text ∈ names := by
    have : some text ∈ names.map some := by
      rw [← hn, ← ht]
      exact List.mem_map_of_mem hc
    simpa using this
  rw [run_curatorAt_iff]
  constructor
  · rintro ⟨hne, hat⟩
    obtain ⟨l₁, l₂, hl, hnot⟩ := List.eq_append_cons_of_mem (List.mem_cons_of_mem "None" hmem)
    have hidx : win.curatorComboBox.currentIndex = some l₁.length := by
      rw [hbox]
      exact ComboBox.currentIndex_setCurrentText (by simpa using hl) hnot
    cases l₁ with
    | nil => simp [hidx] at hne
    | cons s l₁ =>
      obtain ⟨rfl, hl'⟩ : "None" = s ∧ names = l₁ ++ text :: l₂ := by simpa using hl
      simp only [hidx, Option.getD_some, List.length_cons, Nat.add_sub_cancel] at hat
      refine ⟨fun he => hnot ?_, win.allCurators.take l₁.length, win.allCurators.drop (l₁.length + 1), ?_, fun q hq => ?_⟩
      · rw [ht, Option.some.injEq] at he
        simp [he]
      · obtain ⟨hlt, rfl⟩ := List.getElem?_eq_some_iff.mp hat
        simp
      · have hmap : (win.allCurators.take l₁.length).map w.curatorText = l₁.map some := by
          rw [List.map_take, hn, ← List.map_take, hl']
          simp
        have hq' : w.curatorText q ∈ l₁.map some := by
          rw [← hmap]
          exact List.mem_map_of_mem hq
        rintro he
        rw [he, ht] at hq'
        exact hnot (List.mem_cons_of_mem _ (by simpa using hq'))
  · rintro ⟨hnone, l₁, l₂, hl, hq⟩
    rw [hl, List.map_append, List.map_cons, ht] at hn
    obtain ⟨n₁, n₂', rfl, h₁, h₂⟩ := List.map_eq_append_iff.mp hn.symm
    obtain ⟨s, n₂, rfl, hs, -⟩ := List.map_eq_cons_iff.mp h₂
    obtain rfl := Option.some.inj hs
    have hidx : win.curatorComboBox.currentIndex = some (n₁.length + 1) := by
      rw [hbox]
      have hitems : (ComboBox.ofNames (n₁ ++ s :: n₂)).items = ("None" :: n₁) ++ s :: n₂ := by simp
      refine ComboBox.currentIndex_setCurrentText hitems ?_
      rw [List.mem_cons, not_or]
      refine ⟨fun he => hnone (by rw [ht, he]), fun hm => ?_⟩
      have : some s ∈ l₁.map w.curatorText := by
        rw [← h₁]
        exact List.mem_map_of_mem hm
      obtain ⟨q, hq', he⟩ := List.mem_map.mp this
      exact hq q hq' (he.trans ht.symm)
    have hlen₁ : n₁.length = l₁.length := by simpa using congrArg List.length h₁
    refine ⟨by simp [hidx], ?_⟩
    rw [hidx, hl, Option.getD_some, Nat.add_sub_cancel, hlen₁]
    simp

/-! ### Every state -/

/-- In every state, each entry of the filled group box is read back as the group it was built from, or as none, and
the curator that is preset is the one that is read back, exactly when no namesake is in the way. The group box is read
by the names of the later state, the curator box by position alone. -/
theorem entries_denote_iff {c : Client} (hc : c.Reachable) :
    (∀ form filled addInf form' grps w₀ w₁ i, run (Controller.getAll .groups) c.world = .ok (grps, w₀) →
      run (DisplayAccountWidget.layStudent form filled addInf) c.world = .ok (form', w₁) →
        i < form'.editGroup.items.length →
          (run (form'.chooseGroup i).getGroupFromEdit w₁ = .ok (entryGroup grps i, w₁) ↔ EntryClear w₁ grps i) ∧
          ∀ c' : Client, c'.Reachable → ∀ listed w₂, run (Controller.getAll .groups) c'.world = .ok (listed, w₂) →
            (run (form'.chooseGroup i).getGroupFromEdit c'.world = .ok (entryGroup grps i, w₂) ↔
              EntryStill w₁ w₂ grps listed i)) ∧
    ∀ (win win' : AdminWindow) grp cur w₁ w₂, run (win.setGroup (some grp)) c.world = .ok (win', w₁) →
      w₁.refOf grp .curator = some (.to cur) → cur ∈ win'.allCurators →
        (win'.curatorComboBox.currentIndex ≠ some 0 ∧ run win'.curatorAt w₂ = .ok (cur, w₂) ↔
          CuratorClear w₁ win'.allCurators cur) := by
  have hw := hc.sound
  constructor
  · intro form filled addInf form' grps w₀ w₁ i hg h hi
    have hf := filled_of_layStudent hw hg h
    exact ⟨hf.entry_iff hi, fun c' hc' listed w₂ hl => hf.read_iff hc'.sound hl hi⟩
  · intro win win' grp cur w₁ w₂ h hr hcur
    rw [run_curatorAt_iff, ← run_curatorAt_iff (w := w₁)]
    exact (preset_of_setGroup hw h).entry_iff hr hcur

/-- A teacher who is the curator of a group. -/
def oneCurator : Database :=
  ((Database.empty.insert .infos [("FirstName", .string "first"), ("SecondName", .string "second"), ("Owner", .oid 1),
    ("Faculty", .string "faculty"), ("LessonsTypes", .array [])]).insert .accounts [("Login", .string "login"),
      ("Password", .string "password"), ("AccountType", .int32 1), ("AdditionalInfo", .oid 0)]).insert .groups
        [("Name", .string "name"), ("Curator", .oid 0), ("Members", nullValue)]

/-- Two teachers and two groups; the second teacher is the curator of the first group. -/
def twoCurators : Database :=
  let teacher (name : String) (owner : Oid) : Doc := [("FirstName", .string name), ("SecondName", .string "teacher"),
    ("Owner", .oid owner), ("Faculty", .string "faculty"), ("LessonsTypes", .array [])]
  let account (login : String) (info : Oid) : Doc :=
    [("Login", .string login), ("Password", .string "password"), ("AccountType", .int32 1), ("AdditionalInfo", .oid info)]
  (((((Database.empty.insert .infos (teacher "first" 2)).insert .infos (teacher "second" 3)).insert .accounts
    (account "one" 0)).insert .accounts (account "two" 1)).insert .groups
      [("Name", .string "one"), ("Curator", .oid 1), ("Members", nullValue)]).insert .groups
        [("Name", .string "two"), ("Curator", nullValue), ("Members", nullValue)]

/-- Without namesakes the entry of the second group and that of the second teacher are read back right. -/
theorem entries_denote_of_two_curators : ∃ (c : Client) (form' : DisplayAccountWidget) (win' : AdminWindow) (w₁ w₂ : World),
    run (DisplayAccountWidget.layStudent {} false none) c.world = .ok (form', w₁) ∧
      run (form'.chooseGroup 2).getGroupFromEdit w₁ = .ok (some 1, w₁) ∧
      run (c.win.setGroup (some 0)) c.world = .ok (win', w₂) ∧ run win'.curatorAt w₂ = .ok (5, w₂) := by
  have hplay : ((Event.call (.getAll .groups)).next? (Client.start twoCurators .null)).any (fun c =>
      (yields (Controller.getAll .groups) c.world).any (fun r => r.1 = [0, 1]) ∧
      (yields (DisplayAccountWidget.layStudent {} false none) c.world).any (fun r =>
        r.1.editGroup.items = ["None", "one", "two"] ∧ r.2.cash .groups = [0, 1] ∧ r.2.groupName 0 = some "one" ∧
          r.2.groupName 1 = some "two") ∧
      (yields (c.win.setGroup (some 0)) c.world).any (fun r => r.1.allCurators = [4, 5] ∧
        r.2.refOf 0 .curator = some (.to 5) ∧ r.2.curatorText 4 = some "first teacher" ∧
          r.2.curatorText 5 = some "second teacher")) = true := by decide +kernel
  obtain ⟨c, hc, h⟩ := Option.any_eq_true .. |>.mp hplay
  obtain ⟨hg, hf, hs⟩ := of_decide_eq_true h
  obtain ⟨⟨grps, w₀⟩, hg, hgrps⟩ := Option.any_eq_true .. |>.mp hg
  obtain ⟨⟨form', w₁⟩, hf, hform⟩ := Option.any_eq_true .. |>.mp hf
  obtain ⟨⟨win', w₂⟩, hs, hwin⟩ := Option.any_eq_true .. |>.mp hs
  obtain rfl : grps = [0, 1] := of_decide_eq_true hgrps
  obtain ⟨hitems, hcash, hone, htwo⟩ : form'.editGroup.items = ["None", "one", "two"] ∧ w₁.cash .groups = [0, 1] ∧
    w₁.groupName 0 = some "one" ∧ w₁.groupName 1 = some "two" := of_decide_eq_true hform
  obtain ⟨hcurs, href, hfirst, hsecond⟩ : win'.allCurators = [4, 5] ∧ w₂.refOf 0 .curator = some (.to 5) ∧
    w₂.curatorText 4 = some "first teacher" ∧ w₂.curatorText 5 = some "second teacher" := of_decide_eq_true hwin
  obtain ⟨hbox, hcur⟩ := entries_denote_iff ⟨_, _, _, .snoc .nil trivial (Event.step_of_next? hc)⟩
  refine ⟨c, form', win', w₁, w₂, run_of_yields hf, ?_, run_of_yields hs, ?_⟩
  · refine (hbox _ _ _ form' [0, 1] w₀ w₁ 2 (run_of_yields hg) (run_of_yields hf) (by simp [hitems])).1.mpr ?_
    exact ⟨1, "two", [0], [], rfl, htwo, by decide, hcash, by simp [hone]⟩
  · refine ((hcur _ win' 0 5 w₂ w₂ (run_of_yields hs) href (by simp [hcurs])).mpr ⟨by simp [hsecond], [4], [], hcurs, ?_⟩).2
    simp [hfirst, hsecond]

/-- Two groups of one name. -/
def twinGroups : Database :=
  (Database.empty.insert .groups [("Name", .string "name"), ("Curator", nullValue), ("Members", nullValue)]).insert .groups
    [("Name", .string "name"), ("Curator", nullValue), ("Members", nullValue)]

/-- The entry of the second of two namesakes is read back as the first. -/
theorem not_entries_denote_always : ¬ ∀ c : Client, c.Reachable → ∀ form filled addInf form' grps w₀ w₁ i,
    run (Controller.getAll .groups) c.world = .ok (grps, w₀) →
      run (DisplayAccountWidget.layStudent form filled addInf) c.world = .ok (form', w₁) →
        i < form'.editGroup.items.length →
          run (form'.chooseGroup i).getGroupFromEdit w₁ = .ok (entryGroup grps i, w₁) := by
  intro h
  have hplay : (yields (Controller.getAll .groups) (World.start twinGroups)).any (fun r => r.1 = [0, 1]) ∧
      (yields (DisplayAccountWidget.layStudent {} false none) (World.start twinGroups)).any (fun r =>
        r.1.editGroup.items.length = 3 ∧
          (yields (r.1.chooseGroup 2).getGroupFromEdit r.2).any fun r' => r'.1 = some 0) := by decide
  obtain ⟨⟨grps, w₀⟩, hg, hgrps⟩ := Option.any_eq_true .. |>.mp hplay.1
  obtain ⟨⟨form', w₁⟩, hf, hform⟩ := Option.any_eq_true .. |>.mp hplay.2
  obtain rfl : grps = [0, 1] := of_decide_eq_true hgrps
  obtain ⟨hlen, hread⟩ := of_decide_eq_true hform
  obtain ⟨⟨r, w₂⟩, hr, hr0⟩ := Option.any_eq_true .. |>.mp hread
  obtain rfl : r = some 0 := of_decide_eq_true hr0
  have hread' := h (Client.start twinGroups .null) ⟨_, _, [], .nil⟩ _ _ _ form' _ w₀ w₁ 2 (run_of_yields hg)
    (run_of_yields hf) (by simp [hlen])
  have he := (run_of_yields hr).symm.trans hread'
  simp [entryGroup] at he

end Cbt
