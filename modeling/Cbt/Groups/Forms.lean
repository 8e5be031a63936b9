import Cbt.Groups.Unmoved
import Cbt.Windows.Entries
import Cbt.Windows.Selection

/-! The account commands and membership. A form that shows the name of a group makes
a student that joins it, in step with the members that are stored if every group of
that name is; one that shows the name of no group makes a student without one. The
info that a changed account had before is deleted, and leaves the two sides as they are. -/

namespace Cbt

open Lib.Command (run_bind_iff run_pure_iff run_fault_iff)

variable {w w₀ w₁ w' : World} {Γ : Classes}

/-! ### Names of groups -/

/-- No group has the name, neither a cached one nor a stored one. -/
structure Lib.Conf.NoGroup (w : World) (text : String) : Prop where
  cached : ∀ p ∈ w.cash .groups, w.groupName p ≠ some text
  stored : ∀ o d, w.stored .groups o = some d → d.get? "Name" ≠ some (.string text)

namespace Lib.Conf.NoGroup

variable {text : String}

theorem micro {L : Loads} (h : w.NoGroup text) (hw : Sound w) (hm : Micro L w w') : w'.NoGroup text := by
  have hl : Looks w w' := .of_quiet (.single hm)
  have old : ∀ p ∈ w.cash .groups, w'.groupName p ≠ some text := fun p hp =>
    (Looks.groupName hl (hw.live .groups p hp)).trans_ne (h.cached p hp)
  refine ⟨fun p hp => ?_, fun o d hd => h.stored o d (Looks.stored hl ▸ hd)⟩
  cases hm with
  | @load k b x hm hc hs hb hk hx =>
    rw [cash_load] at hp
    split_ifs at hp with he
    · subst he
      rcases List.mem_append.mp hp with hp | hp
      · exact old p hp
      · -- the object that was loaded has the name of its document
        obtain rfl := List.mem_singleton.mp hp
        obtain ⟨g, rfl⟩ : ∃ g, x = .group g := by cases x <;> first | exact ⟨_, rfl⟩ | cases hk
        rw [groupName_of_get (c := some b) (g := g) (by rw [heap_load, Heap.get_push_next])]
        intro hname
        obtain rfl : g.name = text := Option.some.inj hname
        simp only [Fields.cls, DBClass.fields, exceptBind_eq_ok, exceptPure_eq_ok, Doc.getString_eq_ok] at hx
        obtain ⟨s, hs', hg⟩ := hx
        rw [Fields.group.inj hg] at h
        exact h.stored _ _ hs hs'
    · exact old p hp
  | put => exact old p hp
  | push => exact old p hp
  | reap => exact old p hp

theorem looks (h : w.NoGroup text) (hw : Sound w) (hl : Looks w w') : w'.NoGroup text := by
  induction hl with
  | refl => exact h
  | tail hl' hs ih =>
    cases hs with
    | quiet hm => exact ih.micro (Looks.sound hl' hw) hm
    | listed k => exact ⟨fun p hp => ih.cached p (by simpa using hp), ih.stored⟩

/-- The form then shows no group. -/
theorem getGroupFromEdit {form : DisplayAccountWidget} {r : Option ℕ} (h : w.NoGroup form.editGroup.currentText)
    (hw : Sound w) (hr : run form.getGroupFromEdit w = .ok (r, w')) : r = none := by
  obtain ⟨grps, w₁, h₁, h₂⟩ := (run_bind_iff _).mp hr
  have hl := (views_getAll .groups).looks hw h₁
  have hw₁ := Looks.sound hl hw
  have hcash := (listed_cached hw h₁).2
  have hfind := run_findName (fun p hp => hw₁.groupName_isSome (hcash p hp)) form.editGroup.currentText
  obtain ⟨rfl, -⟩ := Prod.mk.inj (Except.ok.inj (hfind.symm.trans h₂))
  refine List.find?_eq_none.mpr fun p hp hname => ?_
  exact (h.looks hw hl).cached p (hcash p hp) (by simpa using hname)

theorem account {text : String} {acc : ℕ} {c : Option IFromDB} {a a' : Account} (h : w.NoGroup text)
    (ha : w.heap.get acc = some ⟨c, .account a⟩) : (w.put acc ⟨c, .account a'⟩).NoGroup text := by
  refine ⟨fun p hp hname => h.cached p hp ?_, h.stored⟩
  unfold groupName at hname ⊢
  rw [get_put ha] at hname
  split_ifs at hname with hpa
  · simp [Fields.groupName] at hname
  · exact hname

end Lib.Conf.NoGroup

/-! ### The infos of a form -/

/-- The object is a plain one, and its pointer to a group is this one, if it has any. -/
def Lib.Conf.Drafts (w : World) (info : ℕ) (v : Option Pointer) : Prop :=
  ∃ x, w.heap.get info = some ⟨none, x⟩ ∧ x.ref .group = v

namespace Lib.Conf.Drafts

variable {info : ℕ} {v : Option Pointer}

theorem looks (h : w.Drafts info v) (hl : Looks w w') (hk : RefsKept (fun _ => False) w w') : w'.Drafts info v := by
  obtain ⟨x, hx, hv⟩ := h
  obtain ⟨x', hx', -⟩ := Looks.plain hl hx
  obtain ⟨o', ho', hf, -⟩ := hk info _ hx
  obtain rfl := Option.some.inj (hx'.symm.trans ho')
  exact ⟨x', hx', (hf .group).trans hv⟩

/-- A setter of another member. -/
theorem setRef {f : RefField} {acc : ℕ} {u : Unit} (h : w.Drafts info v) (hf : f ≠ .group)
    (hr : run (Cbt.setRef f info (some acc)) w = .ok (u, w')) : w'.Drafts info v := by
  obtain ⟨x, hx, hv⟩ := h
  obtain ⟨o, _, oq, b, y, ho, -, -, -, hb, rfl⟩ := run_setRef_some_iff.mp hr
  obtain rfl := Option.some.inj (hx.symm.trans ho)
  have hne : info ≠ acc := by
    rintro rfl
    rw [get_put ho, if_pos rfl] at hb
    simp [Obj.setRef] at hb
  refine ⟨x.setRef f (.to acc), ?_, by rw [Fields.ref_setRef_of_ne hf.symm, hv]⟩
  rw [get_put hb, if_neg hne, get_put ho, if_pos rfl]
  rfl

/-- The setter of the group. -/
theorem setGroup {u : Unit} {s : StudentInfo} {grp : Option ℕ} (hi : w.heap.get info = some ⟨none, .student s⟩)
    (hr : run (StudentInfo.setGroup info grp) w = .ok (u, w')) : w'.Drafts info (some (.ofOption grp)) := by
  cases grp with
  | none =>
    obtain ⟨o, _, ho, -, rfl⟩ := run_setRef_none_iff.mp hr
    obtain rfl := Option.some.inj (hi.symm.trans ho)
    exact ⟨.student { s with group := .null }, by rw [get_put ho, if_pos rfl]; rfl, rfl⟩
  | some q =>
    obtain ⟨o, _, oq, b, y, ho, -, -, -, hb, rfl⟩ := run_setRef_some_iff.mp hr
    obtain rfl := Option.some.inj (hi.symm.trans ho)
    have hne : info ≠ q := by
      rintro rfl
      rw [get_put ho, if_pos rfl] at hb
      simp [Obj.setRef] at hb
    refine ⟨.student { s with group := .to q }, ?_, rfl⟩
    rw [get_put hb, if_neg hne, get_put ho, if_pos rfl]
    rfl

theorem added {e : ℕ} {k : Kind} {r : Option ℕ} (h : w.Drafts info v) (hne : info ≠ e)
    (hr : run (Controller.add k e) w = .ok (r, w')) : w'.Drafts info v := by
  obtain ⟨x, d, o, he, -, -, -, -, -, rfl⟩ := run_add_iff.mp hr
  obtain ⟨y, hy, hv⟩ := h
  refine ⟨y, ?_, hv⟩
  rw [heap_load]
  exact Heap.get_push_of_some _ (by rw [heap_post, Heap.get_free, if_neg hne, hy])

theorem updated {el : ℕ} {k : Kind} {r : Bool} (h : w.Drafts info v) (hr : run (Controller.update k el) w = .ok (r, w')) :
    w'.Drafts info v := by
  obtain ⟨b, x, d, hel, -, -, -, hh, -⟩ := update_effect hr
  obtain ⟨y, hy, hv⟩ := h
  refine ⟨y, ?_, hv⟩
  rw [hh, Heap.get_set _ hel, if_neg, hy]
  rintro rfl
  simp [hel] at hy

theorem deleted {oid : Oid} {k : Kind} (h : w.Drafts info v) (hd : Deleted w k oid w') : w'.Drafts info v := by
  obtain ⟨p, b, x, db, -, hp, rfl, -⟩ := hd.effect
  obtain ⟨y, hy, hv⟩ := h
  have hne : info ≠ p := by
    rintro rfl
    simp [hp] at hy
  refine ⟨y, ?_, hv⟩
  change (((w.setChanged k true).dismiss p b x)).heap.get info = _
  rw [get_dismiss_of_ne (w.setChanged k true) p b x (by simpa using hp) hne]
  simpa using hy

/-- The info joins its group, if it has one that is ready and it is added as a student. -/
theorem joins {t : AccountType} (h : w.Drafts info v) (hv : ∀ q, v = some (.to q) → w.Ready q ∧ t = .student) :
    w.Joins info t := by
  intro s i dg hs hval hdg
  obtain ⟨x, hx, rfl⟩ := h
  obtain rfl : x = .student s := by simpa [hx] using hs
  obtain ⟨q, b, y, hq, hget, -, rfl⟩ := value_eq_oid hval
  obtain ⟨hready, ht⟩ := hv q (by simp [Fields.ref, hq])
  have hid : w.idOf q = some b.id := idOf_of_get hget
  exact ⟨ht, fun g hg => hready.inStep _ g hid hg, fun hn => absurd hn (cached_ne_none hready.mem hid)⟩

end Lib.Conf.Drafts

theorem keepsRefs_getGroupFromEdit (form : DisplayAccountWidget) : KeepsRefs (fun _ => False) form.getGroupFromEdit := by
  refine .bind (keepsRefs_getAll .groups) fun grps => ?_
  induction grps with
  | nil => exact .pure _
  | cons grp grps ih => exact .bind (.still (still_groupOf grp)) fun _ => .ite (.pure _) ih

/-- What a getter answers with was held already, or is cached. -/
theorem GotBy.held_or_cached {g : Getter} {this p : ℕ} (h : GotBy w g this (some p) w') :
    w.refOf this g.field = some (.to p) ∨ p ∈ w'.cash g.kind := by
  cases h with
  | settled ho hv hs =>
    cases hs with
    | held => exact .inl ((refOf_of_get ho _).trans hv)
  | loaded _ _ _ hl => exact .inr hl.mem

/-- The group that a new student's info takes is still ready. -/
theorem Lib.Conf.Ready.setGroup {info q : ℕ} {u : Unit} (h : w.Ready q) (hw : Sound w) (ht : ∃ Γ, WellTyped Γ w)
    (hr : run (StudentInfo.setGroup info (some q)) w = .ok (u, w')) : w'.Ready q := by
  have hw' : Sound w' := (quiet_setRef hw hr).sound hw
  obtain ⟨o, _, oq, b, y, ho, -, -, -, hb, rfl⟩ := run_setRef_some_iff.mp hr
  obtain ⟨Γ, ht⟩ := ht
  exact h.unmoved hw hw' ht ((Unmoved.setRef ho .group (.to q)).trans (.own hb 1)) rfl

/-! ### The type of an account -/

/-- An account that is there at the address has the type. -/
def Lib.Conf.OfType (w : World) (acc : ℕ) (t : AccountType) : Prop :=
  acc < w.heap.next ∧ ∀ c a, w.heap.get acc = some ⟨c, .account a⟩ → a.accountType = t

namespace Lib.Conf.OfType

variable {acc : ℕ} {t : AccountType}

theorem looks (h : w.OfType acc t) (hl : Looks w w') : w'.OfType acc t := by
  refine ⟨h.1.trans_le (Looks.next_le hl), fun c a ha => ?_⟩
  obtain ⟨⟨c₀, x₀⟩, h₀, hsame⟩ := Looks.back hl ha h.1
  have hbare := hsame.bare
  cases x₀ <;> simp only [Fields.bare, reduceCtorEq, Fields.account.injEq, Account.mk.injEq] at hbare
  exact hbare.2.1.trans (h.2 c₀ _ h₀)

theorem updated {el : ℕ} {k : Kind} {r : Bool} (h : w.OfType acc t) (hr : run (Controller.update k el) w = .ok (r, w')) :
    w'.OfType acc t := by
  obtain ⟨b, x, d, hel, -, -, -, hh, -⟩ := update_effect hr
  refine ⟨by simpa [hh] using h.1, fun c a ha => ?_⟩
  rw [hh, Heap.get_set _ hel] at ha
  split_ifs at ha with he
  · obtain rfl : x = .account a := congrArg Obj.fields (Option.some.inj ha)
    exact h.2 _ a (he ▸ hel)
  · exact h.2 c a ha

theorem deleted {oid : Oid} {k : Kind} (h : w.OfType acc t) (hd : Deleted w k oid w') : w'.OfType acc t := by
  obtain ⟨p, b, x, db, -, hp, rfl, -⟩ := id hd.effect
  refine ⟨by simpa using h.1, fun c a ha => ?_⟩
  cases c with
  | none =>
    have hne : acc ≠ p := by
      rintro rfl
      change ((w.setChanged k true).dismiss acc b x).heap.get acc = _ at ha
      unfold dismiss at ha
      split_ifs at ha
      · simp [Heap.get_free] at ha
      · rw [get_put (by simpa using hp), if_pos rfl] at ha
        simp at ha
    change ((w.setChanged k true).dismiss p b x).heap.get acc = _ at ha
    rw [get_dismiss_of_ne (w.setChanged k true) p b x (by simpa using hp) hne] at ha
    exact h.2 none a (by simpa using ha)
  | some c =>
    obtain ⟨c₀, h₀, -⟩ := hd.back ha
    exact h.2 _ a h₀

/-- A new account has the type of the plain one it was made from. -/
theorem added {e : ℕ} {a : Account} {c : Option IFromDB} (he : w.heap.get e = some ⟨c, .account a⟩)
    (hr : run (Controller.add .accounts e) w = .ok (some acc, w')) : w'.OfType acc a.accountType := by
  obtain ⟨x, d, o, hx, -, hd, -, ho, hacc, rfl⟩ := run_add_iff.mp hr
  obtain rfl := Option.some.inj hacc
  obtain rfl : x = .account a := by simpa [hx] using (congrArg (Option.map Obj.fields) he)
  obtain ⟨ref, m, -, rfl⟩ := toDoc_eq_ok.mp hd
  obtain ⟨y, _, hy, -, rfl⟩ := ofDoc_eq_ok.mp ho
  have hfields := hy.symm.trans (fields_written (.account a) ref m w.env.nextOid)
  refine ⟨by simp, fun c' a' ha => ?_⟩
  rw [heap_load, show w.heap.next = (w.post .accounts e ((Fields.account a).written ref m)).heap.next by simp,
    Heap.get_push_next] at ha
  obtain rfl : y = .account a' := congrArg Obj.fields (Option.some.inj ha)
  simp only [Fields.bare, Except.ok.injEq, Fields.account.injEq] at hfields
  rw [hfields]

end Lib.Conf.OfType

/-! ### The commands -/

/-- A state in which the two sides agree, with what the steps to the next one need. -/
structure Keeping (w : World) : Prop where
  member : Membership w
  sound : Sound w
  issued : Issued w
  typed : ∃ Γ, WellTyped Γ w

/-- The info that the account points to is cached, so that it is the one that is deleted under its id. -/
def Lib.Conf.Replaces (w : World) (acc? : Option ℕ) : Prop :=
  ∀ acc p, acc? = some acc → w.refOf acc .additionalInfo = some (.to p) → p ∈ w.cash .infos

namespace Keeping

theorem acts {K : Kind → Prop} (h : Keeping w) (ha : Acts K w w') (hm : Membership w') : Keeping w' where
  member := hm
  sound := Acts.sound ha h.sound
  issued := Acts.issued ha h.sound h.issued
  typed := ha.invariant (I := fun w => ∃ Γ, WellTyped Γ w) (fun _ _ _ _ hs hw => wellTyped_step hs hw)
    (fun _ _ ha ⟨Γ, ht⟩ => ⟨Γ, ha.wellTyped ht⟩) h.typed

theorem beside {K : Kind → Prop} (h : Keeping w) (ha : Acts K w w') (hg : ¬ K .groups) (hi : ¬ K .infos) : Keeping w' :=
  h.acts ha (h.member.acts h.sound ha hg hi)

theorem views {α : Type} {m : Cmd α} {a : α} (h : Keeping w) (hm : Views m) (hr : run m w = .ok (a, w')) : Keeping w' :=
  h.beside (K := fun _ => False) (Does.of_views hm _ _ _ hr) id id

theorem new {x : New} {p : ℕ} (h : Keeping w) (hr : run (newObj ⟨none, x.fields⟩) w = .ok (p, w')) : Keeping w' :=
  h.beside (K := fun _ => False) (does_new x _ _ _ hr) id id

/-- A plain account is made, and an info whose group is ready. -/
theorem getNewAccount {form : DisplayAccountWidget} {data : ℕ × Option ℕ} (h : Keeping w)
    (hn : form.editType = .student → w.Receives form.editGroup.currentText)
    (hr : run form.getNewAccount w = .ok (data, w')) :
    (∃ a, w'.heap.get data.1 = some ⟨none, .account a⟩ ∧ a.accountType = form.editType) ∧
      ∀ info, data.2 = some info → info ≠ data.1 ∧
        ∃ v, w'.Drafts info v ∧ ∀ q, v = some (.to q) → w'.Ready q ∧ form.editType = .student := by
  simp only [DisplayAccountWidget.getNewAccount, run_bind_iff] at hr
  obtain ⟨acc, w₁, h₁, hr⟩ := hr
  have hk₁ : Keeping w₁ := h.new (x := .account form.editLogin form.editPassword form.editType) h₁
  obtain ⟨rfl, rfl⟩ := run_newObj_iff.mp h₁
  set w₁ := w.push ⟨none, .account
    { login := form.editLogin, password := form.editPassword, accountType := form.editType }⟩ with hw₁
  have hacc : ∀ {u : World}, Looks w₁ u →
      ∃ a, u.heap.get w.heap.next = some ⟨none, .account a⟩ ∧ a.accountType = form.editType := by
    intro u hl
    obtain ⟨x, hx, hbare⟩ := Looks.plain hl (Lib.Heap.get_push_next _ _)
    cases x <;> simp only [Fields.bare, reduceCtorEq, Fields.account.injEq, Account.mk.injEq] at hbare
    exact ⟨_, hx, hbare.2.1⟩
  have hne : w₁.heap.next ≠ w.heap.next := by simp [hw₁]
  cases ht : form.editType with
  | student =>
    simp only [ht, run_bind_iff] at hr
    obtain ⟨info, w₂, h₂, grp, w₃, h₃, hr⟩ := hr
    have hk₂ : Keeping w₂ :=
      hk₁.new (x := .studentInfo form.editFirstName form.editSecondName (toInt form.editCurs)) h₂
    obtain ⟨rfl, hw₂⟩ := run_newObj_iff.mp h₂
    have l₂ : Looks w₁ w₂ := hw₂ ▸ Looks.push w₁ _
    have hrec₂ : w₂.Receives form.editGroup.currentText := by
      obtain ⟨Γ, hΓ⟩ := h.typed
      refine (hn ht).unmoved h.sound hk₂.sound hΓ ((Unmoved.push w _).trans (hw₂ ▸ Unmoved.push w₁ _)) ?_
      rw [← hw₂]
      rfl
    have hstud : w₂.heap.get w₁.heap.next = some ⟨none, .student
        { firstName := form.editFirstName, secondName := form.editSecondName, curs := toInt form.editCurs }⟩ := by
      rw [← hw₂]
      exact Lib.Heap.get_push_next _ _
    have hdraft₂ : w₂.Drafts w₁.heap.next (some .null) := ⟨_, hstud, rfl⟩
    have hk₃ := hk₂.views (views_getGroupFromEdit form) h₃
    have l₃ := l₂.trans ((views_getGroupFromEdit form).looks hk₂.sound h₃)
    have hdraft₃ := hdraft₂.looks ((views_getGroupFromEdit form).looks hk₂.sound h₃) (keepsRefs_getGroupFromEdit form _ _ _ h₃)
    have hrec₃ := (hrec₂.getGroupFromEdit hk₂.sound hk₂.typed h₃).1
    split_ifs at hr with hgrp
    · simp only [run_bind_iff, run_pure_iff] at hr
      obtain ⟨grp', w₄, h₄, ⟨⟩, w₅, h₅, rfl, rfl⟩ := hr
      have hk₄ := hk₃.views (views_getGroupFromEdit form) h₄
      have l₄ := (views_getGroupFromEdit form).looks hk₃.sound h₄
      have hready₄ := (hrec₃.getGroupFromEdit hk₃.sound hk₃.typed h₄).2
      have l₅ : Looks w₄ w₅ := .of_quiet (quiet_setRef hk₄.sound h₅)
      refine ⟨ht ▸ hacc ((l₃.trans l₄).trans l₅), fun info hinfo => ?_⟩
      obtain rfl := Option.some.inj hinfo
      obtain ⟨x, hx, hbare⟩ := Looks.plain (((views_getGroupFromEdit form).looks hk₂.sound h₃).trans l₄) hstud
      obtain ⟨s, rfl⟩ : ∃ s, x = .student s := by cases x <;> first | exact ⟨_, rfl⟩ | cases hbare
      refine ⟨hne, _, .setGroup hx h₅, fun q hq => ?_⟩
      cases grp' with
      | none => cases hq
      | some q' =>
        obtain rfl : q' = q := by simpa [Pointer.ofOption] using hq
        exact ⟨(hready₄ q' rfl).setGroup hk₄.sound hk₄.typed h₅, rfl⟩
    · obtain ⟨rfl, rfl⟩ := (run_pure_iff _).mp hr
      refine ⟨ht ▸ hacc l₃, fun info hinfo => ?_⟩
      obtain rfl := Option.some.inj hinfo
      exact ⟨hne, _, hdraft₃, fun q hq => by cases hq⟩
  | teacher =>
    simp only [ht, run_bind_iff, run_newObj_iff, run_pure_iff] at hr
    obtain ⟨_, _, ⟨rfl, rfl⟩, rfl, rfl⟩ := hr
    refine ⟨ht ▸ hacc (.push w₁ _), fun info hinfo => ?_⟩
    obtain rfl := Option.some.inj hinfo
    exact ⟨hne, _, ⟨_, Lib.Heap.get_push_next _ _, rfl⟩, fun q hq => by cases hq⟩
  | admin =>
    simp only [ht, run_pure_iff] at hr
    obtain ⟨rfl, rfl⟩ := hr
    exact ⟨ht ▸ hacc .refl, fun info hinfo => by cases hinfo⟩

/-- The account is assigned, its info so far is looked up, and an info is made whose group is ready. -/
theorem getAccountForDBUpdate {form : DisplayAccountWidget} {data : ℕ × Option ℕ × Option ℕ} (h : Keeping w)
    (hn : form.editType = .student → w.NoGroup form.editGroup.currentText ∨
      w.Receives form.editGroup.currentText ∧ w.Replaces form.acc)
    (hr : run form.getAccountForDBUpdate w = .ok (data, w')) : w'.OfType data.1 form.editType ∧
      ∀ info, data.2.2 = some info → ∃ v, w'.Drafts info v ∧ ∀ q, v = some (.to q) →
        w'.Ready q ∧ form.editType = .student ∧ ∀ p, data.2.1 = some p → p ∈ w'.cash .infos := by
  unfold DisplayAccountWidget.getAccountForDBUpdate at hr
  cases hacc : form.acc with
  | none => simp [hacc] at hr
  | some acc =>
    simp only [hacc, run_bind_iff] at hr
    obtain ⟨_, w₁, h₁, prev, w₂, h₂, hr⟩ := hr
    have hk₁ : Keeping w₁ := h.beside (K := fun _ => False) (does_assignAccount acc _ _ _ _ _ _ h₁) id id
    have hk₂ : Keeping w₂ := hk₁.views (views_getAdditionalInfo acc) h₂
    have l₂ : Looks w₁ w₂ := (views_getAdditionalInfo acc).looks hk₁.sound h₂
    simp only [DisplayAccountWidget.assignAccount, run_bind_iff, run_obj_iff] at h₁
    obtain ⟨⟨c, x⟩, _, ⟨hx, rfl⟩, h₁⟩ := h₁
    obtain ⟨a, rfl⟩ : ∃ a, x = .account a := by
      cases x <;> first | exact ⟨_, rfl⟩ | exact ((run_fault_iff _).mp h₁).elim
    obtain rfl := run_setObj_iff.mp h₁
    set w₁ := w.put acc ⟨c, .account { a with
      login := form.editLogin, password := form.editPassword, accountType := form.editType }⟩ with hw₁
    have hget₁ : w₁.heap.get acc = some ⟨c, .account { a with
        login := form.editLogin, password := form.editPassword, accountType := form.editType }⟩ := by
      rw [hw₁, Lib.Conf.get_put hx, if_pos rfl]
    have htype : w₁.OfType acc form.editType := by
      refine ⟨Lib.Heap.lt_next hget₁, fun c' a' ha => ?_⟩
      rw [hget₁] at ha
      obtain rfl := Fields.account.inj (Obj.mk.inj (Option.some.inj ha)).2
      rfl
    cases ht : form.editType with
    | student =>
      simp only [ht, run_bind_iff, run_pure_iff] at hr
      obtain ⟨info, w₃, h₃, grp, w₄, h₄, ⟨⟩, w₅, h₅, rfl, rfl⟩ := hr
      have hk₃ : Keeping w₃ :=
        hk₂.new (x := .studentInfo form.editFirstName form.editSecondName (toInt form.editCurs)) h₃
      obtain ⟨rfl, hw₃⟩ := run_newObj_iff.mp h₃
      have l₃ : Looks w₁ w₃ := l₂.trans (hw₃ ▸ Looks.push w₂ _)
      have hk₄ := hk₃.views (views_getGroupFromEdit form) h₄
      have l₄ := (views_getGroupFromEdit form).looks hk₃.sound h₄
      have l₅ : Looks w₄ w₅ := .of_quiet (quiet_setRef hk₄.sound h₅)
      refine ⟨ht ▸ ((htype.looks l₃).looks l₄).looks l₅, fun info hinfo => ?_⟩
      obtain rfl := Option.some.inj hinfo
      have hstud : w₃.heap.get w₂.heap.next = some ⟨none, .student
          { firstName := form.editFirstName, secondName := form.editSecondName, curs := toInt form.editCurs }⟩ := by
        rw [← hw₃]
        exact Lib.Heap.get_push_next _ _
      obtain ⟨x, hx', hbare⟩ := Looks.plain l₄ hstud
      obtain ⟨s, rfl⟩ : ∃ s, x = .student s := by cases x <;> first | exact ⟨_, rfl⟩ | cases hbare
      refine ⟨_, .setGroup hx' h₅, fun q hq => ?_⟩
      cases grp with
      | none => cases hq
      | some q' =>
        obtain rfl : q' = q := by simpa [Pointer.ofOption] using hq
        rcases hn ht with hno | ⟨hrec, hrep⟩
        · -- without a group of that name none is found
          cases ((hno.account hx).looks hk₁.sound l₃).getGroupFromEdit hk₃.sound h₄
        · have hrec₁ : w₁.Receives form.editGroup.currentText := by
            obtain ⟨Γ, hΓ⟩ := h.typed
            exact hrec.unmoved h.sound hk₁.sound hΓ (.put hx rfl fun g hg => by cases hg) rfl
          have hu : Unmoved w₁ w₂ := .getter (g := .getAdditionalInfo) hk₁.sound h₂
          have hgroups : w₂.cash .groups = w₁.cash .groups :=
            (quiet_getter (g := .getAdditionalInfo) hk₁.sound h₂).cash_eq (by simp [Getter.kind])
          have hrec₂ : w₂.Receives form.editGroup.currentText := by
            obtain ⟨Γ, hΓ⟩ := hk₁.typed
            exact hrec₁.unmoved hk₁.sound hk₂.sound hΓ hu hgroups
          have hrec₃ : w₃.Receives form.editGroup.currentText := by
            obtain ⟨Γ, hΓ⟩ := hk₂.typed
            refine hrec₂.unmoved hk₂.sound hk₃.sound hΓ (hw₃ ▸ Unmoved.push w₂ _) ?_
            rw [← hw₃]
            rfl
          have hready := (hrec₃.getGroupFromEdit hk₃.sound hk₃.typed h₄).2 q' rfl
          refine ⟨hready.setGroup hk₄.sound hk₄.typed h₅, rfl, fun p hp => ?_⟩
          refine Looks.mem_cash (((hw₃ ▸ Looks.push w₂ _ : Looks w₂ w₃).trans l₄).trans l₅) ?_
          have hgot := run_getter (g := .getAdditionalInfo) hk₁.sound h₂
          obtain rfl : prev = some p := hp
          rcases hgot.held_or_cached with href | hin
          · exact Looks.mem_cash l₂ (hrep acc p hacc ((refOf_of_get hx _).trans ((refOf_of_get hget₁ _).symm.trans href)))
          · exact hin
    | teacher =>
      simp only [ht, run_bind_iff, run_newObj_iff, run_pure_iff] at hr
      obtain ⟨_, _, ⟨rfl, rfl⟩, rfl, rfl⟩ := hr
      refine ⟨ht ▸ htype.looks (l₂.trans (Looks.push w₂ _)), fun info hinfo => ?_⟩
      obtain rfl := Option.some.inj hinfo
      exact ⟨_, ⟨_, Lib.Heap.get_push_next _ _, rfl⟩, fun q hq => by cases hq⟩
    | admin =>
      simp only [ht, run_pure_iff] at hr
      obtain ⟨rfl, rfl⟩ := hr
      exact ⟨ht ▸ htype.looks l₂, fun info hinfo => by cases hinfo⟩

/-- The info is given to the account, and joins its group if that is ready and the account is a student's. -/
theorem infoGiven {info? : Option ℕ} {acc : ℕ} {t : AccountType} (h : Keeping w) (hacc : w.OfType acc t)
    (hg : ∀ info, info? = some info → ∃ v, w.Drafts info v ∧ ∀ q, v = some (.to q) → w.Ready q ∧ t = .student)
    (hr : InfoGiven w info? acc w') : Keeping w' := by
  rcases hr with ⟨-, rfl⟩ | ⟨info, t', r, w₁, rfl, h₁, htype, h₂⟩
  · exact h
  · have hk₁ := h.beside (K := fun _ => False) (does_setRef _ _ _ _ _ _ h₁) id id
    obtain ⟨v, hdraft, hv⟩ := hg info rfl
    have hl : Looks w w₁ := .of_quiet (quiet_setRef h.sound h₁)
    obtain ⟨⟨c, a, ha, rfl⟩, -⟩ := run_accountType_iff.mp htype
    obtain rfl := (hacc.looks hl).2 c a ha
    have hjoins := (hdraft.setRef (by simp) h₁).joins fun q hq => by
      obtain ⟨hready, ht⟩ := hv q hq
      obtain ⟨o, _, oq, b, y, ho, -, -, -, hb, rfl⟩ := run_setRef_some_iff.mp h₁
      obtain ⟨Γ, hΓ⟩ := h.typed
      exact ⟨hready.unmoved h.sound hk₁.sound hΓ ((Unmoved.setRef ho .owner (.to acc)).trans (.own hb 1)) rfl, ht⟩
    obtain ⟨x, d, he, hx, hd, -, ha⟩ := run_infosAdd h₂
    obtain ⟨Γ, ht⟩ := hk₁.typed
    exact hk₁.acts (K := fun _ => True) (does_infosAdd trivial trivial trivial _ _ _ _ _ h₂)
      (hk₁.member.joined hk₁.sound hk₁.issued ht hjoins he hx hd ha)

theorem infoDeleted {info? : Option ℕ} (h : Keeping w) (hr : InfoDeleted w info? w') : Keeping w' := by
  rcases hr with ⟨rfl, rfl⟩ | ⟨info, b, r, rfl, hb, hdel⟩
  · exact h
  · exact h.acts (K := fun _ => True) (does_delete trivial _ _ _ _ hdel)
      ((Shrinks.of_deleted (run_delete h.sound hdel)).membership h.member)

/-- A new account whose info joins the group that the form names. -/
theorem addNewAccount {win win' : AdminWindow} (h : Keeping w)
    (hn : win.accountDisp.editType = .student → w.Receives win.accountDisp.editGroup.currentText)
    (hr : run win.addNewAccount w = .ok (win', w')) : Keeping w' := by
  obtain ⟨data, w₁, acc, w₂, w₃, h₁, h₂, h₃, h₄⟩ := run_addNewAccount hr
  have hk₁ := h.beside (K := fun _ => False) (does_getNewAccount _ _ _ _ h₁) id id
  have hk₂ := hk₁.beside (does_add (K := (· = Kind.accounts)) (by simp) rfl _ _ _ _ h₂) (by simp) (by simp)
  obtain ⟨⟨a, ha, htype⟩, hinfo⟩ := h.getNewAccount hn h₁
  have hcash : w₂.cash .groups = w₁.cash .groups := by
    obtain ⟨x, d, o, -, -, -, -, -, -, rfl⟩ := run_add_iff.mp h₂
    simp [Lib.Conf.cash_load]
  have hk₃ := hk₂.infoGiven (htype ▸ Lib.Conf.OfType.added ha h₂) (fun info hi => by
    obtain ⟨hne, v, hdraft, hv⟩ := hinfo info hi
    refine ⟨v, hdraft.added hne h₂, fun q hq => ?_⟩
    obtain ⟨hready, ht⟩ := hv q hq
    obtain ⟨Γ, hΓ⟩ := hk₁.typed
    exact ⟨hready.unmoved hk₁.sound hk₂.sound hΓ (.added h₂) hcash, ht⟩) h₃
  have tail : Views (do AdminWindow.updateAccountsTable; win.updateGroupsScrean none) :=
    .bind views_updateAccountsTable fun _ => views_updateGroupsScrean win none
  exact hk₃.views tail h₄

/-- An account whose new info joins the group that the form names. -/
theorem updateAccount {win win' : AdminWindow} (h : Keeping w)
    (hn : win.accountDisp.editType = .student → w.NoGroup win.accountDisp.editGroup.currentText ∨
      w.Receives win.accountDisp.editGroup.currentText ∧ w.Replaces win.accountDisp.acc)
    (hr : run win.updateAccount w = .ok (win', w')) : Keeping w' := by
  obtain ⟨data, w₁, r, w₂, w₃, w₄, h₁, h₂, h₃, h₄, h₅⟩ := run_updateAccount hr
  have hk₁ := h.beside (K := fun _ => False) (does_getAccountForDBUpdate _ _ _ _ h₁) id id
  have hk₂ := hk₁.beside (does_update (K := (· = Kind.accounts)) rfl _ _ _ _ h₂) (by simp) (by simp)
  have hk₃ := hk₂.infoDeleted h₃
  obtain ⟨htype, hinfo⟩ := h.getAccountForDBUpdate hn h₁
  have hcash₂ : w₂.cash = w₁.cash := by
    obtain ⟨-, -, -, -, -, -, -, -, hc, -⟩ := update_effect h₂
    exact hc
  have htype₃ : w₃.OfType data.1 win.accountDisp.editType := by
    rcases h₃ with ⟨-, rfl⟩ | ⟨p, b, r', -, -, h₃⟩
    · exact htype.updated h₂
    · exact (htype.updated h₂).deleted (run_delete hk₂.sound h₃)
  have hk₄ := hk₃.infoGiven htype₃ (fun info hi => by
    obtain ⟨v, hdraft, hv⟩ := hinfo info hi
    refine ⟨v, ?_, fun q hq => ?_⟩
    · rcases h₃ with ⟨-, rfl⟩ | ⟨p, b, r', -, -, h₃⟩
      · exact hdraft.updated h₂
      · exact (hdraft.updated h₂).deleted (run_delete hk₂.sound h₃)
    obtain ⟨hready, ht, hprev⟩ := hv q hq
    have hready₂ : w₂.Ready q := by
      obtain ⟨Γ, hΓ⟩ := hk₁.typed
      exact hready.unmoved hk₁.sound hk₂.sound hΓ (.updated h₂) (congrFun hcash₂ _)
    refine ⟨?_, ht⟩
    rcases h₃ with ⟨-, rfl⟩ | ⟨p, b, r', hp, hb, h₃⟩
    · exact hready₂
    · have hd := run_delete hk₂.sound h₃
      obtain ⟨y, hy⟩ := header_eq_ok.mp hb
      have hin : p ∈ w₂.cash .infos := hcash₂ ▸ hprev p hp
      obtain ⟨Γ, hΓ⟩ := hk₂.typed
      refine hready₂.unmoved hk₂.sound hk₃.sound hΓ (.deleted hd (cached_ne_none hin (Lib.Conf.idOf_of_get hy))) ?_
      obtain ⟨p', b', x', db, -, -, rfl, -⟩ := hd.effect
      simp [Lib.Conf.cash_setCash]) h₄
  exact hk₄.views views_updateAccountsTable h₅

end Keeping

end Cbt
