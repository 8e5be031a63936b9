import Cbt.Groups.Forms
import Cbt.Windows.Classes

/-! Whole runs. Every operation keeps the two sides of membership agreeing when the
lists it writes are those that are stored, and so does every slot of the window; what
has to hold is said of the state in which the client takes the step. -/

namespace Cbt

open Lib.Command (run_bind_iff run_pure_iff)

variable {w w' : World}

/-! ### Update -/

/-- A student's object lists its group when the group lists the student. -/
def Lib.Conf.Places (w : World) (el : ℕ) : Prop :=
  ∀ b s v o g, w.heap.get el = some ⟨some b, .student s⟩ → s.group.value w.heap = .ok v →
    w.stored .groups o = some g → (b.id ∈ g.members ↔ v = .oid o)

/-- Only a student's object writes the info of a student. -/
theorem student_of_written {h : Memory} {x : Fields} {d : Doc} {i : Oid} (hd : x.toDoc h = .ok d) (hx : x.kind = .infos)
    (hs : Doc.IsStudentInfo (("_id", .oid i) :: d)) : ∃ s, x = .student s := by
  obtain ⟨y, hy⟩ := hs
  obtain ⟨ref, m, -, rfl⟩ := toDoc_eq_ok.mp hd
  have hcurs := curs_of_student hy
  cases x with
  | student s => exact ⟨s, rfl⟩
  | additionalInfo => exact absurd rfl hcurs
  | teacher t => exact absurd rfl hcurs
  | _ => cases hx

theorem Membership.groupUpdated {el : ℕ} {r : Bool} (h : Membership w) (hi : Issued w) (hg : w.InStep el)
    (hr : run (Controller.update .groups el) w = .ok (r, w')) : Membership w' := by
  obtain ⟨b, x, d, hel, hx, hd, hs, -, -, -, hn, hst⟩ := update_effect hr
  obtain ⟨g, rfl⟩ : ∃ g, x = .group g := by cases x <;> first | exact ⟨_, rfl⟩ | cases hx
  obtain ⟨dg, hdg⟩ := Option.isSome_iff_exists.mp hs
  have hids := members_written hd b.id
  obtain ⟨hnodup, hmem⟩ := hg b g _ dg hel hids hdg
  have groups : ∀ {o d'}, w'.stored .groups o = some d' →
      (o = b.id ∧ d' = ("_id", .oid b.id) :: d) ∨ w.stored .groups o = some d' := by
    intro o d' hd'
    rw [hst] at hd'
    split_ifs at hd' with he
    · exact .inl ⟨he.2, (Option.some.inj hd').symm⟩
    · exact .inr hd'
  have infos : w'.stored .infos = w.stored .infos := by
    funext i
    rw [hst, if_neg (by simp)]
  refine ⟨fun o g' i s hg' hs' hsi _ => ?_, fun o g' hg' => ?_, fun o g' i hg' hin => ?_, fun i s o hs' ho => ?_⟩
  · rw [infos] at hs'
    rcases groups hg' with ⟨rfl, rfl⟩ | hg'
    · rw [hmem i s hs' hsi]
      exact h.both _ dg i s hdg hs' hsi trivial
    · exact h.both o g' i s hg' hs' hsi trivial
  · rcases groups hg' with ⟨rfl, rfl⟩ | hg'
    · exact hnodup
    · exact h.nodup o g' hg'
  · rw [hn]
    rcases groups hg' with ⟨rfl, rfl⟩ | hg'
    · exact hi.existingIds hids hin
    · exact h.given o g' i hg' hin
  · rw [hn]
    exact h.older i s o (infos ▸ hs') ho

theorem Membership.infoUpdated {el : ℕ} {r : Bool} (h : Membership w) (hi : Issued w) (hg : w.Places el)
    (hr : run (Controller.update .infos el) w = .ok (r, w')) : Membership w' := by
  obtain ⟨b, x, d, hel, hx, hd, hs, -, -, -, hn, hst⟩ := update_effect hr
  have groups : w'.stored .groups = w.stored .groups := by
    funext o
    rw [hst, if_neg (by simp)]
  have infos : ∀ {i d'}, w'.stored .infos i = some d' →
      (i = b.id ∧ d' = ("_id", .oid b.id) :: d) ∨ w.stored .infos i = some d' := by
    intro i d' hd'
    rw [hst] at hd'
    split_ifs at hd' with he
    · exact .inl ⟨he.2, (Option.some.inj hd').symm⟩
    · exact .inr hd'
  refine ⟨fun o g i s hg' hs' hsi _ => ?_, fun o g hg' => ?_, fun o g i hg' hin => ?_, fun i s o hs' ho => ?_⟩
  · rw [groups] at hg'
    rcases infos hs' with ⟨rfl, rfl⟩ | hs'
    · -- only a student's object writes a student's info
      obtain ⟨s, rfl⟩ := student_of_written hd hx hsi
      obtain ⟨-, v, hv, hget⟩ := group_written hd b.id
      rw [hg b s v o g hel hv hg', hget, Option.some.injEq]
    · exact h.both o g i s hg' hs' hsi trivial
  · exact h.nodup o g (groups ▸ hg')
  · rw [hn]
    exact h.given o g i (groups ▸ hg') hin
  · rw [hn]
    rcases infos hs' with ⟨rfl, rfl⟩ | hs'
    · obtain ⟨s, rfl, hv⟩ := group_of_written hd hx ho
      exact hi.value hv
    · exact h.older i s o hs' ho

/-! ### Operations -/

/-- What an operation needs for the two sides to go on agreeing. -/
def Action.KeepsMembership (w : World) : Action → Prop
  | .add .groups e _ => w.Founds e
  | .add .infos e t => w.Joins e t
  | .update .groups el => w.InStep el
  | .update .infos el => w.Places el
  | .addStudent this stud => w.Enrolls this stud
  | .deleteStudent this stud => ∀ i, w.idOf stud = some i → w.Parts this i
  | _ => True

/-- Every operation that has what it needs keeps the two sides agreeing. -/
theorem Outcome.membership {Γ : Classes} {a : Action} (h : Outcome w a w') (hw : Sound w) (hi : Issued w)
    (ht : WellTyped Γ w) (hm : Membership w) (hg : a.KeepsMembership w) : Membership w' := by
  have beside : ¬ a.writes .groups → ¬ a.writes .infos → a.Step w w' → Membership w' := fun hgr hin hs =>
    hm.acts hw (.single (.act a (fun _ hk => hk) hs)) hgr hin
  cases h with
  | quiet h => exact hm.of_env h.env
  | listed hc hl hq => exact hm.of_env hq.env
  | loggedIn => exact hm.of_env rfl
  | @added k e t x d o hk he hx hd ho =>
    have hl : Membership (w.post k e d) → Membership ((w.post k e d).load k (o.own 1)) := fun h => h.of_env rfl
    cases k with
    | infos => exact absurd rfl hk
    | groups => exact hl (hm.founded hi hg he hx hd)
    | accounts =>
      refine hl (hm.shrink (fun o d hd => ?_) (fun i d hd => ?_) (Nat.le_succ _)) <;>
        rwa [stored_post, if_neg (by simp)] at hd
    | schedules =>
      refine hl (hm.shrink (fun o d hd => ?_) (fun i d hd => ?_) (Nat.le_succ _)) <;>
        rwa [stored_post, if_neg (by simp)] at hd
  | infoAdded he hx hd h => exact hm.joined hw hi ht hg he hx hd h
  | deleted h => exact (Shrinks.of_deleted h).membership hm
  | @updated k el _ h =>
    cases k with
    | groups => exact hm.groupUpdated hi hg h
    | infos => exact hm.infoUpdated hi hg h
    | accounts => exact hm.acts hw (does_update (K := (· = Kind.accounts)) rfl _ _ _ _ h) (by simp) (by simp)
    | schedules => exact hm.acts hw (does_update (K := (· = Kind.schedules)) rfl _ _ _ _ h) (by simp) (by simp)
  | enrolled h => exact (hm.mono fun _ _ => trivial).enrolled hi hg h
  | @expelled this stud _ h =>
    obtain ⟨bg, bs, g, s, l₁, p, l₂, hget, hs, hl, -, hp, -⟩ := h.moved
    have hid := Lib.Conf.idOf_of_get hs
    exact hm.expelled hi hid (hg _ hid ⟨_, g, p, hget, by simp [hl], hp⟩) h

/-! ### Events -/

/-- What an event needs for the two sides to go on agreeing. -/
def Event.KeepsMembership : Event → Client → Prop
  | .call a, c => a.KeepsMembership c.world
  | .slot (.addAccToGroup acc), c => ∀ group, c.win.group = some group → c.world.Listed group acc ∨ c.world.Takes group acc
  | .slot (.deleteAccFromGroup acc), c => (∃ b a, c.world.heap.get acc = some ⟨some b, .account a⟩) ∧
    ∀ group i, c.win.group = some group → c.world.namedBy acc .additionalInfo = some i → c.world.Parts group i
  | .slot .addNewAccount, c =>
    c.win.accountDisp.editType = .student → c.world.Receives c.win.accountDisp.editGroup.currentText
  | .slot .updateAccount, c =>
    c.win.accountDisp.editType = .student → c.world.NoGroup c.win.accountDisp.editGroup.currentText ∨
      c.world.Receives c.win.accountDisp.editGroup.currentText ∧ c.world.Replaces c.win.accountDisp.acc
  | _, _ => True

/-- The lessons of a teacher are stored in no student's info. -/
theorem Keeping.storeClasses {this : ℕ} {l : List String} {u : Unit} (h : Keeping w)
    (hr : run (AdminWindow.storeClasses this l) w = .ok (u, w')) : Keeping w' := by
  obtain ⟨_, w₁, h₁, hr⟩ := (run_bind_iff _).mp hr
  obtain ⟨_, w₂, h₂, hr⟩ := (run_bind_iff _).mp hr
  have hk₁ := h.beside (K := fun _ => False) (does_assignScalar _ _ _ _ _ h₁) id id
  have hplaces : w₁.Places this := by
    intro b s v o g hs _ _
    simp only [assignScalar, run_bind_iff, run_obj_iff] at h₁
    obtain ⟨⟨c, x⟩, _, ⟨hx, rfl⟩, h₁⟩ := h₁
    cases x <;> simp only [Scalar.set, Lib.Command.run_fault_iff, run_setObj_iff] at h₁
    obtain rfl := h₁
    rw [Lib.Conf.get_put hx, if_pos rfl] at hs
    cases hs
  have hk₂ := hk₁.acts (does_update (K := (· = Kind.infos)) rfl _ _ _ _ h₂)
    (hk₁.member.infoUpdated hk₁.issued hplaces h₂)
  have tail : Views (do let _ ← PosibleLessonsTable.getLessonsTypes (some this) : Cmd Unit) :=
    .bind (views_getLessonsTypes _) fun _ => .pure _
  exact hk₂.beside (K := fun _ => False) (Does.of_views tail _ _ _ hr) id id

theorem Keeping.addClass {teacher : Option ℕ} {text : String} {u : Unit} (h : Keeping w)
    (hr : run (AdminWindow.addClass teacher text) w = .ok (u, w')) : Keeping w' := by
  cases teacher with
  | none => exact (run_pure_iff _).mp hr |>.2 ▸ h
  | some this =>
    by_cases htext : text = ""
    · subst htext
      exact (run_pure_iff _).mp hr |>.2 ▸ h
    · rw [AdminWindow.addClass_eq htext] at hr
      obtain ⟨t, _, ht, hr⟩ := (run_bind_iff _).mp hr
      obtain ⟨-, rfl⟩ := run_teacherOf_iff.mp ht
      exact h.storeClasses hr

theorem Keeping.deleteClass {teacher : Option ℕ} {text : String} {u : Unit} (h : Keeping w)
    (hr : run (AdminWindow.deleteClass teacher text) w = .ok (u, w')) : Keeping w' := by
  cases teacher with
  | none => exact (run_pure_iff _).mp hr |>.2 ▸ h
  | some this =>
    by_cases htext : text = ""
    · subst htext
      exact (run_pure_iff _).mp hr |>.2 ▸ h
    · rw [AdminWindow.deleteClass_eq htext] at hr
      obtain ⟨t, _, ht, hr⟩ := (run_bind_iff _).mp hr
      obtain ⟨-, rfl⟩ := run_teacherOf_iff.mp ht
      dsimp only at hr
      split_ifs at hr
      · exact (run_pure_iff _).mp hr |>.2 ▸ h
      · exact h.storeClasses hr

/-- Every slot that has what it needs keeps the two sides agreeing. -/
theorem Keeping.slot {s : Slot} {c : Client} {win' : AdminWindow} (h : Keeping c.world) (hlt : c.GroupBelow)
    (hg : (Event.slot s).KeepsMembership c) (hr : run (s.cmd c.win) c.world = .ok (win', w')) : Keeping w' := by
  have hacts := does_slot s c.win _ _ _ hr
  obtain ⟨Γ, ht⟩ := h.typed
  cases s with
  | addNewAccount => exact h.addNewAccount hg hr
  | updateAccount => exact h.updateAccount hg hr
  | deleteAccount => exact h.acts hacts ((shrinks_deleteAccount h.sound hr).membership h.member)
  | addNewGroup => exact h.acts hacts (h.member.addNewGroup h.sound h.issued hr)
  | deleteGroup => exact h.acts hacts ((shrinks_deleteGroup h.sound hr).membership h.member)
  | addClass text =>
    obtain ⟨_, _, hr, hr'⟩ := (run_bind_iff _).mp hr
    exact (run_pure_iff _).mp hr' |>.2 ▸ h.addClass hr
  | deleteClass text =>
    obtain ⟨_, _, hr, hr'⟩ := (run_bind_iff _).mp hr
    exact (run_pure_iff _).mp hr' |>.2 ▸ h.deleteClass hr
  | addAccToGroup acc => exact h.acts hacts (h.member.addAccToGroup h.sound h.issued ht hg hr)
  | deleteAccFromGroup acc => exact h.acts hacts (h.member.deleteAccFromGroup h.sound h.issued ht hlt hg.1 hg.2 hr)
  | addSchedule str rowIndex => exact h.beside hacts (by simp [Slot.writes]) (by simp [Slot.writes])
  | deleteSchedule acc => exact h.beside hacts (by simp [Slot.writes]) (by simp [Slot.writes])
  | _ => exact h.beside hacts (by simp [Slot.writes]) (by simp [Slot.writes])

/-- Every event that has what it needs keeps the two sides agreeing. -/
theorem Keeping.step {e : Event} {c c' : Client} (h : Keeping c.world) (hlt : c.GroupBelow) (hg : e.KeepsMembership c)
    (hs : e.Step c c') : Keeping c'.world := by
  cases e with
  | slot s => exact h.slot hlt hg hs
  | input i => exact h.beside (K := fun _ => False) (Does.of_views (views_input i c.win) _ _ _ hs) id id
  | logIn state login password date =>
    obtain ⟨-, o, hr⟩ := hs
    exact h.beside (does_logIn (K := (· = Kind.accounts)) state (fun _ => rfl) _ login password _ _ _ hr) (by simp) (by simp)
  | call a =>
    obtain ⟨Γ, ht⟩ := h.typed
    exact h.acts (.single (.act a (fun _ hk => hk) hs.2))
      ((outcome_of_step h.sound hs.2).membership h.sound h.issued ht h.member hg)
  | restart date =>
    obtain rfl := hs
    exact ⟨h.member.of_env rfl, sound_start _, registered_start _, _, wellTyped_start _⟩

end Cbt
