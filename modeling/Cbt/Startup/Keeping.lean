import Cbt.Groups.Runs
import Cbt.Sharing.Interleavings
import Cbt.Startup.Tables

/-! What keeps the accounts listable. A write to the infos either leaves a stored info as it
is or stores a student's or a teacher's in its place; as an id never changes its class, the
accounts that could be listed still can. So it is for the lessons of a teacher, and for the
students that join a group or leave it. -/

namespace Cbt

open Lib.Command (run_bind_iff run_pure_iff run_fault_iff)

variable {κ κ' : Names} {db db' db₁ : Database} {w w₁ w' : World} {d : Doc} {C C' : DBClass → Prop}

/-- Each stored info stays as it is, or one of a class of `C` is stored in its place. -/
def Database.KeepsInfos (C : DBClass → Prop) (db db' : Database) : Prop :=
  ∀ i d, db.get? .infos i = some d → ∃ d', db'.get? .infos i = some d' ∧ (d' = d ∨ ∃ c, C c ∧ c.Reads .infos d')

namespace Database.KeepsInfos

theorem of_eq (h : ∀ i, db'.get? .infos i = db.get? .infos i) : db.KeepsInfos C db' :=
  fun i d hd => ⟨d, (h i).trans hd, .inl rfl⟩

theorem of_env (h : w'.env = w.env) : w.env.KeepsInfos C w'.env := of_eq fun _ => by rw [h]

theorem mono (hC : ∀ c, C c → C' c) (h : db.KeepsInfos C db') : db.KeepsInfos C' db' := by
  intro i d hd
  obtain ⟨d', hd', hr⟩ := h i d hd
  exact ⟨d', hd', hr.imp_right fun ⟨c, hc, hr⟩ => ⟨c, hC c hc, hr⟩⟩

theorem trans (h : db.KeepsInfos C db₁) (h' : db₁.KeepsInfos C db') : db.KeepsInfos C db' := by
  intro i d hd
  obtain ⟨d₁, hd₁, hr⟩ := h i d hd
  obtain ⟨d₂, hd₂, rfl | hr'⟩ := h' i d₁ hd₁
  · exact ⟨_, hd₂, hr⟩
  · exact ⟨d₂, hd₂, .inr hr'⟩

end Database.KeepsInfos

/-! ### The accounts -/

theorem infoClass_ne {c : DBClass} (h : d.infoClass = some c) : c.kind = .infos ∧ c ≠ .additionalInfoDB := by
  unfold Doc.infoClass at h
  split at h
  · rename_i a _
    cases ht : a.accountType <;> simp only [ht, InfosController.classOf, Option.some.injEq, reduceCtorEq] at h <;> subst h <;>
      exact ⟨rfl, by simp⟩
  · cases h

/-- The accounts that could be listed still can, and so can every account when the others can. -/
theorem Database.Presentable.keep (hp : db.Presentable) (hn : Named κ db) (hn' : Named κ' db') (hκ : κ ≤ κ')
    (hi : db.KeepsInfos C db')
    (ha : ∀ i d, db'.get? .accounts i = some d → db.get? .accounts i = some d ∨ db'.Listable d) : db'.Presentable := by
  intro i d hd
  rcases ha i d hd with hd | hl
  · intro c hc
    obtain ⟨d₁, x, hf, hx⟩ := hp i d hd c hc
    obtain ⟨v, hv, hj⟩ := Option.bind_eq_some_iff.mp hf
    obtain ⟨d₂, hd₂, rfl | ⟨c', -, hc'⟩⟩ := hi v d₁ hj
    · exact ⟨d₂, x, by rw [Database.follow, hv]; exact hd₂, hx⟩
    · -- the class of the id is the one it had
      have hcls : κ.cls v = some c := hn.cls_of_reads hj ⟨(infoClass_ne hc).1, (infoClass_ne hc).2, x, hx⟩
      obtain rfl : c' = c := Option.some.inj ((hn'.cls_of_reads hd₂ hc').symm.trans (hκ v c hcls))
      obtain ⟨y, hy⟩ := hc'.2.2
      exact ⟨d₂, y, by rw [Database.follow, hv]; exact hd₂, hy⟩
  · exact hl

/-! ### Documents of infos -/

/-- What an info's object writes is read as of its class. -/
theorem reads_written {h : Memory} {x : Fields} (hx : x.kind = .infos) (hc : x.cls ≠ .additionalInfoDB) (hd : x.toDoc h = .ok d)
    (i : Oid) : x.cls.Reads .infos (("_id", .oid i) :: d) := by
  obtain ⟨ref, m, -, rfl⟩ := toDoc_eq_ok.mp hd
  exact ⟨by rw [Fields.kind_cls, hx], hc, _, fields_written x ref m i⟩

theorem keepsInfos_updated {p : ℕ} {b : IFromDB} {x : Fields} {r : Bool} (hp : w.heap.get p = some ⟨some b, x⟩)
    (hc : x.cls ≠ .additionalInfoDB) (h : run (Controller.update .infos p) w = .ok (r, w')) :
    w.env.KeepsInfos (· = x.cls) w'.env ∧ ∀ i, w'.stored .accounts i = w.stored .accounts i := by
  obtain ⟨b', x', d', hp', hx, hd', -, -, -, -, -, hst⟩ := update_effect h
  obtain ⟨rfl, rfl⟩ : b = b' ∧ x = x' := by simpa [hp] using hp'
  refine ⟨fun i d hd => ?_, fun i => by rw [hst, if_neg (by simp)]⟩
  by_cases hi : i = b.id
  · exact ⟨_, (hst .infos i).trans (if_pos ⟨rfl, hi⟩), .inr ⟨_, rfl, reads_written hx hc hd' _⟩⟩
  · exact ⟨d, ((hst .infos i).trans (if_neg fun h => hi h.2)).trans hd, .inl rfl⟩

/-- A student joins a group or leaves it. -/
theorem Moved.keepsInfos {this stud : ℕ} {bg bs : IFromDB} {g : Group} {s : StudentInfo} {students : List ℕ} {group : Pointer}
    (h : Moved w this stud bg bs g s students group w') :
    w.env.KeepsInfos (· = .studentInfoDB) w'.env ∧ ∀ i, w'.stored .accounts i = w.stored .accounts i := by
  obtain ⟨dg, ds, -, hds, hst, -⟩ := h.docs
  refine ⟨fun i d hd => ?_, fun i => by rw [hst, if_neg (by simp), if_neg (by simp)]⟩
  have hi : w'.stored .infos i = if i = bs.id then some (("_id", .oid bs.id) :: ds) else w.stored .infos i := by
    simpa using hst .infos i
  by_cases he : i = bs.id
  · have hr := reads_written (x := .student { s with group }) rfl (by simp [Fields.cls]) hds bs.id
    exact ⟨_, hi.trans (if_pos he), .inr ⟨_, rfl, hr⟩⟩
  · exact ⟨d, (hi.trans (if_neg he)).trans hd, .inl rfl⟩

/-! ### The commands -/

/-- What a command does that stores no account and loses no info. -/
def Safe (w w' : World) : Prop :=
  w.env.KeepsInfos (fun _ => True) w'.env ∧ ∀ i, w'.stored .accounts i = w.stored .accounts i

namespace Safe

theorem trans (h : Safe w w₁) (h' : Safe w₁ w') : Safe w w' := ⟨h.1.trans h'.1, fun i => (h'.2 i).trans (h.2 i)⟩

theorem of_looks (h : Looks w w') : Safe w w' := ⟨.of_env h.env, fun i => by rw [h.stored]⟩

theorem of_acts {K : Kind → Prop} (h : Acts K w w') (hw : Sound w) (ha : ¬ K .accounts) (hi : ¬ K .infos) : Safe w w' :=
  ⟨.of_eq fun i => congrFun (h.stored hw hi) i, fun i => congrFun (h.stored hw ha) i⟩

theorem of_kept (h : w.env.KeepsInfos C w'.env ∧ ∀ i, w'.stored .accounts i = w.stored .accounts i) : Safe w w' :=
  ⟨h.1.mono fun _ _ => trivial, h.2⟩

theorem enrolled {this stud : ℕ} (h : Enrolled w this stud w') : Safe w w' := by
  obtain ⟨bg, bs, g, s, -, -, hm⟩ := h.moved
  exact of_kept hm.keepsInfos

theorem expelled {this stud : ℕ} (h : Expelled w this stud w') : Safe w w' := by
  obtain ⟨bg, bs, g, s, l₁, p, l₂, -, -, -, -, -, hm⟩ := h.moved
  exact of_kept hm.keepsInfos

/-- The lessons of a teacher are stored. -/
theorem storeClasses {this : ℕ} {l : List String} {u : Unit} (hw : Sound w)
    (hr : run (AdminWindow.storeClasses this l) w = .ok (u, w')) : Safe w w' := by
  obtain ⟨_, w₁, h₁, hr⟩ := (run_bind_iff _).mp hr
  obtain ⟨r, w₂, h₂, hr⟩ := (run_bind_iff _).mp hr
  have a₁ := does_assignScalar (K := fun _ => False) _ _ _ _ _ h₁
  have hw₁ := Acts.sound a₁ hw
  have hw₂ := (does_update (K := (· = Kind.infos)) rfl _ _ _ _ h₂).sound hw₁
  obtain ⟨b, x, -, hx, -⟩ := update_effect h₂
  have hteach : x.cls ≠ .additionalInfoDB := by
    simp only [assignScalar, run_bind_iff, run_obj_iff] at h₁
    obtain ⟨⟨c, y⟩, _, ⟨hy, rfl⟩, h₁⟩ := h₁
    cases y <;> simp only [Scalar.set, run_fault_iff, run_setObj_iff] at h₁
    obtain rfl := h₁
    rw [Lib.Conf.get_put hy, if_pos rfl] at hx
    obtain rfl := (Obj.mk.inj (Option.some.inj hx)).2
    simp [Fields.cls]
  have tail : Views (do let _ ← PosibleLessonsTable.getLessonsTypes (some this) : Cmd Unit) :=
    .bind (views_getLessonsTypes _) fun _ => .pure _
  exact ((of_acts a₁ hw id id).trans (of_kept (keepsInfos_updated hx hteach h₂))).trans (of_looks (tail.looks hw₂ hr))

theorem addClass {teacher : Option ℕ} {text : String} {u : Unit} (hw : Sound w)
    (hr : run (AdminWindow.addClass teacher text) w = .ok (u, w')) : Safe w w' := by
  cases teacher with
  | none => exact (run_pure_iff _).mp hr |>.2 ▸ of_looks .refl
  | some this =>
    by_cases htext : text = ""
    · subst htext
      exact (run_pure_iff _).mp hr |>.2 ▸ of_looks .refl
    · rw [AdminWindow.addClass_eq htext] at hr
      obtain ⟨t, _, ht, hr⟩ := (run_bind_iff _).mp hr
      obtain ⟨-, rfl⟩ := run_teacherOf_iff.mp ht
      exact storeClasses hw hr

theorem deleteClass {teacher : Option ℕ} {text : String} {u : Unit} (hw : Sound w)
    (hr : run (AdminWindow.deleteClass teacher text) w = .ok (u, w')) : Safe w w' := by
  cases teacher with
  | none => exact (run_pure_iff _).mp hr |>.2 ▸ of_looks .refl
  | some this =>
    by_cases htext : text = ""
    · subst htext
      exact (run_pure_iff _).mp hr |>.2 ▸ of_looks .refl
    · rw [AdminWindow.deleteClass_eq htext] at hr
      obtain ⟨t, _, ht, hr⟩ := (run_bind_iff _).mp hr
      obtain ⟨-, rfl⟩ := run_teacherOf_iff.mp ht
      dsimp only at hr
      split_ifs at hr
      · exact (run_pure_iff _).mp hr |>.2 ▸ of_looks .refl
      · exact storeClasses hw hr

theorem addAccToGroup {win win' : AdminWindow} {acc : ℕ} (hw : Sound w) (hr : run (win.addAccToGroup acc) w = .ok (win', w')) :
    Safe w w' := by
  unfold AdminWindow.addAccToGroup at hr
  cases hg : win.group with
  | none =>
    simp only [hg, run_pure_iff] at hr
    exact hr.2 ▸ of_looks .refl
  | some group =>
    simp only [hg] at hr
    obtain ⟨l, w₁, h₁, hr⟩ := (run_bind_iff _).mp hr
    obtain ⟨r, w₂, h₂, hr⟩ := (run_bind_iff _).mp hr
    have hl₁ : Looks w w₁ := (views_getStudents group).looks hw h₁
    have hl₂ : Looks w w₂ := hl₁.trans ((views_hasAccount acc l).looks (hl₁.sound hw) h₂)
    split_ifs at hr
    · exact (run_pure_iff _).mp hr |>.2 ▸ of_looks hl₂
    obtain ⟨stud?, w₃, h₃, hr⟩ := (run_bind_iff _).mp hr
    obtain ⟨_, w₄, h₄, h₅⟩ := (run_bind_iff _).mp hr
    have hl₃ : Looks w w₃ := hl₂.trans ((views_studentInfoOf acc).looks (hl₂.sound hw) h₃)
    cases stud? with
    | none => exact ((run_fault_iff _).mp h₄).elim
    | some stud =>
      have hw₄ := (does_addStudent (K := fun _ => True) trivial trivial _ _ _ _ _ h₄).sound (hl₃.sound hw)
      obtain ⟨-, he⟩ := run_addStudent_iff.mp h₄
      exact ((of_looks hl₃).trans (enrolled he)).trans (of_looks ((views_updateGroupsScrean _ _).looks hw₄ h₅))

theorem deleteAccFromGroup {win win' : AdminWindow} {acc : ℕ} (hw : Sound w)
    (hr : run (win.deleteAccFromGroup acc) w = .ok (win', w')) : Safe w w' := by
  unfold AdminWindow.deleteAccFromGroup at hr
  cases hg : win.group with
  | none =>
    rw [hg] at hr
    exact of_looks ((views_updateGroupsScrean _ _).looks hw hr)
  | some group =>
    rw [hg] at hr
    obtain ⟨stud?, w₁, h₁, hr⟩ := (run_bind_iff _).mp hr
    obtain ⟨r, w₂, h₂, h₃⟩ := (run_bind_iff _).mp hr
    have hl₁ : Looks w w₁ := (views_studentInfoOf acc).looks hw h₁
    have hw₂ := (does_deleteStudent (K := fun _ => True) trivial trivial _ _ _ _ _ h₂).sound (hl₁.sound hw)
    suffices hs : Safe w₁ w₂ from ((of_looks hl₁).trans hs).trans (of_looks ((views_updateGroupsScrean _ _).looks hw₂ h₃))
    cases stud? with
    | none =>
      -- without students the argument is not looked at
      obtain ⟨g, _, hg', h₂⟩ := (run_bind_iff _).mp h₂
      obtain ⟨-, rfl⟩ := run_groupOf_iff.mp hg'
      cases hst : g.students with
      | nil =>
        simp only [hst, run_pure_iff] at h₂
        exact h₂.2 ▸ of_looks .refl
      | cons q l =>
        rw [hst] at h₂
        exact ((run_fault_iff _).mp h₂).elim
    | some stud =>
      rcases run_deleteStudent h₂ with ⟨-, he⟩ | ⟨-, rfl⟩
      · exact expelled he
      · exact of_looks .refl

end Safe

end Cbt
