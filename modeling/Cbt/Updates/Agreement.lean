import Cbt.Updates.Adding

/-! What `Update` keeps, in every state that a run reaches: called directly, by
`AddClass`, by `addStudent` and by `Add` of the infos, after any session of edits
of the objects that are stored. -/

namespace Cbt

open Lib.Command (run_bind_iff run_pure_iff run_fault_iff run_ofExcept_iff fault)

variable {w w₁ w' : World}

/-! ### Every run -/

/-- `Update` after edits of one object. -/
def UpdateAgrees (w : World) : Prop :=
  ∀ p b x es, Fresh w p b x → (∀ e ∈ es, Edit.Fits w x e) →
    ∃ w₁ w', run (edits (es.map fun e => (p, e))) w = .ok ((), w₁) ∧
      run (Controller.update x.kind p) w₁ = .ok (true, w') ∧
      (w'.Agrees x.kind b (touched es) ↔ KeptRefs w p b x es (touched es) ∧ KeptMembers w b x es)

/-- `AddClass` after edits of a teacher. -/
def AddClassAgrees (w : World) : Prop :=
  ∀ p b t es text, Fresh w p b (.teacher t) → (∀ e ∈ es, Edit.Fits w (.teacher t) e) → text ≠ "" →
    ∃ w₁ w', run (edits (es.map fun e => (p, e))) w = .ok ((), w₁) ∧
      run (AdminWindow.addClass (some p) text) w₁ = .ok ((), w') ∧
      (w'.Agrees .infos b (touched es ++ ["LessonsTypes"]) ↔
        KeptRefs w p b (.teacher t) es (touched es ++ ["LessonsTypes"]))

/-- `addStudent` after edits of the group and the student. -/
def AddStudentAgrees (w : World) : Prop :=
  ∀ P es g s bg bs xg xs, Session w P es → P g bg (.group xg) → P s bs (.student xs) →
    ∃ w₁ w', run (edits es) w = .ok ((), w₁) ∧ run (GroupDB.addStudent g (some s)) w₁ = .ok (true, w') ∧
      (w'.Agrees .groups bg (touched (editsOf g es) ++ ["Members"]) ↔
        KeptRefs w g bg (.group xg) (editsOf g es) (touched (editsOf g es) ++ ["Members"])) ∧
      (w'.Gains bg bs.id ↔ bg.doc.members = [] ∨ MembersListed w bg (editsOf g es)) ∧
      (w'.Agrees .infos bs (touched (editsOf s es) ++ ["Group"]) ↔
        KeptRefs w s bs (.student xs) (editsOf s es) (touched (editsOf s es) ++ ["Group"]))

/-- `Add` of an info after edits of what it meets: it returns; the owner keeps all but its info, and a group and the
student keep what they keep when `addStudent` stores them. -/
def AddAgrees (w : World) : Prop :=
  ∀ P es, Session w P es → ∃ w₁, run (edits es) w = .ok ((), w₁) ∧
    ∀ e x t i pa ba a esa, Ready w₁ e x t i → Meets w₁ P es .accounts i pa ba (.account a) esa →
      (∀ r w', run (InfosController.add e t) w₁ = .ok (r, w') →
        w'.Agrees .accounts ba (touched esa ++ ["AdditionalInfo"])) ∧
      ((∀ s, x = .student s → s.group.value w₁.heap = .ok nullValue) →
        ∃ r w', run (InfosController.add e t) w₁ = .ok (r, w')) ∧
      ∀ s j pg bg xg esg, x = .student s → s.group.value w₁.heap = .ok (.oid j) →
        Meets w₁ P es .groups j pg bg (.group xg) esg → ∃ r w', run (InfosController.add e t) w₁ = .ok (r, w') ∧
          (w'.Agrees .groups bg (touched esg ++ ["Members"]) ↔ KeptRefs w pg bg (.group xg) esg (touched esg ++ ["Members"])) ∧
          (w'.Gains bg w₁.env.nextOid ↔ bg.doc.members = [] ∨ MembersListed w bg esg) ∧
          ∃ d, x.toDoc w₁.heap = .ok d ∧
            w'.Agrees .infos { doc := Collection.withId w₁.env.nextOid d, id := w₁.env.nextOid } ["Group"]

theorem updateAgrees (hw : Sound w) : UpdateAgrees w := by
  intro p b x es hF hes
  obtain ⟨w₁, n, y, hrun, hE, h, hset⟩ := run_edits_one hw hF hes
  obtain ⟨w', hupd, hiff⟩ := h.update hw hF hE hset
  exact ⟨w₁, w', hrun, hupd, hiff⟩

theorem addAgrees (hw : Sound w) : AddAgrees w := by
  intro P es hes
  obtain ⟨w₁, hrun, hE, hed, -⟩ := run_edits hw hes.fresh hes.fits
  refine ⟨w₁, hrun, fun e x t i pa ba a esa hready hm => ⟨fun r w' => ?_, fun hnull => ?_, ?_⟩⟩
  · exact hes.owner hw hE hed hready hm
  · exact hes.added hw hE hed hready hm fun s hx => .inl (hnull s hx)
  · intro s j pg bg xg esg hx hgroup hm'
    obtain ⟨r, w', h⟩ : ∃ r w', run (InfosController.add e t) w₁ = .ok (r, w') := by
      refine hes.added hw hE hed hready hm fun s' hx' => .inr ⟨j, pg, bg, xg, esg, ?_, hm'⟩
      obtain rfl := Fields.student.inj (hx.symm.trans hx')
      exact hgroup
    exact ⟨r, w', h, hes.group hw hE hed hready hx hm' hgroup h⟩

/-- In every state a run reaches, the document that `Update` stores, called directly or by its callers, agrees with the
one its object was built from on what nothing touched, exactly if the getters of what is named there were called. -/
theorem agrees_of_run {db : Database} {as : List Action} (hr : Lib.Run Action.Step Lib.Free (World.start db) as w) :
    UpdateAgrees w ∧ AddClassAgrees w ∧ AddStudentAgrees w ∧ AddAgrees w := by
  have hw := sound_of_run hr
  refine ⟨updateAgrees hw, ?_, ?_, addAgrees hw⟩
  · exact fun p b t es text hF hes htext => agrees_addClass hw hF hes htext
  · exact fun P es g s bg bs xg xs hes hPg hPs => agrees_addStudent hw hes hPg hPs

/-- A group with a curator and a member. -/
def oneMember : Database :=
  ((Database.empty.insert .infos [("FirstName", .string "first"), ("SecondName", .string "second"), ("Owner", nullValue),
    ("Faculty", .string "faculty"), ("LessonsTypes", .array [])]).insert .infos [("FirstName", .string "first"),
      ("SecondName", .string "second"), ("Owner", nullValue), ("Curs", .int32 1), ("Group", .oid 2)]).insert .groups
        [("Name", .string "name"), ("Curator", .oid 0), ("Members", .array [.oid 1])]

/-- The group when it was just loaded. -/
theorem fresh_oneMember : ∃ w b, (Action.getFromDB .groups 2 .admin).next? (World.start oneMember) = some w ∧
    Fresh w 0 b (.group { name := "name" }) ∧ b.doc.get? "Members" = some (.array [.oid 1]) ∧
      ∀ i, w.cached .infos i = none := by
  have hplay : ((Action.getFromDB .groups 2 .admin).next? (World.start oneMember)).any (fun w =>
      w.heap.get 0 = some ⟨some { ownedCount := 1, id := 2, doc := [("_id", .oid 2), ("Name", .string "name"), ("Curator", .oid 0),
        ("Members", .array [.oid 1])] }, .group { name := "name" }⟩ ∧ w.cash .infos = [] ∧
      w.stored .groups 2 = some [("_id", .oid 2), ("Name", .string "name"), ("Curator", .oid 0), ("Members", .array [.oid 1])] ∧
      w.stored .infos 0 = some [("_id", .oid 0), ("FirstName", .string "first"), ("SecondName", .string "second"),
        ("Owner", nullValue), ("Faculty", .string "faculty"), ("LessonsTypes", .array [])] ∧
      w.stored .infos 1 = some [("_id", .oid 1), ("FirstName", .string "first"), ("SecondName", .string "second"),
        ("Owner", nullValue), ("Curs", .int32 1), ("Group", .oid 2)]) = true := by decide
  obtain ⟨w, hw, hc⟩ := Option.any_eq_true .. |>.mp hplay
  obtain ⟨hget, hcash, hgrp, hteach, hstud⟩ := of_decide_eq_true hc
  have hteacher : w.Entity .teacherInfoDB 0 := by
    refine ⟨_, hteach, .inr ⟨⟨⟨_, rfl⟩, ?_⟩, by decide⟩, ⟨⟨_, rfl⟩, ?_⟩⟩ <;> simp [DBClass.refs, RefField.key]
  have hstudent : w.Entity .studentInfoDB 1 := by
    refine ⟨_, hstud, .inl ⟨⟨⟨_, rfl⟩, ?_⟩, by decide⟩, ⟨⟨_, rfl⟩, ?_⟩⟩ <;> simp [DBClass.refs, RefField.key]
  refine ⟨w, _, hw, ⟨hget, rfl, rfl, by decide, hgrp, ⟨fun _ => .oid 0, .array [.oid 1], fun _ => rfl⟩, ?_, ?_⟩, rfl, ?_⟩
  · intro f hf
    obtain rfl : f = .curator := by simpa [Fields.cls, DBClass.refs] using hf
    exact .inr ⟨0, .teacherInfoDB, rfl, rfl, hteacher⟩
  · refine fun _ => ⟨_, rfl, .inr ⟨[1], rfl⟩, fun i hi => ?_⟩
    obtain rfl : i = 1 := by simpa [Doc.members, Element.oid?] using hi
    exact hstudent
  · intro i
    simp [Lib.Conf.cached, hcash]

/-- The group is renamed after its curator and its students were asked for, and keeps them. -/
theorem agrees_of_getters : ∃ w w₁ w' b, w.heap.get 0 = some ⟨some b, .group { name := "name" }⟩ ∧
    run (edits [(0, .get .getCurator), (0, .getStudents), (0, .assign (.name "other"))]) w = .ok ((), w₁) ∧
      run (Controller.update .groups 0) w₁ = .ok (true, w') ∧ w'.Agrees .groups b ["Name"] := by
  obtain ⟨w, b, hw, hF, hm, hc⟩ := fresh_oneMember
  obtain ⟨w₁, w', hed, hupd, hiff⟩ := (agrees_of_run (.snoc .nil trivial (Action.step_of_next? hw))).1 0 b _
    [.get .getCurator, .getStudents, .assign (.name "other")] hF (by
      simp [Edit.Fits, Getter.field, Fields.cls, DBClass.refs, Scalar.set])
  refine ⟨w, w₁, w', b, hF.get, hed, hupd, hiff.mpr ⟨?_, fun _ => .inr ⟨?_, by simp, ?_⟩⟩⟩
  · intro f hf _ i hi
    obtain rfl : f = .curator := by simpa [Fields.cls, DBClass.refs] using hf
    exact ⟨.getCurator, rfl, by simp, (Getter.finds_of_none (hc i)).mpr rfl⟩
  · simp [Doc.members, hm, Element.oid?]
  · intro i _ q o hq
    simp [hc] at hq

/-- A group that is renamed before anyone asked for its students loses them. -/
theorem not_agrees_of_every_session : ¬ ∀ db as w, Lib.Run Action.Step Lib.Free (World.start db) as w →
    ∀ p b x es, Fresh w p b x → (∀ e ∈ es, Edit.Fits w x e) →
      ∃ w₁ w', run (edits (es.map fun e => (p, e))) w = .ok ((), w₁) ∧
        run (Controller.update x.kind p) w₁ = .ok (true, w') ∧ w'.Agrees x.kind b (touched es) := by
  intro h
  obtain ⟨w, b, hw, hF, hm, -⟩ := fresh_oneMember
  have hfits : ∀ e ∈ [Edit.assign (.name "other")], e.Fits w (.group { name := "name" }) := by
    simp [Edit.Fits, Scalar.set]
  have hr : Lib.Run Action.Step Lib.Free (World.start oneMember) _ w := .snoc .nil trivial (Action.step_of_next? hw)
  obtain ⟨w₁, w', hed, hupd, hag⟩ := h _ _ w hr 0 b _ _ hF hfits
  obtain ⟨w₂, w₃, hed', hupd', hiff⟩ := updateAgrees (sound_of_run hr) 0 b _ _ hF hfits
  obtain rfl := (Prod.mk.inj (Except.ok.inj (hed.symm.trans hed'))).2
  obtain rfl := (Prod.mk.inj (Except.ok.inj (hupd.symm.trans hupd'))).2
  rcases (hiff.mp hag).2 rfl with hd | ⟨-, hl, -⟩
  · rw [hm] at hd
    cases hd
  · simp at hl

end Cbt
