import Cbt.Updates.Frame

/-! The callers of `Update`. `addStudent` stores the group and the student, and
the window stores a teacher after a new class was typed. Each stores a document
that keeps what nothing touched under the same condition as a plain update. -/

namespace Cbt

open Lib.Command (run_bind_iff run_pure_iff run_fault_iff run_ofExcept_iff fault)

variable {w w₁ w' : World} {S : ℕ → Prop} {p : ℕ} {b : IFromDB} {x y : Fields} {es : List Edit} {n : ℤ} {h' : Memory}

/-- The stored document of a group has a new member after those it was built with. -/
def Lib.Conf.Gains (w : World) (b : IFromDB) (i : Oid) : Prop :=
  ∃ d, w.stored .groups b.id = some d ∧ d.get? "Members" = some (.array ((b.doc.members ++ [i]).map .oid))

theorem touched_sub {key k : String} (h : key ∈ touched es) : key ∈ touched es ++ [k] := List.mem_append_left _ h

/-- Edits of some objects as they were built. -/
structure Session (w : World) (P : ℕ → IFromDB → Fields → Prop) (es : List (ℕ × Edit)) : Prop where
  fresh : ∀ p b x, P p b x → Fresh w p b x
  fits : ∀ p e, (p, e) ∈ es → ∃ b x, P p b x ∧ e.Fits w x

/-! ### The documents -/

theorem existingIds_append (h : Memory) {l : List ℕ} {ids : List Oid} {q : ℕ} {i : Oid}
    (hl : existingIds h l = .ok ids) (hq : ident h q = .ok (i, true)) : existingIds h (l ++ [q]) = .ok (ids ++ [i]) := by
  induction l generalizing ids with
  | nil =>
    obtain rfl := Except.ok.inj hl
    rw [List.nil_append, existingIds_cons, hq]
    rfl
  | cons p l ih =>
    rw [existingIds_cons, exceptBind_eq_ok] at hl
    obtain ⟨⟨j, alive⟩, hj, hl⟩ := hl
    rw [exceptBind_eq_ok] at hl
    obtain ⟨ids', hids, hl⟩ := hl
    obtain rfl := exceptPure_eq_ok.mp hl
    rw [List.cons_append, existingIds_cons, hj, ih hids]
    cases alive <;> rfl

/-- The document of an edited group that takes a student. -/
theorem Edited.group_doc {g : Group} (hw : Sound w) (hF : Fresh w p b x) (hE : Extends S w w₁)
    (h : Edited w w₁ p b x es n (.group g)) (hr : Retains w₁.heap h') {stud : ℕ} {i : Oid}
    (hstud : ident h' stud = .ok (i, true)) {d : Doc}
    (hd : (Fields.group { g with students := g.students ++ [stud] }).toDoc h' = .ok d) :
    ((∀ key, key ∉ touched es ++ ["Members"] → Doc.get? (("_id", .oid b.id) :: d) key = b.doc.get? key) ↔
      KeptRefs w p b x es (touched es ++ ["Members"])) ∧
    (Doc.get? (("_id", .oid b.id) :: d) "Members" = some (.array ((b.doc.members ++ [i]).map .oid)) ↔
      b.doc.members = [] ∨ MembersListed w b es) := by
  obtain ⟨ref, m, hwr, rfl⟩ := toDoc_eq_ok.mp hd
  obtain ⟨ids, hex, -, hids⟩ := h.ids hw hF hE hr
  constructor
  · have := h.agrees_iff hF hr (touched es ++ ["Members"]) ref m (fun _ => touched_sub) ?_ ?_
    · rw [show (Fields.group { g with students := g.students ++ [stud] }).written ref m =
        (Fields.group g).written ref m from rfl, this]
      simp
    · rintro f hf - rfl
      rw [← h.cls] at hf
      simp [Fields.cls, DBClass.refs] at hf
    · exact fun f _ _ v hv => hwr.ref f v (by rw [ref_students]; exact hv)
  · have hm := hwr.members _ rfl
    simp only [Cbt.membersValue, List.isEmpty_iff, List.append_eq_nil_iff, List.cons_ne_nil, and_false, if_false,
      existingIds_append h' hex hstud] at hm
    obtain rfl := Except.ok.inj hm
    rw [Doc.get?_cons, if_neg (by decide), get?_members, ← hids]
    constructor
    · intro he
      have hinj : Function.Injective Element.oid := fun _ _ h => Element.oid.inj h
      exact List.append_cancel_right (hinj.list_map (Bson.array.inj (Option.some.inj he)))
    · rintro rfl
      rfl

/-- An edited group with one more student can be written. -/
theorem Edited.group_writes {g : Group} (hw : Sound w) (hF : Fresh w p b x) (hE : Extends S w w₁)
    (h : Edited w w₁ p b x es n (.group g)) (hr : Retains w₁.heap h') {stud : ℕ} {i : Oid}
    (hstud : ident h' stud = .ok (i, true)) : ∃ ref m, (Fields.group { g with students := g.students ++ [stud] }).Writes h' ref m := by
  obtain ⟨ids, hex, -⟩ := h.ids hw hF hE hr
  refine exists_writes (fun f v hv => h.exists_value hr (by rw [ref_students] at hv; exact hv)) ?_
  rintro _ ⟨⟩
  simp only [Cbt.membersValue, List.isEmpty_iff, List.append_eq_nil_iff, List.cons_ne_nil, and_false, if_false,
    existingIds_append h' hex hstud]
  exact ⟨_, rfl⟩

/-- The document of an edited student that takes a group. -/
theorem Edited.student_doc {s : StudentInfo} (hF : Fresh w p b x) (h : Edited w w₁ p b x es n (.student s))
    (hr : Retains w₁.heap h') {v : Pointer} {d : Doc} (hd : (Fields.student { s with group := v }).toDoc h' = .ok d) :
    (∀ key, key ∉ touched es ++ ["Group"] → Doc.get? (("_id", .oid b.id) :: d) key = b.doc.get? key) ↔
      KeptRefs w p b x es (touched es ++ ["Group"]) := by
  obtain ⟨ref, m, hwr, rfl⟩ := toDoc_eq_ok.mp hd
  have hx : x.cls = .studentInfoDB := h.cls.symm
  have := h.agrees_iff hF hr (touched es ++ ["Group"]) ref m (fun _ => touched_sub) ?_ ?_
  · rw [show (Fields.student { s with group := v }).written ref m = (Fields.student s).written ref m from rfl, this]
    simp [hx]
  · rintro f hf - rfl
    simp [hx, DBClass.refs] at hf
  · intro f hf hk u hu
    refine hwr.ref f u ?_
    cases f with
    | group => exact absurd (List.mem_append_right _ (List.mem_singleton_self _)) hk
    | _ => exact hu

/-- The document of an edited account that takes an info. -/
theorem Edited.account_doc {a : Account} (hF : Fresh w p b x) (h : Edited w w₁ p b x es n (.account a))
    {v : Pointer} {d : Doc} (hd : (Fields.account { a with additionalInfo := v }).toDoc h' = .ok d) :
    ∀ key, key ∉ touched es ++ ["AdditionalInfo"] → Doc.get? (("_id", .oid b.id) :: d) key = b.doc.get? key := by
  obtain ⟨ref, m, hwr, rfl⟩ := toDoc_eq_ok.mp hd
  have hx : x.cls = .accountDB := h.cls.symm
  have hno : ∀ f ∈ x.cls.refs, f.key ∉ touched es ++ ["AdditionalInfo"] → False := by
    intro f hf hk
    simp only [hx, DBClass.refs, List.mem_singleton] at hf
    exact hk (List.mem_append_right _ (by simp [hf, RefField.key]))
  refine (h.agrees_iff hF (.refl _) (touched es ++ ["AdditionalInfo"]) ref m (fun _ => touched_sub)
    (fun f hf hk => (hno f hf hk).elim) fun f hf hk => (hno f hf hk).elim).mpr ⟨fun f hf hk => (hno f hf hk).elim, ?_⟩
  simp [hx]

/-! ### AddClass -/

/-- A class is added to an edited teacher, who is stored. -/
theorem agrees_addClass {t : TeacherInfo} {text : String} (hw : Sound w) (hF : Fresh w p b (.teacher t))
    (hes : ∀ e ∈ es, e.Fits w (.teacher t)) (htext : text ≠ "") :
    ∃ w₁ w', run (edits (es.map fun e => (p, e))) w = .ok ((), w₁) ∧
      run (AdminWindow.addClass (some p) text) w₁ = .ok ((), w') ∧
      (w'.Agrees .infos b (touched es ++ ["LessonsTypes"]) ↔
        KeptRefs w p b (.teacher t) es (touched es ++ ["LessonsTypes"])) := by
  obtain ⟨w₁, n, y, hrun, hE, h, hset⟩ := run_edits_one hw hF hes
  obtain ⟨u, rfl⟩ : ∃ u, y = .teacher u := by
    have hy : y.cls = .teacherInfoDB := h.cls
    cases y <;> first | exact ⟨_, rfl⟩ | cases hy
  have hs : (Scalar.lessonsTypes (u.lessonsTypes ++ [text])).set (.teacher u) =
      some (.teacher { u with lessonsTypes := u.lessonsTypes ++ [text] }) := rfl
  have hedit := h.assignScalar hE hs
  have hext := (h.put hE.sound (Scalar.cls_set hs)).1
  obtain ⟨w', hupd, hagree⟩ := hedit.update hw hF (hE.trans hext) (by
    rintro f hf rfl
    simp [Fields.cls, DBClass.refs] at hf)
  obtain ⟨c, z, d, hc, -, -, -, hh, -⟩ := update_effect hupd
  obtain ⟨-, rfl⟩ := Obj.mk.inj (Option.some.inj (hedit.get.symm.trans hc))
  have hnew := (congrArg (fun h : Memory => h.get p) hh).trans ((Lib.Heap.get_set _ hc p).trans (if_pos rfl))
  refine ⟨w₁, w', hrun, ?_, ?_⟩
  · have hne : text.isEmpty = false := by simpa using htext
    simp only [AdminWindow.addClass, hne, Bool.false_eq_true, if_false, run_bind_iff, run_teacherOf_iff,
      PosibleLessonsTable.getLessonsTypes, run_pure_iff, assignScalar, run_obj_iff]
    refine ⟨u, w₁, ⟨⟨_, h.get⟩, rfl⟩, ⟨⟩, _, ⟨_, w₁, ⟨h.get, rfl⟩, ?_⟩, true, w', hupd, _, w',
      ⟨_, w', ⟨⟨_, hnew⟩, rfl⟩, rfl, rfl⟩, trivial, rfl⟩
    rw [hs]
    exact run_setObj_iff.mpr rfl
  · rw [touched_append, touched_assign] at hagree
    rw [show Fields.kind (.teacher t) = .infos from rfl] at hagree
    rw [show "LessonsTypes" = (Scalar.lessonsTypes (u.lessonsTypes ++ [text])).key from rfl, hagree]
    have hcalled : ∀ f i, Called w p f i (es ++ [.assign (.lessonsTypes (u.lessonsTypes ++ [text]))]) ↔ Called w p f i es :=
      fun f i => by simp [called_append]
    simp only [KeptRefs, hcalled, KeptMembers, Fields.cls, reduceCtorEq, false_imp_iff, and_true]

/-! ### addStudent -/

theorem agrees_iff_of_stored {k : Kind} {d : Doc} {keys : List String} (hd : w.stored k b.id = some d) :
    w.Agrees k b keys ↔ ∀ key, key ∉ keys → d.get? key = b.doc.get? key := by
  constructor
  · rintro ⟨d', hd', hall⟩
    obtain rfl := Option.some.inj (hd.symm.trans hd')
    exact hall
  · exact fun hall => ⟨d, hd, hall⟩

theorem gains_iff_of_stored {d : Doc} {i : Oid} (hd : w.stored .groups b.id = some d) :
    w.Gains b i ↔ d.get? "Members" = some (.array ((b.doc.members ++ [i]).map .oid)) := by
  constructor
  · rintro ⟨d', hd', hm⟩
    obtain rfl := Option.some.inj (hd.symm.trans hd')
    exact hm
  · exact fun hm => ⟨d, hd, hm⟩

/-- An edited group takes an edited student, and both are stored. -/
theorem agrees_addStudent {P : ℕ → IFromDB → Fields → Prop} {es : List (ℕ × Edit)} {g s : ℕ} {bg bs : IFromDB}
    {xg : Group} {xs : StudentInfo} (hw : Sound w) (hes : Session w P es) (hPg : P g bg (.group xg))
    (hPs : P s bs (.student xs)) :
    ∃ w₁ w', run (edits es) w = .ok ((), w₁) ∧ run (GroupDB.addStudent g (some s)) w₁ = .ok (true, w') ∧
      (w'.Agrees .groups bg (touched (editsOf g es) ++ ["Members"]) ↔
        KeptRefs w g bg (.group xg) (editsOf g es) (touched (editsOf g es) ++ ["Members"])) ∧
      (w'.Gains bg bs.id ↔ bg.doc.members = [] ∨ MembersListed w bg (editsOf g es)) ∧
      (w'.Agrees .infos bs (touched (editsOf s es) ++ ["Group"]) ↔
        KeptRefs w s bs (.student xs) (editsOf s es) (touched (editsOf s es) ++ ["Group"])) := by
  have hg := hes.fresh _ _ _ hPg
  have hs := hes.fresh _ _ _ hPs
  obtain ⟨w₁, hrun, hE, hed, -⟩ := run_edits hw hes.fresh hes.fits
  obtain ⟨n, y, hG⟩ := hed g bg _ hPg
  obtain ⟨m, z, hS⟩ := hed s bs _ hPs
  obtain ⟨g', rfl⟩ : ∃ g', y = .group g' := by
    have hy : y.cls = .groupDB := hG.cls
    cases y <;> first | exact ⟨_, rfl⟩ | cases hy
  obtain ⟨s', rfl⟩ : ∃ s', z = .student s' := by
    have hz : z.cls = .studentInfoDB := hS.cls
    cases z <;> first | exact ⟨_, rfl⟩ | cases hz
  have hstud : ident w₁.heap s = .ok (bs.id, true) := by
    rw [ident_of_get hS.get]
    exact congrArg (fun e => Except.ok (bs.id, e)) hs.exist
  have hgrp : (Pointer.to g).value w₁.heap = .ok (.oid bg.id) := by
    rw [value_eq_ident, ident_of_get hG.get, show (bg.own n).isExist = true from hg.exist]
    rfl
  obtain ⟨refg, mg, hwg⟩ := hG.group_writes hw hg hE (.refl _) hstud
  obtain ⟨refs, ms, hws⟩ : ∃ ref m, (Fields.student { s' with group := .to g }).Writes w₁.heap ref m := by
    refine exists_writes (fun f v hv => ?_) (by simp)
    by_cases hf : f = .group
    · subst hf
      obtain rfl := Option.some.inj hv
      exact ⟨_, hgrp⟩
    · exact hS.exists_value (.refl _) (f := f) (by cases f <;> first | exact hv | exact absurd rfl hf)
  obtain ⟨w', hadd⟩ := exists_enrolled hG.get hS.get (toDoc_eq_ok.mpr ⟨_, _, hwg, rfl⟩) (toDoc_eq_ok.mpr ⟨_, _, hws, rfl⟩)
    (by rw [hE.stored]; exact Option.isSome_of_eq_some hg.stored) (by rw [hE.stored]; exact Option.isSome_of_eq_some hs.stored)
  refine ⟨w₁, w', hrun, hadd, ?_⟩
  obtain ⟨bg', bs', g₁, s₁, hg₁, hs₁, hm⟩ := (run_addStudent_iff.mp hadd).2.moved
  obtain ⟨rfl, rfl⟩ : bg.own n = bg' ∧ g' = g₁ := by simpa using Obj.mk.inj (Option.some.inj (hG.get.symm.trans hg₁))
  obtain ⟨rfl, rfl⟩ : bs.own m = bs' ∧ s' = s₁ := by simpa using Obj.mk.inj (Option.some.inj (hS.get.symm.trans hs₁))
  obtain ⟨dg, ds, hdg, hds, hst, -⟩ := hm.docs
  obtain ⟨hGdoc, hGmem⟩ := hG.group_doc hw hg hE (.refl _) hstud hdg
  have hstg : w'.stored .groups bg.id = some (("_id", .oid bg.id) :: dg) := by rw [hst, if_pos ⟨rfl, rfl⟩]; rfl
  have hsts : w'.stored .infos bs.id = some (("_id", .oid bs.id) :: ds) := by
    rw [hst, if_neg (by simp), if_pos ⟨rfl, rfl⟩]
    rfl
  exact ⟨(agrees_iff_of_stored hstg).trans hGdoc, (gains_iff_of_stored hstg).trans hGmem,
    (agrees_iff_of_stored hsts).trans (hS.student_doc hs (.refl _) hds)⟩

end Cbt
