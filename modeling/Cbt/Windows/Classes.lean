import Cbt.Calls.Updating
import Cbt.Model.AdminWindow

/-! The two slots for lesson types. `DeleteClass` looks for the text from the
front and keeps the last place where it was found, but the search starts with the
first place instead of none, so a text that is not there costs the first entry. -/

namespace Cbt

open Lib.Command (run_bind_iff run_pure_iff run_fault_iff)

variable {w w' : World} {this : ℕ} {i : Oid} {l l' : List String} {text : String}

namespace AdminWindow

/-! ### The place that is erased -/

/-- The search ends where it started, or at an entry equal to the text. -/
theorem classToDelete_cases (text : String) (start n : ℕ) (l : List String) :
    text ∉ l ∧ classToDelete text start n l = start ∨
      ∃ l₁ l₂, l = l₁ ++ text :: l₂ ∧ classToDelete text start n l = n + l₁.length := by
  induction l generalizing start n with
  | nil => exact .inl ⟨List.not_mem_nil, rfl⟩
  | cons s l ih =>
    simp only [classToDelete]
    rcases ih (if s = text then n else start) (n + 1) with ⟨hl, he⟩ | ⟨l₁, l₂, rfl, he⟩
    · by_cases hs : s = text
      · subst hs
        exact .inr ⟨[], l, rfl, by rw [he, if_pos rfl]; rfl⟩
      · refine .inl ⟨?_, by rw [he, if_neg hs]⟩
        simpa [Ne.symm hs] using hl
    · refine .inr ⟨s :: l₁, l₂, rfl, ?_⟩
      rw [he, List.length_cons]
      omega

/-- A text at the end is the one that is found. -/
theorem classToDelete_append (text : String) (start n : ℕ) (l : List String) :
    classToDelete text start n (l ++ [text]) = n + l.length := by
  induction l generalizing start n with
  | nil => simp [classToDelete]
  | cons s l ih =>
    rw [List.cons_append, classToDelete, ih, List.length_cons]
    omega

/-! ### Storing the lesson types -/

/-- The end of both slots: the list is assigned, stored and shown. -/
def storeClasses (this : ℕ) (l : List String) : Cmd Unit := do
  assignScalar (.lessonsTypes l) this
  let _ ← Controller.update .infos this
  let _ ← PosibleLessonsTable.getLessonsTypes (some this)

theorem addClass_eq (htext : text ≠ "") : addClass (some this) text =
    (do storeClasses this ((← teacherOf this).lessonsTypes ++ [text])) := by
  have : text.isEmpty = false := by simpa using htext
  simp only [addClass, this, Bool.false_eq_true, if_false]
  rfl

theorem deleteClass_eq (htext : text ≠ "") : deleteClass (some this) text = (do
    let lessons := (← teacherOf this).lessonsTypes
    if lessons.isEmpty then return ()
    else storeClasses this (lessons.eraseIdx (classToDelete text 0 0 lessons))) := by
  have : text.isEmpty = false := by simpa using htext
  simp only [deleteClass, this, Bool.false_eq_true, if_false]
  rfl

end AdminWindow

open AdminWindow

/-- A teacher's info with an `_id`, and its lesson types in memory and in the stored document. -/
def Lib.Conf.Teaches (w : World) (this : ℕ) (i : Oid) (l : List String) : Prop :=
  ∃ b t d, w.heap.get this = some ⟨some b, .teacher t⟩ ∧ b.id = i ∧ t.lessonsTypes = l ∧
    w.stored .infos i = some d ∧ lessonsTypesOf d = .ok l

/-- All that an object refers to is still there. -/
def Lib.Conf.Refers (w : World) (p : ℕ) : Prop := ∃ o, w.heap.get p = some o ∧ Referring w.heap o.fields

theorem Lib.Conf.Teaches.unique (h : w.Teaches this i l) (h' : w.Teaches this i l') : l = l' := by
  obtain ⟨b, t, d, hg, -, rfl, -⟩ := h
  obtain ⟨b', t', d', hg', -, rfl, -⟩ := h'
  cases hg.symm.trans hg'
  rfl

theorem referring_lessonsTypes {h : Memory} {t : TeacherInfo} (l : List String) :
    Referring h (.teacher { t with lessonsTypes := l }) ↔ Referring h (.teacher t) := by
  have href : ∀ f, (Fields.teacher { t with lessonsTypes := l }).ref f = (Fields.teacher t).ref f := by
    intro f
    cases f <;> rfl
  constructor <;> intro hr <;> refine ⟨fun f v hv => hr.ref f v ?_, by simp⟩
  · rw [href, hv]
  · rw [← href, hv]

/-- Lesson types are stored when all that the teacher refers to is there. -/
theorem exists_run_storeClasses (h : w.Teaches this i l) (hr : w.Refers this) (l' : List String) :
    ∃ w', run (storeClasses this l') w = .ok ((), w') ∧ w'.Teaches this i l' ∧ w'.Refers this := by
  obtain ⟨b, t, d, hg, rfl, -, hs, -⟩ := h
  obtain ⟨o, ho, hx⟩ := hr
  obtain rfl := Option.some.inj (ho.symm.trans hg)
  let x : Fields := .teacher { t with lessonsTypes := l' }
  have hput : (w.put this ⟨some b, x⟩).heap.get this = some ⟨some b, x⟩ := by rw [Lib.Conf.get_put hg, if_pos rfl]
  have hi : ∀ p, ident (w.put this ⟨some b, x⟩).heap p = ident w.heap p := ident_set hg rfl rfl
  have hx' : Referring (w.put this ⟨some b, x⟩).heap x := (Referring.congr hi).mpr ((referring_lessonsTypes l').mpr hx)
  obtain ⟨d', hd'⟩ := exists_toDoc_iff.mpr hx'
  obtain ⟨w', hrun, hheap, -, -, -, hstored⟩ :=
    run_update_of hput (Option.isSome_of_eq_some hs : ((w.put this ⟨some b, x⟩).stored x.kind b.id).isSome) hd'
  have hget : w'.heap.get this = some ⟨some (b.withDoc (("_id", .oid b.id) :: d')), x⟩ := by
    rw [hheap, Lib.Heap.get_set _ hput, if_pos rfl]
  have hi' : ∀ p, ident w'.heap p = ident (w.put this ⟨some b, x⟩).heap p := by
    rw [hheap]
    exact ident_set hput rfl rfl
  have hx'' : Referring w'.heap x := (Referring.congr hi').mpr hx'
  refine ⟨w', ?_, ⟨_, _, ("_id", .oid b.id) :: d', hget, rfl, rfl, ?_, ?_⟩, _, hget, hx''⟩
  · simp only [storeClasses, run_bind_iff, assignScalar, run_obj_iff, PosibleLessonsTable.getLessonsTypes,
      run_teacherOf_iff, run_pure_iff]
    exact ⟨(), _, ⟨_, _, ⟨hg, rfl⟩, run_setObj_iff.mpr rfl⟩, true, w', hrun, _, w', ⟨_, w', ⟨⟨_, hget⟩, rfl⟩, rfl, rfl⟩,
      trivial, rfl⟩
  · rw [hstored, if_pos ⟨rfl, rfl⟩]
  · obtain ⟨ref, members, -, rfl⟩ := toDoc_eq_ok.mp hd'
    simp [Fields.written, x, lessonsTypesOf, getStrings_map]

/-- Lesson types are stored only then. -/
theorem refers_of_run_storeClasses (h : w.Teaches this i l) (hrun : run (storeClasses this l') w = .ok ((), w')) :
    w.Refers this := by
  obtain ⟨b, t, d, hg, -⟩ := h
  simp only [storeClasses, run_bind_iff, assignScalar, run_obj_iff] at hrun
  obtain ⟨_, w₁, ⟨o, _, ⟨ho, rfl⟩, h₁⟩, r, w₂, h₂, -⟩ := hrun
  obtain rfl := Option.some.inj (ho.symm.trans hg)
  obtain rfl := run_setObj_iff.mp h₁
  obtain ⟨b', x', d', hg', -, hd', -⟩ := update_effect h₂
  rw [Lib.Conf.get_put hg, if_pos rfl] at hg'
  cases hg'
  have hx := (Referring.congr (ident_set hg rfl rfl)).mp (exists_toDoc_iff.mp ⟨d', hd'⟩)
  exact ⟨_, hg, (referring_lessonsTypes l').mp hx⟩

/-! ### Exactly one entry -/

/-- One entry equal to the text goes and the others keep their order; without such an entry, and for the empty text,
the list stays. -/
structure Removes (text : String) (l l' : List String) : Prop where
  one : text ≠ "" → text ∈ l → ∃ l₁ l₂, l = l₁ ++ text :: l₂ ∧ l' = l₁ ++ l₂
  none : text = "" ∨ text ∉ l → l' = l

/-- `DeleteClass` removes one entry in memory and in the stored document, and takes back an `AddClass`. -/
structure RemovesExactly (w : World) (this : ℕ) (i : Oid) (l : List String) (text : String) : Prop where
  removes : ∃ w' l', run (deleteClass (some this) text) w = .ok ((), w') ∧ w'.Teaches this i l' ∧ Removes text l l'
  restores : text ≠ "" → text ∉ l → ∃ w', run (do addClass (some this) text; deleteClass (some this) text) w =
    .ok ((), w') ∧ w'.Teaches this i l

theorem run_teacherOf_bind_iff {α : Type} {c : Option IFromDB} {t : TeacherInfo} {f : TeacherInfo → Cmd α} {a : α}
    (hg : w.heap.get this = some ⟨c, .teacher t⟩) :
    run (teacherOf this >>= f) w = .ok (a, w') ↔ run (f t) w = .ok (a, w') := by
  simp only [run_bind_iff, run_teacherOf_iff]
  constructor
  · rintro ⟨t', _, ⟨⟨c', hc⟩, rfl⟩, hrun⟩
    cases hg.symm.trans hc
    exact hrun
  · exact fun hrun => ⟨t, w, ⟨⟨_, hg⟩, rfl⟩, hrun⟩

theorem run_deleteClass_iff (htext : text ≠ "") (h : w.Teaches this i l) :
    run (deleteClass (some this) text) w = .ok ((), w') ↔ if l = [] then w = w' else
      run (storeClasses this (l.eraseIdx (classToDelete text 0 0 l))) w = .ok ((), w') := by
  obtain ⟨b, t, d, hg, -, rfl, -⟩ := h
  rw [deleteClass_eq htext, run_teacherOf_bind_iff hg]
  cases t.lessonsTypes <;> simp

theorem run_addClass_iff (htext : text ≠ "") (h : w.Teaches this i l) :
    run (addClass (some this) text) w = .ok ((), w') ↔ run (storeClasses this (l ++ [text])) w = .ok ((), w') := by
  obtain ⟨b, t, d, hg, -, rfl, -⟩ := h
  rw [addClass_eq htext, run_teacherOf_bind_iff hg]

/-- A text that is there goes, one entry of it. -/
theorem removes_eraseIdx (hmem : text ∈ l) (htext : text ≠ "") :
    Removes text l (l.eraseIdx (classToDelete text 0 0 l)) := by
  rcases classToDelete_cases text 0 0 l with ⟨hn, -⟩ | ⟨l₁, l₂, rfl, he⟩
  · exact absurd hmem hn
  · refine ⟨fun _ _ => ⟨l₁, l₂, rfl, ?_⟩, fun hn => (hn.elim htext (absurd hmem)).elim⟩
    rw [he, Nat.zero_add, List.eraseIdx_append_of_length_le (le_refl _), Nat.sub_self]
    rfl

/-- A text that is not there costs the first entry. -/
theorem eraseIdx_ne (hmem : text ∉ l) (hl : l ≠ []) : l.eraseIdx (classToDelete text 0 0 l) ≠ l := by
  rcases classToDelete_cases text 0 0 l with ⟨-, he⟩ | ⟨l₁, l₂, rfl, -⟩
  · intro h
    have hlen := congrArg List.length h
    have hpos := List.length_pos_of_ne_nil hl
    rw [he, List.length_eraseIdx_of_lt hpos] at hlen
    omega
  · simp at hmem

/-- Lesson types are removed exactly when the text is there, if there is anything to remove from. -/
theorem removesExactly_iff (h : w.Teaches this i l) :
    RemovesExactly w this i l text ↔ text = "" ∨ w.Refers this ∧ (l = [] ∨ text ∈ l) := by
  constructor
  · intro hx
    by_cases htext : text = ""
    · exact .inl htext
    have hrefers : w.Refers this := by
      by_cases hmem : text ∈ l
      · obtain ⟨w', -, hrun, -⟩ := hx.removes
        rw [run_deleteClass_iff htext h, if_neg (List.ne_nil_of_mem hmem)] at hrun
        exact refers_of_run_storeClasses h hrun
      · obtain ⟨w', hrun, -⟩ := hx.restores htext hmem
        obtain ⟨_, w₁, hadd, -⟩ := (run_bind_iff _).mp hrun
        exact refers_of_run_storeClasses h ((run_addClass_iff htext h).mp hadd)
    refine .inr ⟨hrefers, ?_⟩
    by_contra hn
    obtain ⟨hl, hmem⟩ := not_or.mp hn
    obtain ⟨w', l', hrun, ht, hr⟩ := hx.removes
    rw [run_deleteClass_iff htext h, if_neg hl] at hrun
    obtain ⟨w₁, hrun₁, ht₁, -⟩ := exists_run_storeClasses h hrefers (l.eraseIdx (classToDelete text 0 0 l))
    obtain ⟨-, rfl⟩ := Prod.mk.inj (Except.ok.inj (hrun₁.symm.trans hrun))
    exact eraseIdx_ne hmem hl ((ht₁.unique ht).trans (hr.none (.inr hmem)))
  · intro hor
    by_cases htext : text = ""
    · subst htext
      exact ⟨⟨w, l, by simp [deleteClass], h, ⟨fun hne => absurd rfl hne, fun _ => rfl⟩⟩, fun hne => absurd rfl hne⟩
    obtain ⟨hrefers, hc⟩ := hor.resolve_left htext
    refine ⟨?_, fun _ hmem => ?_⟩
    · by_cases hl : l = []
      · subst hl
        exact ⟨w, [], by rw [run_deleteClass_iff htext h, if_pos rfl], h, ⟨fun _ hmem => absurd hmem List.not_mem_nil, fun _ => rfl⟩⟩
      · obtain ⟨w', hrun, ht, -⟩ := exists_run_storeClasses h hrefers (l.eraseIdx (classToDelete text 0 0 l))
        exact ⟨w', _, by rwa [run_deleteClass_iff htext h, if_neg hl], ht,
          removes_eraseIdx (hc.resolve_left hl) htext⟩
    · obtain ⟨w₁, hrun₁, ht₁, hr₁⟩ := exists_run_storeClasses h hrefers (l ++ [text])
      obtain ⟨w₂, hrun₂, ht₂, -⟩ := exists_run_storeClasses ht₁ hr₁ l
      have hback : (l ++ [text]).eraseIdx (classToDelete text 0 0 (l ++ [text])) = l := by
        rw [classToDelete_append, Nat.zero_add, List.eraseIdx_append_of_length_le (le_refl _), Nat.sub_self]
        exact List.append_nil l
      refine ⟨w₂, (run_bind_iff _).mpr ⟨(), w₁, (run_addClass_iff htext h).mpr hrun₁, ?_⟩, ht₂⟩
      rwa [run_deleteClass_iff htext ht₁, if_neg (by simp), hback]

/-! ### A teacher with one class -/

/-- One teacher with one lesson type. -/
def oneClass : Database :=
  Database.empty.insert .infos [("FirstName", .string "first"), ("SecondName", .string "second"), ("Owner", nullValue),
    ("Faculty", .string "faculty"), ("LessonsTypes", .array [.string "a"])]

/-- The teacher, when it was loaded. -/
theorem exists_oneClass : ∃ w, Lib.Run Action.Step Lib.Free (World.start oneClass) [.getFromDB .infos 0 .teacher] w ∧
    w.Teaches 0 0 ["a"] ∧ w.Refers 0 := by
  let t : TeacherInfo := { firstName := "first", secondName := "second", faculty := "faculty", lessonsTypes := ["a"] }
  have hplay : ((play [.getFromDB .infos 0 .teacher] (World.start oneClass))).any (fun w =>
      (w.heap.get 0).any (fun o => o.fields = .teacher t ∧ o.fromDB.any fun b => b.id = 0) ∧
        (w.stored .infos 0).any fun d => lessonsTypesOf d = .ok ["a"]) = true := by decide
  obtain ⟨w, hw, hc⟩ := Option.any_eq_true .. |>.mp hplay
  obtain ⟨ho, hs⟩ := of_decide_eq_true hc
  obtain ⟨⟨c, x⟩, hget, ho⟩ := Option.any_eq_true .. |>.mp ho
  obtain ⟨hx, hb⟩ := of_decide_eq_true ho
  obtain ⟨b, rfl, hid⟩ := Option.any_eq_true .. |>.mp hb
  obtain ⟨d, hd, hl⟩ := Option.any_eq_true .. |>.mp hs
  obtain rfl : x = .teacher t := hx
  exact ⟨w, run_of_play hw, ⟨b, t, d, hget, of_decide_eq_true hid, rfl, hd, of_decide_eq_true hl⟩, _, hget,
    .of_bare rfl (by simp [Fields.kind])⟩

/-- The class is removed. -/
theorem removesExactly_of_class : ∃ w, w.Teaches 0 0 ["a"] ∧ RemovesExactly w 0 0 ["a"] "a" := by
  obtain ⟨w, -, ht, hr⟩ := exists_oneClass
  exact ⟨w, ht, (removesExactly_iff ht).mpr (.inr ⟨hr, .inr (by simp)⟩)⟩

/-- With a text that is not there, the class is lost. -/
theorem not_removesExactly_always : ¬ ∀ db as w this i l text, Lib.Run Action.Step Lib.Free (World.start db) as w →
    w.Teaches this i l → w.Refers this → RemovesExactly w this i l text := by
  intro hall
  obtain ⟨w, hrun, ht, hr⟩ := exists_oneClass
  obtain ⟨w', l', hdel, ht', hrem⟩ := (hall _ _ w 0 0 ["a"] "b" hrun ht hr).removes
  obtain rfl := hrem.none (.inr (by simp))
  obtain ⟨w₁, hrun₁, ht₁, -⟩ := exists_run_storeClasses ht hr []
  have hdel' := (run_deleteClass_iff (by simp) ht).mp hdel
  obtain ⟨-, rfl⟩ := Prod.mk.inj (Except.ok.inj (hrun₁.symm.trans hdel'))
  cases ht₁.unique ht'

end Cbt
