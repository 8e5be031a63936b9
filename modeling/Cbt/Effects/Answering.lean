import Cbt.Codec.Shape
import Cbt.Effects.Getters

/-! Getters that return. A getter answers with the object its pointer designates
while that object exists; with a null pointer it answers with the object the
look-up of its class finds, and takes the pointer to it. Every outcome of a
getter is a run of it. -/

namespace Cbt

open Lib.Command (run_bind_iff run_pure_iff run_fault_iff run_ofExcept_iff)

variable {w w' : World} {g : Getter} {this : ℕ} {r : Option ℕ}

/-- How a getter loads the object with an id. -/
def Getter.load : Getter → ℕ → Oid → Cmd (Option ℕ)
  | .getCurator, _, oid | .getTeacher, _, oid => do cast Fields.isTeacher (← InfosController.getFromDB oid .teacher)
  | .getTeacherOwner, _, oid | .getStudentOwner, _, oid => Controller.getFromDB .accounts oid
  | .getStudentGroup, _, oid | .getScheduleGroup, _, oid => Controller.getFromDB .groups oid
  | .getAdditionalInfo, this, oid => do InfosController.getFromDB oid (← accountType this)

theorem Getter.call_eq (g : Getter) (this : ℕ) : g.call this = getRef g.field g.key (g.load this) this := by
  cases g <;> rfl

theorem Getter.field_key (hg : g ≠ .getTeacher) : g.field.key = g.key := by
  cases g <;> first | rfl | exact absurd rfl hg

theorem Getter.field_kind (g : Getter) : g.field.kind = g.kind := by cases g <;> rfl

theorem Getter.classOf_account {c : Option IFromDB} {a : Account} (h : w.heap.get this = some ⟨c, .account a⟩) :
    Getter.classOf .getAdditionalInfo w this = InfosController.classOf a.accountType := by simp [Getter.classOf, h]

/-! ### Every outcome is a run -/

theorem run_settle_of {f : RefField} {p : ℕ} (h : Settled w f this p r w') : run (settle f this p) w = .ok (r, w') := by
  simp only [settle, run_bind_iff, run_fromDB_iff]
  cases h with
  | held hp hb => exact ⟨_, w, ⟨header_eq_ok.mpr ⟨_, hp⟩, rfl⟩, by simp [hb]⟩
  | letGo hp hb hn ho =>
    rename_i b x o
    have hget : (w.put p ⟨some (b.own (-1)), x⟩).heap.get p = some ⟨some (b.own (-1)), x⟩ := by
      rw [Lib.Conf.get_put hp, if_pos rfl]
    have hn' : (b.own (-1)).ownedCount ≠ 0 := by
      simp only [IFromDB.own]
      omega
    refine ⟨b, w, ⟨header_eq_ok.mpr ⟨x, hp⟩, rfl⟩, ?_⟩
    simp only [hb, Bool.false_eq_true, if_false, run_bind_iff, run_own_iff, run_fromDB_iff]
    refine ⟨⟨⟩, _, ⟨b, x, hp, rfl⟩, b.own (-1), _, ⟨header_eq_ok.mpr ⟨x, hget⟩, rfl⟩, ?_⟩
    simp only [hn', if_false, run_bind_iff, run_assign_iff, run_pure_iff]
    exact ⟨⟨⟩, _, ⟨o, ho, rfl⟩, trivial, rfl⟩
  | freed hp hb hn ht ho =>
    rename_i b x o
    have hget : (w.put p ⟨some (b.own (-1)), x⟩).heap.get p = some ⟨some (b.own (-1)), x⟩ := by
      rw [Lib.Conf.get_put hp, if_pos rfl]
    have hn' : (b.own (-1)).ownedCount = 0 := by
      simp only [IFromDB.own]
      omega
    refine ⟨b, w, ⟨header_eq_ok.mpr ⟨x, hp⟩, rfl⟩, ?_⟩
    simp only [hb, Bool.false_eq_true, if_false, run_bind_iff, run_own_iff, run_fromDB_iff]
    refine ⟨⟨⟩, _, ⟨b, x, hp, rfl⟩, b.own (-1), _, ⟨header_eq_ok.mpr ⟨x, hget⟩, rfl⟩, ?_⟩
    simp only [hn', if_true, run_bind_iff, run_destroy_iff, run_assign_iff, run_pure_iff, free_put]
    refine ⟨⟨⟩, _, ⟨⟨_, hget⟩, rfl⟩, ⟨⟩, _, ⟨o, ?_, rfl⟩, trivial, rfl⟩
    rw [Lib.Conf.heap_free, Lib.Heap.get_free, if_neg ht, ho]

/-- A getter's load finds what the look-up of its class finds, behind its cast. -/
theorem Getter.run_load_of {c : Option IFromDB} {x : Fields} {oid : Oid} {w₁ : World} (hw : Sound w)
    (ht : w.heap.get this = some ⟨c, x⟩) (hf : g.field ∈ x.cls.refs) (h : g.Found w this oid r w₁) :
    run (g.load this oid) w = .ok (r, w₁) := by
  obtain ⟨r₀, hl, hr⟩ := h
  have hcast : g.wants = Fields.isTeacher → run (cast Fields.isTeacher r₀) w₁ = .ok (r, w₁) := by
    intro hwants
    rw [hwants] at hr
    refine run_cast_iff.mpr ⟨rfl, ?_⟩
    rcases hr with ⟨rfl, hno⟩ | ⟨p, o, rfl, hp, hc, rfl⟩
    · cases r₀ with
      | none => exact .inl ⟨rfl, rfl⟩
      | some p =>
        obtain ⟨o, hp, ho⟩ := hno p rfl
        exact .inr ⟨p, o, rfl, hp, by simp [ho]⟩
    · exact .inr ⟨p, o, rfl, hp, by simp [hc]⟩
  have hsame : (∀ x, g.wants x = true) → r = r₀ := by
    intro hall
    rcases hr with ⟨rfl, hno⟩ | ⟨p, o, rfl, hp, hc, rfl⟩
    · cases r₀ with
      | none => rfl
      | some p =>
        obtain ⟨o, -, ho⟩ := hno p rfl
        rw [hall] at ho
        cases ho
    · rfl
  cases g with
  | getCurator =>
    exact (run_bind_iff _).mpr ⟨r₀, w₁, (run_infosGetFromDB_iff (hw.live .infos)).mpr hl, hcast rfl⟩
  | getTeacher =>
    exact (run_bind_iff _).mpr ⟨r₀, w₁, (run_infosGetFromDB_iff (hw.live .infos)).mpr hl, hcast rfl⟩
  | getTeacherOwner => exact hsame (fun _ => rfl) ▸ (run_getFromDB_iff (hw.live .accounts)).mpr hl
  | getStudentOwner => exact hsame (fun _ => rfl) ▸ (run_getFromDB_iff (hw.live .accounts)).mpr hl
  | getStudentGroup => exact hsame (fun _ => rfl) ▸ (run_getFromDB_iff (hw.live .groups)).mpr hl
  | getScheduleGroup => exact hsame (fun _ => rfl) ▸ (run_getFromDB_iff (hw.live .groups)).mpr hl
  | getAdditionalInfo =>
    obtain ⟨a, rfl⟩ : ∃ a, x = .account a := by
      cases x <;> simp [Getter.field, Fields.cls, DBClass.refs] at hf
      exact ⟨_, rfl⟩
    rw [Getter.classOf_account ht] at hl
    obtain rfl := hsame fun _ => rfl
    exact (run_bind_iff _).mpr ⟨a.accountType, w, run_accountType_iff.mpr ⟨⟨_, a, ht, rfl⟩, rfl⟩,
      (run_infosGetFromDB_iff (hw.live .infos)).mpr hl⟩

/-- The runs of a getter are its outcomes. -/
theorem run_getter_iff {c : Option IFromDB} {x : Fields} (hw : Sound w) (ht : w.heap.get this = some ⟨c, x⟩)
    (hf : g.field ∈ x.cls.refs) : run (g.call this) w = .ok (r, w') ↔ GotBy w g this r w' := by
  refine ⟨run_getter hw, fun h => ?_⟩
  rw [g.call_eq]
  simp only [getRef, run_bind_iff, run_obj_iff]
  refine ⟨_, w, ⟨ht, rfl⟩, ?_⟩
  have load {oid : Oid} {r : Option ℕ} {w₁ : World} (hl : g.Found w this oid r w₁) := Getter.run_load_of hw ht hf hl
  cases h with
  | settled ho hv hs =>
    obtain rfl := Option.some.inj (ht.symm.trans ho)
    simp only [hv]
    exact run_settle_of hs
  | absent ho hn hv hi =>
    obtain ⟨rfl, rfl⟩ : c = some _ ∧ x = _ := by simpa [ht] using ho
    simp only [hn, run_bind_iff, run_fromDB_iff, run_ofExcept_iff, Doc.elem_eq_ok]
    exact ⟨_, w, ⟨header_eq_ok.mpr ⟨x, ht⟩, rfl⟩, _, w, ⟨hv, rfl⟩, by simp [hi]⟩
  | missed ho hn hv hl hr =>
    obtain ⟨rfl, rfl⟩ : c = some _ ∧ x = _ := by simpa [ht] using ho
    simp only [hn, run_bind_iff, run_fromDB_iff, run_ofExcept_iff, Doc.elem_eq_ok]
    refine ⟨_, w, ⟨header_eq_ok.mpr ⟨x, ht⟩, rfl⟩, _, w, ⟨hv, rfl⟩, ?_⟩
    simp only [Bson.oid?_oid, run_bind_iff]
    exact ⟨none, w', load ⟨_, hl, .inl ⟨rfl, hr⟩⟩, by simp⟩
  | loaded ho hn hv hl hp hc h₁ =>
    obtain ⟨rfl, rfl⟩ : c = some _ ∧ x = _ := by simpa [ht] using ho
    rename_i p o₁ o₂ w₁
    simp only [hn, run_bind_iff, run_fromDB_iff, run_ofExcept_iff, Doc.elem_eq_ok]
    refine ⟨_, w, ⟨header_eq_ok.mpr ⟨x, ht⟩, rfl⟩, _, w, ⟨hv, rfl⟩, ?_⟩
    simp only [Bson.oid?_oid, run_bind_iff]
    refine ⟨some p, w₁, load ⟨_, hl, .inr ⟨p, o₂, rfl, hp, hc, rfl⟩⟩, ?_⟩
    simp only [run_bind_iff, run_assign_iff]
    obtain ⟨b, y, hq, hb⟩ := alive_put_setRef (f := g.field) (v := .to p) h₁ (hl.alive hw rfl)
    exact ⟨⟨⟩, _, ⟨o₁, h₁, rfl⟩, run_settle_of (.held hq hb)⟩

/-! ### What can be loaded -/

/-- The target of a stored reference: a cached object the getter takes, or a document its class is built from. -/
inductive Getter.Target (g : Getter) (w : World) (this : ℕ) (oid : Oid) : Prop
  | cached {p : ℕ} {o : Obj} (hc : w.cached g.kind oid = some p) (hp : w.heap.get p = some o)
      (hw : g.wants o.fields = true)
  | absent (hc : w.cached g.kind oid = none) (hs : w.stored g.kind oid = none)
  | stored {c : DBClass} {d : Doc} {o : Obj} (hc : w.cached g.kind oid = none) (hs : w.stored g.kind oid = some d)
      (hcl : g.classOf w this = some c) (ho : c.ofDoc d = .ok o) (hw : g.wants o.fields = true)

/-- What a getter needs to return: the object its pointer designates was not freed; a null one, that what the document names
can be loaded. -/
def Getter.Answerable (g : Getter) (w : World) (this : ℕ) (d : Doc) : Pointer → Prop
  | .uninit => False
  | .null => ∀ oid, d.get? g.key = some (.oid oid) → w.Loadable g.kind (g.classOf w this) oid
  | .to p => ∃ b, header w.heap p = .ok b

theorem Getter.Target.loadable {oid : Oid} (h : g.Target w this oid) : w.Loadable g.kind (g.classOf w this) oid := by
  intro hn d hd c hc
  cases h with
  | cached h => simp [hn] at h
  | absent _ hs => simp [hd] at hs
  | stored _ hs hcl ho =>
    obtain rfl := Option.some.inj (hd.symm.trans hs)
    obtain rfl := Option.some.inj (hc.symm.trans hcl)
    exact ⟨_, ho⟩

/-- What a look-up finds, a getter takes or leaves. -/
theorem Getter.gotBy_of_looked {b : IFromDB} {x : Fields} {oid : Oid} {w₁ : World} (hw : Sound w)
    (ht : w.heap.get this = some ⟨some b, x⟩) (hn : x.ref g.field = some .null) (hv : b.doc.get? g.key = some (.oid oid))
    (hl : Looked w g.kind oid (g.classOf w this) r w₁) : ∃ r w', GotBy w g this r w' := by
  cases r with
  | none => exact ⟨_, _, .missed ht hn hv hl (by simp)⟩
  | some p =>
    obtain ⟨c, y, hp, -⟩ := hl.alive hw rfl
    cases hy : g.wants y with
    | true => exact ⟨_, _, .loaded ht hn hv hl hp hy (hl.get ht)⟩
    | false =>
      refine ⟨_, _, .missed ht hn hv hl fun q hq => ?_⟩
      obtain rfl := Option.some.inj hq
      exact ⟨_, hp, hy⟩

/-- The getter of an object that exists returns exactly when it has what it needs. -/
theorem Getter.returns_iff {b : IFromDB} {x : Fields} {v : Pointer} (hw : Sound w) (ht : w.heap.get this = some ⟨some b, x⟩)
    (hb : b.isExist = true) (hv : x.ref g.field = some v) (hkey : ∃ u, b.doc.get? g.key = some u) :
    (∃ r w', run (g.call this) w = .ok (r, w')) ↔ g.Answerable w this b.doc v := by
  simp only [run_getter_iff hw ht (Fields.mem_refs.mpr ⟨v, hv⟩)]
  constructor
  · rintro ⟨r, w', h⟩
    cases h with
    | settled ho hv' hs =>
      obtain rfl := Option.some.inj (ht.symm.trans ho)
      obtain rfl := Option.some.inj (hv.symm.trans hv')
      cases hs with
      | held hp | letGo hp | freed hp => exact ⟨_, header_eq_ok.mpr ⟨_, hp⟩⟩
    | absent ho hn hd hi =>
      obtain ⟨rfl, rfl⟩ : b = _ ∧ x = _ := by simpa [ht] using ho
      obtain rfl := Option.some.inj (hv.symm.trans hn)
      intro oid hoid
      obtain rfl := Option.some.inj (hoid.symm.trans hd)
      cases hi
    | missed ho hn hd hl | loaded ho hn hd hl =>
      obtain ⟨rfl, rfl⟩ : b = _ ∧ x = _ := by simpa [ht] using ho
      obtain rfl := Option.some.inj (hv.symm.trans hn)
      intro oid hoid
      obtain rfl : _ = oid := by simpa using hd.symm.trans hoid
      exact exists_looked_iff.mp ⟨_, _, hl⟩
  · intro h
    cases v with
    | uninit => exact h.elim
    | «to» p =>
      obtain ⟨c, hc⟩ := h
      obtain ⟨y, hp⟩ := header_eq_ok.mp hc
      cases hc' : c.isExist with
      | true => exact ⟨_, _, .settled ht hv (.held hp hc')⟩
      | false =>
        have hne : this ≠ p := by
          rintro rfl
          obtain ⟨rfl, rfl⟩ : b = c ∧ x = y := by simpa [ht] using hp
          rw [hb] at hc'
          cases hc'
        by_cases hn : c.ownedCount = 1
        · exact ⟨_, _, .settled ht hv (.freed hp hc' hn hne ht)⟩
        · exact ⟨_, _, .settled ht hv (.letGo hp hc' hn (by rw [Lib.Conf.get_put hp, if_neg hne, ht]))⟩
    | null =>
      obtain ⟨u, hu⟩ := hkey
      cases hoid : u.oid? with
      | none => exact ⟨_, _, .absent ht hv hu hoid⟩
      | some oid =>
        obtain rfl := Bson.oid?_eq_some.mp hoid
        obtain ⟨r, w₁, hl⟩ := exists_looked_iff.mpr (h oid hu)
        exact Getter.gotBy_of_looked hw ht hv hu hl

end Cbt
