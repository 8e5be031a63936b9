import Cbt.Effects.Sound

/-! The getters, from a sound world. A getter whose pointer is null looks up the
id its object's document names; what it finds exists, so it is kept. Members
other than the one a getter is about stay as they are. -/

namespace Cbt

open Lib.Command (run_bind_iff run_pure_iff run_fault_iff run_ofExcept_iff)

/-- The member a getter is about. -/
def Getter.field : Getter → RefField
  | .getCurator => .curator
  | .getTeacherOwner | .getStudentOwner => .owner
  | .getStudentGroup | .getScheduleGroup => .group
  | .getAdditionalInfo => .additionalInfo
  | .getTeacher => .teacher

/-- The class a getter builds an object of. -/
def Getter.classOf (g : Getter) (w : World) (this : ℕ) : Option DBClass :=
  match g with
  | .getTeacherOwner | .getStudentOwner => some .accountDB
  | .getStudentGroup | .getScheduleGroup => some .groupDB
  | .getCurator | .getTeacher => some .teacherInfoDB
  | .getAdditionalInfo => match w.heap.get this with
    | some ⟨_, .account a⟩ => InfosController.classOf a.accountType
    | _ => none

theorem Getter.classOf_ne (g : Getter) (w : World) (this : ℕ) : g.classOf w this ≠ some .additionalInfoDB := by
  cases g <;> simp only [Getter.classOf] <;> try simp
  split
  · rename_i a _
    cases a.accountType <;> simp [InfosController.classOf]
  · simp

theorem Getter.kind_classOf {g : Getter} {w : World} {this : ℕ} {c : DBClass} (h : g.classOf w this = some c) : c.kind = g.kind := by
  cases g with
  | getAdditionalInfo =>
    simp only [Getter.classOf] at h
    split at h
    · rename_i a _
      cases ht : a.accountType <;> simp only [ht, InfosController.classOf, Option.some.injEq, reduceCtorEq] at h <;>
        exact h ▸ rfl
    · cases h
  | _ => exact Option.some.inj h ▸ rfl

/-- The classes a getter's `dynamic_cast` lets through. -/
def Getter.wants : Getter → Fields → Bool
  | .getCurator, x | .getTeacher, x => x.isTeacher
  | _, _ => true

theorem Getter.wants_of_cls {g : Getter} {w : World} {p : ℕ} {x : Fields} (h : g.classOf w p = some x.cls) :
    g.wants x = true := by
  cases g <;> first | rfl | (cases x <;> simp_all [Getter.classOf, Fields.cls, Getter.wants, Fields.isTeacher])

theorem Getter.wants_congr {x y : Fields} (g : Getter) (h : x.cls = y.cls) : g.wants x = g.wants y := by
  cases g <;> first | rfl | (cases x <;> cases y <;> first | rfl | cases h)

variable {w w' : World} {g : Getter} {this : ℕ} {r : Option ℕ}

/-- The outcomes of a getter. -/
inductive GotBy (w : World) (g : Getter) (this : ℕ) : Option ℕ → World → Prop
  | settled {o : Obj} {p : ℕ} {r : Option ℕ} {w' : World} (ho : w.heap.get this = some o)
      (hv : o.fields.ref g.field = some (.to p)) (hs : Settled w g.field this p r w') : GotBy w g this r w'
  | absent {b : IFromDB} {x : Fields} {v : Bson} (ho : w.heap.get this = some ⟨some b, x⟩)
      (hn : x.ref g.field = some .null) (hv : b.doc.get? g.key = some v) (hi : v.oid? = none) :
      GotBy w g this none w
  | missed {b : IFromDB} {x : Fields} {oid : Oid} {r₀ : Option ℕ} {w' : World}
      (ho : w.heap.get this = some ⟨some b, x⟩)
      (hn : x.ref g.field = some .null) (hv : b.doc.get? g.key = some (.oid oid))
      (hl : Looked w g.kind oid (g.classOf w this) r₀ w')
      (hr : ∀ p, r₀ = some p → ∃ o, w'.heap.get p = some o ∧ g.wants o.fields = false) : GotBy w g this none w'
  | loaded {b : IFromDB} {x : Fields} {oid : Oid} {p : ℕ} {o₁ o₂ : Obj} {w₁ : World}
      (ho : w.heap.get this = some ⟨some b, x⟩)
      (hn : x.ref g.field = some .null) (hv : b.doc.get? g.key = some (.oid oid))
      (hl : Looked w g.kind oid (g.classOf w this) (some p) w₁) (hp : w₁.heap.get p = some o₂)
      (hc : g.wants o₂.fields = true) (h₁ : w₁.heap.get this = some o₁) :
      GotBy w g this (some p) (w₁.put this (o₁.setRef g.field (.to p)))

theorem alive_put_setRef {p : ℕ} {o : Obj} {f : RefField} {v : Pointer} (ho : w.heap.get this = some o)
    (hp : w.Alive p) : (w.put this (o.setRef f v)).Alive p := by
  obtain ⟨b, x, hg, hb⟩ := hp
  by_cases he : p = this
  · subst he
    obtain rfl := Option.some.inj (ho.symm.trans hg)
    exact ⟨b, x.setRef f v, by simp [Lib.Heap.get_set _ ho, Obj.setRef], hb⟩
  · exact ⟨b, x, by simpa [Lib.Heap.get_set _ ho, he] using hg, hb⟩

/-- The look-up of a getter, behind its `dynamic_cast`. -/
def Getter.Found (g : Getter) (w : World) (this : ℕ) (oid : Oid) (r : Option ℕ) (w₁ : World) : Prop :=
  ∃ r₀, Looked w g.kind oid (g.classOf w this) r₀ w₁ ∧
    (r = none ∧ (∀ p, r₀ = some p → ∃ o, w₁.heap.get p = some o ∧ g.wants o.fields = false) ∨
      ∃ p o, r₀ = some p ∧ w₁.heap.get p = some o ∧ g.wants o.fields = true ∧ r = some p)

theorem gotBy_of_got {load : Oid → Cmd (Option ℕ)} (hw : Sound w)
    (hload : ∀ oid r w₁, run (load oid) w = .ok (r, w₁) → g.Found w this oid r w₁)
    (h : Got w g.field g.key load this r w') : GotBy w g this r w' := by
  cases h with
  | settled ho hv hs => exact .settled ho hv hs
  | absent ho hn hv hi => exact .absent ho hn hv hi
  | missed ho hn hv hl =>
    obtain ⟨r₀, hk, ⟨-, hr⟩ | ⟨p, o, -, -, -, hr⟩⟩ := hload _ _ _ hl
    · exact .missed ho hn hv hk hr
    · cases hr
  | loaded ho hn hv hl h₁ hs =>
    obtain ⟨r₀, hk, ⟨hr, -⟩ | ⟨p, o, rfl, hp, hc, hr⟩⟩ := hload _ _ _ hl
    · cases hr
    · obtain rfl := Option.some.inj hr
      obtain ⟨rfl, rfl⟩ := hs.of_alive (alive_put_setRef h₁ (hk.alive hw rfl))
      exact .loaded ho hn hv hk hp hc h₁

/-- A look-up that is not cast. -/
theorem Getter.found_of_looked {oid : Oid} {w₁ : World} (hw : Sound w) (hg : ∀ x, g.wants x = true)
    (h : Looked w g.kind oid (g.classOf w this) r w₁) : g.Found w this oid r w₁ := by
  refine ⟨r, h, ?_⟩
  cases r with
  | none => exact .inl ⟨rfl, by simp⟩
  | some p =>
    obtain ⟨b, x, hp, -⟩ := h.alive hw rfl
    exact .inr ⟨p, _, rfl, hp, hg _, rfl⟩

/-- A look-up that is cast. -/
theorem Getter.found_of_cast {oid : Oid} {r₀ : Option ℕ} {w₁ w₂ : World} (hg : ∀ x, g.wants x = x.isTeacher)
    (h : Looked w g.kind oid (g.classOf w this) r₀ w₁)
    (hc : run (cast Fields.isTeacher r₀) w₁ = .ok (r, w₂)) : g.Found w this oid r w₂ := by
  obtain ⟨rfl, ⟨rfl, rfl⟩ | ⟨p, o, rfl, hp, rfl⟩⟩ := run_cast_iff.mp hc
  · exact ⟨none, h, .inl ⟨rfl, by simp⟩⟩
  · cases ht : o.fields.isTeacher with
    | false =>
      refine ⟨some p, h, .inl ⟨by simp, fun q hq => ?_⟩⟩
      obtain rfl := Option.some.inj hq
      exact ⟨o, hp, by rw [hg, ht]⟩
    | true => exact ⟨some p, h, .inr ⟨p, o, rfl, hp, by rw [hg, ht], by simp⟩⟩

/-- Every run of a getter has one of its outcomes. -/
theorem run_getter (hw : Sound w) (h : run (g.call this) w = .ok (r, w')) : GotBy w g this r w' := by
  cases g with
  | getTeacherOwner =>
    exact gotBy_of_got hw (fun oid r w₁ hl => Getter.found_of_looked hw (fun _ => rfl)
      ((run_getFromDB_iff (hw.live .accounts)).mp hl)) (run_getRef h)
  | getStudentOwner =>
    exact gotBy_of_got hw (fun oid r w₁ hl => Getter.found_of_looked hw (fun _ => rfl)
      ((run_getFromDB_iff (hw.live .accounts)).mp hl)) (run_getRef h)
  | getStudentGroup =>
    exact gotBy_of_got hw (fun oid r w₁ hl => Getter.found_of_looked hw (fun _ => rfl)
      ((run_getFromDB_iff (hw.live .groups)).mp hl)) (run_getRef h)
  | getScheduleGroup =>
    exact gotBy_of_got hw (fun oid r w₁ hl => Getter.found_of_looked hw (fun _ => rfl)
      ((run_getFromDB_iff (hw.live .groups)).mp hl)) (run_getRef h)
  | getCurator =>
    refine gotBy_of_got hw (fun oid r w₁ hl => ?_) (run_getRef h)
    obtain ⟨r₀, w₀, hl, hc⟩ := (run_bind_iff _).mp hl
    exact Getter.found_of_cast (fun _ => rfl) ((run_infosGetFromDB_iff (hw.live .infos)).mp hl) hc
  | getTeacher =>
    refine gotBy_of_got hw (fun oid r w₁ hl => ?_) (run_getRef h)
    obtain ⟨r₀, w₀, hl, hc⟩ := (run_bind_iff _).mp hl
    exact Getter.found_of_cast (fun _ => rfl) ((run_infosGetFromDB_iff (hw.live .infos)).mp hl) hc
  | getAdditionalInfo =>
    refine gotBy_of_got hw (fun oid r w₁ hl => ?_) (run_getRef h)
    simp only [run_bind_iff, run_accountType_iff] at hl
    obtain ⟨_, _, ⟨⟨c, a, ha, rfl⟩, rfl⟩, hl⟩ := hl
    refine Getter.found_of_looked hw (fun _ => rfl) ?_
    have hc : Getter.classOf .getAdditionalInfo w this = InfosController.classOf a.accountType := by
      simp [Getter.classOf, ha]
    rw [hc]
    exact (run_infosGetFromDB_iff (hw.live .infos)).mp hl

/-! ### Other members -/

/-- A pointer member of the object at an address. -/
def Lib.Conf.refOf (w : World) (p : ℕ) (f : RefField) : Option Pointer :=
  (w.heap.get p).bind fun o => o.fields.ref f

theorem refOf_of_get {p : ℕ} {o : Obj} (h : w.heap.get p = some o) (f : RefField) : w.refOf p f = o.fields.ref f := by
  simp [Lib.Conf.refOf, h]

@[simp] theorem refOf_push (w : World) (o : Obj) (f : RefField) : (w.push o).refOf w.heap.next f = o.fields.ref f := by
  simp [Lib.Conf.refOf]

theorem Fields.ref_setRef_of_ne {f f' : RefField} (h : f' ≠ f) (x : Fields) (v : Pointer) :
    (x.setRef f v).ref f' = x.ref f' := by
  cases x <;> cases f <;> first | rfl | (cases f' <;> first | rfl | exact absurd rfl h)

theorem refOf_put_setRef {o : Obj} {f f' : RefField} {v : Pointer} {p : ℕ} (ho : w.heap.get this = some o)
    (hf : p ≠ this ∨ f' ≠ f) : (w.put this (o.setRef f v)).refOf p f' = w.refOf p f' := by
  by_cases hp : p = this
  · subst hp
    have hf : f' ≠ f := by simpa using hf
    simp [Lib.Conf.refOf, Lib.Heap.get_set _ ho, ho, Fields.ref_setRef_of_ne hf]
  · simp [Lib.Conf.refOf, Lib.Heap.get_set _ ho, hp]

theorem refOf_own {p q : ℕ} {b b' : IFromDB} {x : Fields} (hq : w.heap.get q = some ⟨some b, x⟩) (f : RefField) :
    (w.put q ⟨some b', x⟩).refOf p f = w.refOf p f := by
  by_cases hp : p = q
  · subst hp; simp [Lib.Conf.refOf, Lib.Heap.get_set _ hq, hq]
  · simp [Lib.Conf.refOf, Lib.Heap.get_set _ hq, hp]

theorem Looked.get {k : Kind} {oid : Oid} {c? : Option DBClass} (h : Looked w k oid c? r w') {p : ℕ} {o : Obj}
    (hp : w.heap.get p = some o) : w'.heap.get p = some o := by
  cases h with
  | hit => exact hp
  | absent => exact hp
  | loaded => exact Lib.Heap.get_push_of_some _ hp

theorem Settled.refOf {f f' : RefField} {p q : ℕ} (h : Settled w f this p r w') (hq : w.Alive q)
    (hf : q ≠ this ∨ f' ≠ f) : w'.refOf q f' = w.refOf q f' := by
  cases h with
  | held => rfl
  | letGo hp hb hn ho => rw [refOf_put_setRef ho hf, refOf_own hp]
  | freed hp hb hn ht ho =>
    have hqp : q ≠ p := by
      rintro rfl
      obtain ⟨b', x', hg, hb'⟩ := hq
      obtain ⟨rfl, rfl⟩ : _ = b' ∧ _ = x' := by simpa [hp] using hg
      simp [hb] at hb'
    rw [refOf_put_setRef (by simpa [Lib.Heap.get_free, ht] using ho) hf]
    simp [Lib.Conf.refOf, Lib.Heap.get_free, hqp]

/-- A getter leaves the other members of the objects that exist alone. -/
theorem GotBy.refOf {f' : RefField} {q : ℕ} (h : GotBy w g this r w') (hq : w.Alive q)
    (hf : q ≠ this ∨ f' ≠ g.field) : w'.refOf q f' = w.refOf q f' := by
  have hlook : ∀ {k oid c? r₀ w₁}, Looked w k oid c? r₀ w₁ → w₁.refOf q f' = w.refOf q f' := by
    intro k oid c? r₀ w₁ hl
    obtain ⟨b, x, hg, -⟩ := hq
    rw [refOf_of_get hg, refOf_of_get (hl.get hg)]
  cases h with
  | settled ho hv hs => exact hs.refOf hq hf
  | absent => rfl
  | missed ho hn hv hl hr => exact hlook hl
  | loaded ho hn hv hl hp hc h₁ => rw [refOf_put_setRef h₁ hf, hlook hl]

/-- A getter leaves the other objects that exist alone. -/
theorem GotBy.get_other {q : ℕ} (h : GotBy w g this r w') (hq : w.Alive q) (hne : q ≠ this) :
    w'.heap.get q = w.heap.get q := by
  have hdead : ∀ {p b x}, w.heap.get p = some ⟨some b, x⟩ → b.isExist = false → q ≠ p := by
    rintro p b x hp hb rfl
    obtain ⟨b', x', hg, hb'⟩ := hq
    obtain ⟨rfl, rfl⟩ : b = b' ∧ x = x' := by simpa [hp] using hg
    simp [hb] at hb'
  have hlook : ∀ {k oid c? r₀ w₁}, Looked w k oid c? r₀ w₁ → w₁.heap.get q = w.heap.get q := by
    intro k oid c? r₀ w₁ hl
    obtain ⟨b, x, hg, -⟩ := hq
    rw [hg, hl.get hg]
  cases h with
  | settled ho hv hs =>
    cases hs with
    | held => rfl
    | letGo hp hb hn ho => rw [Lib.Conf.get_put ho, if_neg hne, Lib.Conf.get_put hp, if_neg (hdead hp hb)]
    | freed hp hb hn ht ho =>
      have ho' : (w.free _).heap.get this = _ := (Lib.Heap.get_free _ _ _).trans ((if_neg ht).trans ho)
      rw [Lib.Conf.get_put ho', if_neg hne, Lib.Conf.heap_free, Lib.Heap.get_free, if_neg (hdead hp hb)]
  | absent => rfl
  | missed ho hn hv hl hr => exact hlook hl
  | loaded ho hn hv hl hp hc h₁ => rw [Lib.Conf.get_put h₁, if_neg hne, hlook hl]

/-- A getter with a pointer to an object that exists. -/
theorem GotBy.of_to {g : Getter} {this p : ℕ} {r : Option ℕ} (h : GotBy w g this r w')
    (hn : w.refOf this g.field = some (.to p)) (hp : w.Alive p) : r = some p ∧ w' = w := by
  cases h with
  | settled ho hv hs =>
    rw [refOf_of_get ho, hv] at hn
    obtain rfl : _ = p := by simpa using hn
    exact hs.of_alive hp
  | absent ho hn' => simp [refOf_of_get ho, hn'] at hn
  | missed ho hn' => simp [refOf_of_get ho, hn'] at hn
  | loaded ho hn' => simp [refOf_of_get ho, hn'] at hn

/-- What a getter yields exists, and its member points to it. -/
theorem GotBy.alive {p : ℕ} (hw : Sound w) (h : GotBy w g this (some p) w') :
    w'.Alive p ∧ w'.refOf this g.field = some (.to p) := by
  cases h with
  | settled ho hv hs =>
    cases hs with
    | held hp hb => exact ⟨⟨_, _, hp, hb⟩, (refOf_of_get ho _).trans hv⟩
  | loaded ho hn hv hl hp hc h₁ =>
    refine ⟨alive_put_setRef h₁ (hl.alive hw rfl), ?_⟩
    obtain rfl := Option.some.inj ((hl.get ho).symm.trans h₁)
    rw [refOf_of_get (by rw [Lib.Conf.get_put h₁, if_pos rfl])]
    exact Fields.ref_setRef hn _

/-- After a getter that yields nothing its member is null. -/
theorem GotBy.ref_none (h : GotBy w g this none w') : w'.refOf this g.field = some .null := by
  cases h with
  | @settled o p _ _ ho hv hs =>
    cases hs with
    | @letGo b x o' hp hb hn ho' =>
      have hr : o'.fields.ref g.field = some (.to p) := by
        rw [← refOf_of_get ho', refOf_own hp, refOf_of_get ho, hv]
      rw [refOf_of_get (by rw [Lib.Conf.get_put ho', if_pos rfl])]
      exact Fields.ref_setRef hr _
    | freed hp hb hn ht ho' =>
      obtain rfl := Option.some.inj (ho.symm.trans ho')
      rw [refOf_of_get (by rw [Lib.Conf.get_put (by simpa [Lib.Heap.get_free, ht] using ho'), if_pos rfl])]
      exact Fields.ref_setRef hv _
  | absent ho hn => exact (refOf_of_get ho _).trans hn
  | missed ho hn hv hl hr => exact (refOf_of_get (hl.get ho) _).trans hn

end Cbt
