import Cbt.Lib.Typing
import Cbt.Effects.Answering

/-! The static types of the program, kept in memory. Every pointer member and
every cache entry designates an address of the class its declaration says,
whether or not the object is still there. Addresses are not given out twice, so
the class of an address never changes, and every command keeps these types. -/

namespace Cbt

open Lib.Command (run_bind_iff run_pure_iff run_fault_iff run_ofExcept_iff)

variable {α β : Type} {w w' : World} {k : Kind}

/-- The class of the object that is or was at an address. -/
structure Classes where
  cls : ℕ → Option DBClass

instance : Preorder Classes where
  le Γ Γ' := ∀ p c, Γ.cls p = some c → Γ'.cls p = some c
  le_refl _ _ _ h := h
  le_trans _ _ _ h h' p c hc := h' p c (h p c hc)

/-- The declared classes of a pointer member. -/
def RefField.designates : RefField → DBClass → Bool
  | .additionalInfo, c => c.kind = .infos
  | .curator, .teacherInfoDB | .teacher, .teacherInfoDB | .owner, .accountDB | .group, .groupDB => true
  | _, _ => false

theorem RefField.admits_eq (f : RefField) (x : Fields) : f.admits x = f.designates x.cls := by
  cases f <;> cases x <;> rfl

/-- An address has a class of the controller of a collection. -/
def Classes.In (Γ : Classes) (k : Kind) (p : ℕ) : Prop := ∃ c, Γ.cls p = some c ∧ c.kind = k

/-- An address has a class that a pointer member designates. -/
def Classes.Fits (Γ : Classes) (f : RefField) (p : ℕ) : Prop := ∃ c, Γ.cls p = some c ∧ f.designates c = true

structure WellTyped (Γ : Classes) (w : World) : Prop where
  cls : ∀ p o, w.heap.get p = some o → Γ.cls p = some o.fields.cls
  ref : ∀ p o f q, w.heap.get p = some o → o.fields.ref f = some (.to q) → Γ.Fits f q
  students : ∀ p c g, w.heap.get p = some ⟨c, .group g⟩ → ∀ q ∈ g.students, Γ.cls q = some .studentInfoDB
  cash : ∀ k, ∀ p ∈ w.cash k, Γ.In k p
  below : ∀ p c, Γ.cls p = some c → p < w.heap.next

variable {Γ Γ' : Classes}

theorem Classes.In.mono {p : ℕ} (h : Γ.In k p) (hΓ : Γ ≤ Γ') : Γ'.In k p := h.imp fun _ hc => ⟨hΓ _ _ hc.1, hc.2⟩

theorem Classes.Fits.mono {f : RefField} {p : ℕ} (h : Γ.Fits f p) (hΓ : Γ ≤ Γ') : Γ'.Fits f p :=
  h.imp fun _ hc => ⟨hΓ _ _ hc.1, hc.2⟩

theorem Fields.ref_setRef_none {x : Fields} {f : RefField} {v : Pointer} (h : x.ref f = none) :
    (x.setRef f v).ref f = none := by
  cases x <;> cases f <;> first | rfl | cases h

/-- A pointer of the right class designates an object of the right class. -/
theorem WellTyped.admits (h : WellTyped Γ w) {f : RefField} {p : ℕ} {o : Obj} (hf : Γ.Fits f p)
    (hp : w.heap.get p = some o) : f.admits o.fields = true := by
  obtain ⟨c, hc, hf⟩ := hf
  rw [h.cls p o hp, Option.some.injEq] at hc
  rw [f.admits_eq, hc, hf]

/-! ### One change of the memory -/

namespace WellTyped

/-- Only the memory has types. -/
theorem of_heap (h : WellTyped Γ w) (hh : w'.heap = w.heap) (hc : w'.cash = w.cash) : WellTyped Γ w' where
  cls := hh ▸ h.cls
  ref := hh ▸ h.ref
  students := hh ▸ h.students
  cash := hc ▸ h.cash
  below := hh ▸ h.below

theorem put (h : WellTyped Γ w) {p : ℕ} {o o' : Obj} (hp : w.heap.get p = some o) (hc : o'.fields.cls = o.fields.cls)
    (hr : ∀ f q, o'.fields.ref f = some (.to q) → o.fields.ref f = some (.to q) ∨ Γ.Fits f q)
    (hs : ∀ g', o'.fields = .group g' → ∀ q ∈ g'.students,
      (∃ g, o.fields = .group g ∧ q ∈ g.students) ∨ Γ.cls q = some .studentInfoDB) : WellTyped Γ (w.put p o') := by
  have hget : ∀ q, (w.put p o').heap.get q = if q = p then some o' else w.heap.get q := Lib.Conf.get_put hp
  refine ⟨fun q oq hq => ?_, fun q oq f r hq hf => ?_, fun q c g hq r hr' => ?_, h.cash, fun q c hq => ?_⟩
  · rw [hget] at hq
    split_ifs at hq with he
    · obtain rfl := Option.some.inj hq
      rw [he, hc, h.cls p o hp]
    · exact h.cls q oq hq
  · rw [hget] at hq
    split_ifs at hq with he
    · obtain rfl := Option.some.inj hq
      exact (hr f r hf).elim (h.ref p o f r hp) id
    · exact h.ref q oq f r hq hf
  · rw [hget] at hq
    split_ifs at hq with he
    · obtain rfl := Option.some.inj hq
      rcases hs g rfl r hr' with ⟨g₀, hg₀, hr₀⟩ | hr₀
      · obtain ⟨c₀, x₀⟩ := o
        obtain rfl : x₀ = .group g₀ := hg₀
        exact h.students p c₀ g₀ hp r hr₀
      · exact hr₀
    · exact h.students q c g hq r hr'
  · simpa using h.below q c hq

theorem own (h : WellTyped Γ w) {p : ℕ} {b b' : Option IFromDB} {x : Fields} (hp : w.heap.get p = some ⟨b, x⟩) :
    WellTyped Γ (w.put p ⟨b', x⟩) :=
  h.put hp rfl (fun _ _ hf => .inl hf) fun g hg _ hq => .inl ⟨g, hg, hq⟩

theorem assign (h : WellTyped Γ w) {this : ℕ} {o : Obj} {f : RefField} {v : Pointer} (ho : w.heap.get this = some o)
    (hv : ∀ q, v = .to q → Γ.Fits f q) : WellTyped Γ (w.put this (o.setRef f v)) := by
  refine h.put ho (Fields.cls_setRef _ _ _) (fun f' q hf => ?_) fun g hg q hq => ?_
  · by_cases hff : f' = f
    · subst hff
      cases hu : o.fields.ref f' with
      | none =>
        rw [Obj.setRef, Fields.ref_setRef_none hu] at hf
        cases hf
      | some u =>
        rw [Obj.setRef, Fields.ref_setRef hu, Option.some.injEq] at hf
        exact .inr (hv q hf)
    · exact .inl ((Fields.ref_setRef_of_ne hff _ _).symm.trans hf)
  · obtain ⟨g', hg', he⟩ := students_setRef hg
    exact .inl ⟨g', hg', he ▸ hq⟩

theorem free (h : WellTyped Γ w) (p : ℕ) : WellTyped Γ (w.free p) := by
  have hget : ∀ {q o}, (w.free p).heap.get q = some o → w.heap.get q = some o := by
    intro q o hq
    rw [Lib.Conf.heap_free, Lib.Heap.get_free] at hq
    split_ifs at hq
    exact hq
  exact ⟨fun q o hq => h.cls q o (hget hq), fun q o f r hq => h.ref q o f r (hget hq),
    fun q c g hq => h.students q c g (hget hq), h.cash, fun q c hq => by simpa using h.below q c hq⟩

theorem setCash (h : WellTyped Γ w) {l : List ℕ} (hl : ∀ p ∈ l, Γ.In k p) : WellTyped Γ (w.setCash k l) := by
  refine ⟨h.cls, h.ref, h.students, fun k' p hp => ?_, h.below⟩
  by_cases hk : k' = k
  · subst hk
    simp only [Lib.Conf.cash_setCash, if_true] at hp
    exact hl p hp
  · simp only [Lib.Conf.cash_setCash, hk, if_false] at hp
    exact h.cash k' p hp

/-- A new object points to nothing, and its address gets its class. -/
theorem push (h : WellTyped Γ w) {o : Obj} (ho : o.fields.bare = o.fields) :
    ∃ Γ', Γ ≤ Γ' ∧ WellTyped Γ' (w.push o) ∧ Γ'.cls w.heap.next = some o.fields.cls := by
  have hle : Γ ≤ ⟨Function.update Γ.cls w.heap.next (some o.fields.cls)⟩ := by
    intro p c hc
    exact (Function.update_of_ne (h.below p c hc).ne ..).trans hc
  refine ⟨_, hle, ?_, Function.update_self ..⟩
  refine ⟨fun q oq hq => ?_, fun q oq f r hq hf => ?_, fun q c g hq r hr => ?_, fun k p hp => (h.cash k p hp).mono hle,
    fun q c hq => ?_⟩
  · rw [Lib.Conf.heap_push, Lib.Heap.get_push] at hq
    split_ifs at hq with he
    · obtain rfl := Option.some.inj hq
      rw [he]
      exact Function.update_self ..
    · exact hle _ _ (h.cls q oq hq)
  · rw [Lib.Conf.heap_push, Lib.Heap.get_push] at hq
    split_ifs at hq with he
    · obtain rfl := Option.some.inj hq
      rcases ref_of_bare ho hf with hn | ⟨hn, -⟩ <;> cases hn
    · exact (h.ref q oq f r hq hf).mono hle
  · rw [Lib.Conf.heap_push, Lib.Heap.get_push] at hq
    split_ifs at hq with he
    · obtain rfl := Option.some.inj hq
      simp only [Fields.bare, Fields.group.injEq] at ho
      rw [← ho] at hr
      cases hr
    · exact hle _ _ (h.students q c g hq r hr)
  · by_cases he : q = w.heap.next
    · simp [he, Lib.Heap.next_push]
    · have hlt := h.below q c (by simpa [Function.update_of_ne he] using hq)
      simp only [Lib.Conf.heap_push, Lib.Heap.next_push]
      omega

end WellTyped

/-! ### Commands on memory -/

/-- A command keeps the types, and its result has one. -/
abbrev Types (Γ : Classes) (ty : Classes → α → Prop) (m : Cmd α) : Prop :=
  Lib.Command.Preserves Database.serve WellTyped Γ ty m

/-- Results whose type nothing depends on. -/
abbrev untyped : Classes → α → Prop := fun _ _ => True

/-- A null pointer, or one that designates an address with a property. -/
abbrev nullOr (ty : Classes → ℕ → Prop) : Classes → Option ℕ → Prop := fun Γ r => ∀ p, r = some p → ty Γ p

theorem types_null {ty : Classes → ℕ → Prop} : Types Γ (nullOr ty) (pure none) :=
  .pure fun _ _ p hp => by cases hp

theorem types_still {m : Cmd α} (hm : ∀ w a w', run m w = .ok (a, w') → w' = w) : Types Γ untyped m :=
  .still hm fun _ _ _ _ _ _ => trivial

theorem Types.untyped {ty : Classes → α → Prop} {m : Cmd α} (h : Types Γ ty m) : Types Γ Cbt.untyped m :=
  h.imp fun _ _ _ _ => trivial

theorem types_fault (e : Fault) : Types Γ untyped (Lib.Command.fault e : Cmd α) := .fault e

theorem types_ofExcept (x : Except Fault α) : Types Γ untyped (Lib.Command.ofExcept x) :=
  types_still fun _ _ _ h => ((run_ofExcept_iff _).mp h).2.symm

theorem types_fromDB (p : ℕ) : Types Γ untyped (fromDB p) := types_still fun _ _ _ h => (run_fromDB_iff.mp h).2.symm

theorem types_own (p : ℕ) (n : ℤ) : Types Γ untyped (own p n) := by
  refine .step fun Γ₁ w _ w' _ hw h => ?_
  obtain ⟨b, x, hp, rfl⟩ := run_own_iff.mp h
  exact ⟨hw.own hp, trivial⟩

theorem types_modifyFromDB (p : ℕ) (f : IFromDB → IFromDB) : Types Γ untyped (modifyFromDB p f) := by
  refine .step fun Γ₁ w _ w' _ hw h => ?_
  obtain ⟨b, x, hp, rfl⟩ := run_modifyFromDB_iff.mp h
  exact ⟨hw.own hp, trivial⟩

theorem types_newObj {o : Obj} (ho : o.fields.bare = o.fields) :
    Types Γ (fun Γ p => Γ.cls p = some o.fields.cls) (newObj o) := by
  intro Γ₁ w p w' _ hw h
  obtain ⟨rfl, rfl⟩ := run_newObj_iff.mp h
  exact hw.push ho

theorem types_construct (c : DBClass) (d : Doc) : Types Γ (fun Γ p => Γ.cls p = some c) (construct c d) := by
  intro Γ₁ w p w' _ hw h
  obtain ⟨o, ho, rfl, rfl⟩ := run_construct_iff.mp h
  obtain ⟨x, i, hx, -, rfl⟩ := ofDoc_eq_ok.mp ho
  obtain ⟨Γ', hle, hw', hp⟩ := hw.push (o := ⟨some _, x⟩) (DBClass.bare_fields hx)
  exact ⟨Γ', hle, hw', hp.trans (congrArg _ (DBClass.cls_fields hx))⟩

theorem types_destroy (p : ℕ) : Types Γ untyped (destroy p) := by
  refine .step fun Γ₁ w _ w' _ hw h => ?_
  obtain ⟨-, rfl⟩ := run_destroy_iff.mp h
  exact ⟨hw.free p, trivial⟩

theorem types_cash (k : Kind) : Types Γ (fun Γ l => ∀ p ∈ l, Γ.In k p) (cash k) :=
  .still (fun _ _ _ h => (run_cash_iff.mp h).2.symm) fun _ _ _ _ hw h => (run_cash_iff.mp h).1 ▸ hw.cash k

theorem types_setCash {l : List ℕ} (hl : ∀ p ∈ l, Γ.In k p) : Types Γ untyped (setCash k l) := by
  refine .step fun Γ₁ w _ w' hle hw h => ?_
  obtain rfl := run_setCash_iff.mp h
  exact ⟨hw.setCash fun p hp => (hl p hp).mono hle, trivial⟩

theorem types_setChanged (k : Kind) (b : Bool) : Types Γ untyped (setChanged k b) := by
  refine .step fun Γ₁ w _ w' _ hw h => ?_
  obtain rfl := run_setChanged_iff.mp h
  exact ⟨hw.of_heap rfl (by simp), trivial⟩

/-- A call of the database leaves the memory alone. -/
theorem types_call (c : Call) : Types Γ untyped (Lib.Command.call c : Cmd c.Answer) := by
  refine .step fun Γ₁ w _ w' _ hw h => ?_
  obtain ⟨s, -, rfl⟩ := (Lib.Command.run_call_iff _).mp h
  exact ⟨hw.of_heap rfl rfl, trivial⟩

theorem types_value (x : Option α) : Types Γ untyped (value x) := types_still fun _ _ _ h => (run_value_iff.mp h).2.symm

theorem types_assign {f : RefField} {this : ℕ} {v : Pointer} (hv : ∀ q, v = .to q → Γ.Fits f q) :
    Types Γ untyped (assign f this v) := by
  refine .step fun Γ₁ w _ w' hle hw h => ?_
  obtain ⟨o, ho, rfl⟩ := run_assign_iff.mp h
  exact ⟨hw.assign ho fun q hq => (hv q hq).mono hle, trivial⟩

theorem types_groupOf (p : ℕ) : Types Γ (fun Γ g => ∀ q ∈ g.students, Γ.cls q = some .studentInfoDB) (groupOf p) := by
  refine .still (fun _ _ _ h => (run_groupOf_iff.mp h).2.symm) fun Γ₁ w g _ hw h => ?_
  obtain ⟨⟨c, hg⟩, -⟩ := run_groupOf_iff.mp h
  exact hw.students p c g hg

theorem types_assignStudents {this : ℕ} {l : List ℕ} (hl : ∀ q ∈ l, Γ.cls q = some .studentInfoDB) :
    Types Γ untyped (assignStudents this l) := by
  refine .step fun Γ₁ w _ w' hle hw h => ?_
  obtain ⟨c, g, hg, rfl⟩ := run_assignStudents_iff.mp h
  refine ⟨hw.put hg rfl (fun f q hf => .inl ?_) fun g' hg' q hq => .inr ?_, trivial⟩
  · cases f <;> exact hf
  · obtain rfl := Fields.group.inj hg'
    exact hle _ _ (hl q hq)

/-! ### Controllers -/

theorem types_pushBack {p : ℕ} (hp : Γ.In k p) : Types Γ untyped (Controller.pushBack k p) := by
  refine .bind (types_cash k) fun l Γ₁ hle hl => types_setCash fun q hq => ?_
  rcases List.mem_append.mp hq with hq | hq
  · exact hl q hq
  · exact List.mem_singleton.mp hq ▸ hp.mono hle

theorem types_remove (p : ℕ) : Types Γ untyped (Controller.remove k p) :=
  .bind (types_cash k) fun _ _ _ hl => types_setCash fun q hq => hl q (List.mem_filter.mp hq).1

theorem types_scan (oid : Oid) {l : List ℕ} (hl : ∀ p ∈ l, Γ.In k p) :
    Types Γ (nullOr fun Γ p => Γ.In k p) (Controller.scan k oid l) := by
  induction l generalizing Γ with
  | nil => exact types_null
  | cons p rest ih =>
    rw [List.forall_mem_cons] at hl
    refine .bind (types_fromDB p) fun b Γ₁ h₁ _ => .ite (fun _ => ?_) fun _ => .ite (fun _ => ?_) fun _ => ?_
    · refine .bind (types_own p _) fun _ Γ₂ h₂ _ => .bind (types_fromDB p) fun b' Γ₃ h₃ _ => .ite (fun _ => ?_) fun _ => ?_
      · exact .bind (types_remove p) fun _ _ _ _ => .fault _
      · exact ih fun q hq => (hl.2 q hq).mono (h₁.trans (h₂.trans h₃))
    · refine .pure fun Γ₂ h₂ q hq => ?_
      obtain rfl := Option.some.inj hq
      exact hl.1.mono (h₁.trans h₂)
    · exact ih fun q hq => (hl.2 q hq).mono h₁

theorem types_isAlredyInCash (oid : Oid) : Types Γ (nullOr fun Γ p => Γ.In k p) (Controller.isAlredyInCash k oid) :=
  .bind (types_cash k) fun _ _ _ hl => types_scan oid hl

theorem types_lookUp {oid : Oid} {build : Doc → Cmd (Option ℕ)}
    (hb : ∀ d Γ, Types Γ (nullOr fun Γ p => Γ.In k p) (build d)) :
    Types Γ (nullOr fun Γ p => Γ.In k p) (Controller.lookUp k oid build) := by
  refine .bind (types_isAlredyInCash oid) fun r Γ₁ _ hr => ?_
  cases r with
  | some p => exact .pure fun Γ₂ h₂ q hq => (hr q hq).mono h₂
  | none =>
    refine .bind (types_call (.findOne k _)) fun d Γ₂ _ _ => ?_
    cases d with
    | none => exact types_null
    | some d => exact hb d Γ₂

theorem types_getFromDB (k : Kind) (oid : Oid) :
    Types Γ (nullOr fun Γ p => Γ.In k p) (Controller.getFromDB k oid) := by
  refine types_lookUp fun d Γ => .bind (types_construct _ d) fun p Γ₁ _ hp => ?_
  have hin : Γ₁.In k p := ⟨_, hp, by cases k <;> rfl⟩
  refine .bind (types_pushBack hin) fun _ Γ₂ h₂ _ => .bind (types_own p 1) fun _ Γ₃ h₃ _ => .pure fun Γ₄ h₄ q hq => ?_
  obtain rfl := Option.some.inj hq
  exact hin.mono (h₂.trans (h₃.trans h₄))

theorem types_infosGetFromDB (oid : Oid) (t : AccountType) :
    Types Γ (nullOr fun Γ p => Γ.In .infos p) (InfosController.getFromDB oid t) := by
  refine types_lookUp fun d Γ => ?_
  cases hc : InfosController.classOf t with
  | none => exact types_null
  | some c =>
    refine .bind (types_construct c d) fun p Γ₁ _ hp => .bind (types_own p 1) fun _ Γ₂ h₂ _ => ?_
    have hin : Γ₂.In .infos p := ⟨c, h₂ _ _ hp, by cases t <;> cases hc <;> rfl⟩
    refine .bind (types_pushBack hin) fun _ Γ₃ h₃ _ => .pure fun Γ₄ h₄ q hq => ?_
    obtain rfl := Option.some.inj hq
    exact hin.mono (h₃.trans h₄)

theorem types_collect (keep : Doc → Except Fault Bool) (counted : Bool) (docs : List Doc) :
    Types Γ untyped (Controller.collect k keep counted docs) := by
  induction docs generalizing Γ with
  | nil => exact .pure fun _ _ => trivial
  | cons d docs ih =>
    refine .bind (types_ofExcept _) fun _ Γ₁ _ _ => .ite (fun _ => ?_) fun _ => ih
    refine .bind (types_ofExcept _) fun oid Γ₂ _ _ => .bind (types_isAlredyInCash oid) fun r Γ₃ _ _ => ?_
    cases r with
    | some p => exact .bind ih fun _ _ _ _ => .pure fun _ _ => trivial
    | none =>
      refine .bind (types_construct _ d) fun p Γ₄ _ hp => ?_
      refine .bind (types_pushBack ⟨_, hp, by cases k <;> rfl⟩) fun _ Γ₅ _ _ => .ite (fun _ => ?_) fun _ => ?_
      · exact .bind (types_own p 1) fun _ _ _ _ => .bind ih fun _ _ _ _ => .pure fun _ _ => trivial
      · exact .bind ih fun _ _ _ _ => .pure fun _ _ => trivial

theorem types_getAll (k : Kind) : Types Γ untyped (Controller.getAll k) := by
  refine .bind (types_still fun _ _ _ h => (run_isChanged_iff.mp h).2.symm) fun _ Γ₁ _ _ => .ite (fun _ => ?_) fun _ => ?_
  · exact (types_cash k).untyped
  · exact .bind (types_call (.find k [])) fun docs _ _ _ => .bind (types_collect _ _ docs) fun _ _ _ _ =>
      .bind (types_setChanged k _) fun _ _ _ _ => .pure fun _ _ => trivial

theorem types_elementDoc (e : ℕ) : Types Γ untyped (Controller.elementDoc k e) :=
  types_still fun _ _ _ h => by
    obtain ⟨-, -, -, -, rfl⟩ := run_elementDoc_iff.mp h
    rfl

theorem types_add (e : ℕ) : Types Γ untyped (Controller.add k e) := by
  refine .bind (types_setChanged k _) fun _ _ _ _ => .bind (types_elementDoc e) fun d _ _ _ =>
    .bind (types_call (.insertOne k d)) fun r _ _ _ => .bind (types_destroy e) fun _ _ _ _ => ?_
  cases r with
  | none => exact .pure fun _ _ => trivial
  | some i =>
    refine .bind (types_call (.findOne k _)) fun _ _ _ _ => .bind (types_value _) fun d _ _ _ =>
      .bind (types_construct _ d) fun p Γ₁ _ hp => ?_
    refine .bind (types_own p 1) fun _ Γ₂ h₂ _ => .bind (types_pushBack ⟨_, h₂ _ _ hp, by cases k <;> rfl⟩) fun _ _ _ _ => ?_
    exact .pure fun _ _ => trivial

theorem types_iterForDelete (oid : Oid) (first : ℕ) (l : List ℕ) :
    Types Γ untyped (Controller.iterForDelete oid first l) := by
  induction l generalizing Γ with
  | nil => exact .pure fun _ _ => trivial
  | cons p rest ih => exact .bind (types_fromDB p) fun _ _ _ _ => .ite (fun _ => .pure fun _ _ => trivial) fun _ => ih

theorem types_delete (oid : Oid) : Types Γ untyped (Controller.delete k oid) := by
  refine .bind (types_setChanged k _) fun _ _ _ _ => .bind (types_cash k) fun l _ _ _ => ?_
  cases l with
  | nil => exact .fault _
  | cons first l =>
    refine .bind (types_iterForDelete oid first _) fun p _ _ _ => .bind (types_own p _) fun _ _ _ _ =>
      .bind (types_fromDB p) fun _ _ _ _ => ?_
    have hrest : ∀ {Γ : Classes}, Types Γ untyped (do
        Controller.remove k p
        return decide ((← value (← deleteOne k oid)) = 1)) :=
      .bind (types_remove p) fun _ _ _ _ => .bind (types_call (.deleteOne k oid)) fun _ _ _ _ => .bind (types_value _) fun _ _ _ _ =>
        .pure fun _ _ => trivial
    exact .ite (fun _ => .bind (types_destroy p) fun _ _ _ _ => hrest) fun _ =>
      .bind (types_modifyFromDB p _) fun _ _ _ _ => hrest

theorem types_update (el : ℕ) : Types Γ untyped (Controller.update k el) := by
  refine .step fun Γ₁ w _ w' _ hw h => ?_
  obtain ⟨b, x, d, -, hp, -, -, -, rfl⟩ := run_update_iff.mp h
  exact ⟨(hw.own hp).of_heap rfl rfl, trivial⟩

/-! ### References -/

theorem types_setRef (f : RefField) (this : ℕ) (v : Option ℕ) : Types Γ untyped (setRef f this v) := by
  refine .step fun Γ₁ w _ w' _ hw h => ⟨?_, trivial⟩
  cases v with
  | none =>
    obtain ⟨o, -, ho, -, rfl⟩ := run_setRef_none_iff.mp h
    exact hw.assign ho fun q hq => by cases hq
  | some q =>
    obtain ⟨o, -, oq, b, x, ho, -, hq, hadm, hq', rfl⟩ := run_setRef_some_iff.mp h
    refine (hw.assign ho fun r hr => ?_).own hq'
    obtain rfl := Pointer.to.inj hr
    exact ⟨_, hw.cls q oq hq, f.admits_eq _ ▸ hadm⟩

theorem types_cast (isClass : Fields → Bool) (r : Option ℕ) :
    Types Γ (nullOr fun Γ p => r = some p ∧ ∃ x : Fields, Γ.cls p = some x.cls ∧ isClass x = true) (cast isClass r) := by
  refine .still (fun _ _ _ h => (run_cast_iff.mp h).1.symm) fun Γ₁ w r' _ hw h p hp => ?_
  obtain ⟨-, ⟨-, rfl⟩ | ⟨q, o, rfl, hq, rfl⟩⟩ := run_cast_iff.mp h
  · cases hp
  · split_ifs at hp with hc
    obtain rfl := Option.some.inj hp
    exact ⟨rfl, o.fields, hw.cls _ o hq, hc⟩

theorem types_settle (f : RefField) (this p : ℕ) : Types Γ (nullOr fun _ q => q = p) (settle f this p) := by
  have hrest : ∀ {Γ : Classes}, Types Γ (nullOr fun _ q => q = p) (do
      assign f this .null
      return none) := .bind (types_assign (by simp)) fun _ _ _ _ => types_null
  refine .bind (types_fromDB p) fun _ _ _ _ => .ite (fun _ => .pure ?_) fun _ => ?_
  · exact fun _ _ q hq => (Option.some.inj hq).symm
  · exact .bind (types_own p _) fun _ _ _ _ => .bind (types_fromDB p) fun _ _ _ _ =>
      .ite (fun _ => .bind (types_destroy p) fun _ _ _ _ => hrest) fun _ => hrest

/-- A getter answers with what its member may designate. -/
theorem types_getRef {f : RefField} {key : String} {load : Oid → Cmd (Option ℕ)} (this : ℕ)
    (hl : ∀ oid Γ, Types Γ (nullOr fun Γ p => Γ.Fits f p) (load oid)) :
    Types Γ (nullOr fun Γ p => Γ.Fits f p) (getRef f key load this) := by
  intro Γ₁ w r w' _ hw h
  have settled {Γ₂ : Classes} {w₂ : World} {p : ℕ} (hw₂ : WellTyped Γ₂ w₂) (hf : Γ₂.Fits f p)
      (h : run (settle f this p) w₂ = .ok (r, w')) :
      ∃ Γ', Γ₂ ≤ Γ' ∧ WellTyped Γ' w' ∧ ∀ q, r = some q → Γ'.Fits f q := by
    obtain ⟨Γ', hle, hw', hr⟩ := types_settle f this p Γ₂ w₂ r w' le_rfl hw₂ h
    exact ⟨Γ', hle, hw', fun q hq => hr q hq ▸ hf.mono hle⟩
  simp only [getRef, run_bind_iff, run_obj_iff] at h
  obtain ⟨o, _, ⟨ho, rfl⟩, h⟩ := h
  cases hv : o.fields.ref f with
  | none => simp [hv] at h
  | some v =>
    cases v with
    | uninit => simp [hv] at h
    | «to» p =>
      simp only [hv] at h
      exact settled hw (hw.ref this o f p ho hv) h
    | null =>
      simp only [hv, run_bind_iff, run_fromDB_iff, run_ofExcept_iff] at h
      obtain ⟨b, _, ⟨-, rfl⟩, u, _, ⟨-, rfl⟩, h⟩ := h
      cases hu : u.oid? with
      | none =>
        simp only [hu, run_pure_iff] at h
        obtain ⟨rfl, rfl⟩ := h
        exact ⟨Γ₁, le_rfl, hw, fun q hq => by cases hq⟩
      | some oid =>
        simp only [hu, run_bind_iff] at h
        obtain ⟨r', w₁, h₁, h⟩ := h
        obtain ⟨Γ₂, h₂, hw₁, hr'⟩ := hl oid Γ₁ Γ₁ w r' w₁ le_rfl hw h₁
        cases r' with
        | none =>
          obtain ⟨rfl, rfl⟩ := (run_pure_iff _).mp h
          exact ⟨Γ₂, h₂, hw₁, fun q hq => by cases hq⟩
        | some p =>
          simp only [run_bind_iff, run_assign_iff] at h
          obtain ⟨_, _, ⟨o₁, ho₁, rfl⟩, h⟩ := h
          have hp := hr' p rfl
          obtain ⟨Γ', h', hw', hr⟩ := settled (hw₁.assign ho₁ fun q hq => Pointer.to.inj hq ▸ hp) hp h
          exact ⟨Γ', h₂.trans h', hw', hr⟩

theorem types_accountType (this : ℕ) : Types Γ untyped (accountType this) :=
  types_still fun _ _ _ h => (run_accountType_iff.mp h).2.symm

/-- What is found under the class of a member fits it. -/
theorem Classes.In.fits {f : RefField} {p : ℕ} (h : Γ.In f.kind p) (hf : f.kind ≠ .infos ∨ f = .additionalInfo) :
    Γ.Fits f p := by
  obtain ⟨c, hc, hk⟩ := h
  refine ⟨c, hc, ?_⟩
  revert hk hf
  cases f <;> cases c <;> decide

theorem types_getterLoad (g : Getter) (this : ℕ) (oid : Oid) :
    Types Γ (nullOr fun Γ p => Γ.Fits g.field p) (g.load this oid) := by
  have of_accounts : Types Γ (nullOr fun Γ p => Γ.Fits .owner p) (Controller.getFromDB .accounts oid) :=
    (types_getFromDB .accounts oid).imp fun _ r _ h p hp => (h p hp).fits (f := .owner) (.inl (by decide))
  have of_groups : Types Γ (nullOr fun Γ p => Γ.Fits .group p) (Controller.getFromDB .groups oid) :=
    (types_getFromDB .groups oid).imp fun _ r _ h p hp => (h p hp).fits (f := .group) (.inl (by decide))
  have of_teachers (f : RefField) (hf : f.designates .teacherInfoDB = true) : Types Γ (nullOr fun Γ p => Γ.Fits f p) (do
      cast Fields.isTeacher (← InfosController.getFromDB oid .teacher)) :=
    .bind (types_infosGetFromDB oid _) fun r _ _ _ => (types_cast _ r).imp fun _ _ _ h p hp => by
      obtain ⟨-, x, hx, ht⟩ := h p hp
      have hcls : x.cls = .teacherInfoDB := by cases x <;> first | rfl | cases ht
      exact ⟨.teacherInfoDB, hcls ▸ hx, hf⟩
  cases g with
  | getTeacherOwner | getStudentOwner => exact of_accounts
  | getStudentGroup | getScheduleGroup => exact of_groups
  | getCurator => exact of_teachers .curator rfl
  | getTeacher => exact of_teachers .teacher rfl
  | getAdditionalInfo =>
    exact .bind (types_accountType this) fun t _ _ _ => (types_infosGetFromDB oid t).imp fun _ _ _ h p hp =>
      (h p hp).fits (f := .additionalInfo) (.inr rfl)

theorem types_getter (g : Getter) (this : ℕ) : Types Γ (nullOr fun Γ p => Γ.Fits g.field p) (g.call this) := by
  rw [g.call_eq]
  exact types_getRef this fun oid _ => types_getterLoad g this oid

/-! ### Students -/

theorem types_checkStudent (p : ℕ) : Types Γ (fun Γ _ => Γ.cls p = some .studentInfoDB) (checkStudent p) := by
  refine .still (fun _ _ _ h => (run_checkStudent_iff.mp h).2.symm) fun Γ₁ w _ _ hw h => ?_
  obtain ⟨⟨b, s, hp⟩, -⟩ := run_checkStudent_iff.mp h
  exact hw.cls p _ hp

theorem types_ownAll (l : List ℕ) : Types Γ untyped (ownAll l) := by
  induction l generalizing Γ with
  | nil => exact .pure fun _ _ => trivial
  | cons p l ih => exact .bind (types_own p 1) fun _ _ _ _ => ih

theorem types_setStudents (this : ℕ) (l : List ℕ) : Types Γ untyped (Group.setStudents this l) := by
  have hcheck : Types Γ (fun Γ _ => ∀ q ∈ l, Γ.cls q = some .studentInfoDB) (List.forM l checkStudent) := by
    refine .still (fun _ _ _ h => (run_checkStudents_iff.mp h).1.symm) fun Γ₁ w _ _ hw h q hq => ?_
    obtain ⟨b, s, hg⟩ := (run_checkStudents_iff.mp h).2 q hq
    exact hw.cls q _ hg
  exact .bind hcheck fun _ _ _ hl => .bind (types_assignStudents hl) fun _ _ _ _ => types_ownAll l

theorem types_addStudent (this : ℕ) (stud : Option ℕ) : Types Γ untyped (GroupDB.addStudent this stud) := by
  cases stud with
  | none => exact .fault _
  | some stud =>
    refine .bind (types_checkStudent stud) fun _ Γ₁ _ hs => .bind (types_groupOf this) fun g Γ₂ h₂ hg => ?_
    refine .bind (types_assignStudents fun q hq => ?_) fun _ _ _ _ => .bind (types_update this) fun _ _ _ _ =>
      .bind (types_setRef _ _ _) fun _ _ _ _ => .bind (types_update stud) fun _ _ _ _ =>
        .bind (types_own stud 1) fun _ _ _ _ => .pure fun _ _ => trivial
    rcases List.mem_append.mp hq with hq | hq
    · exact hg q hq
    · exact List.mem_singleton.mp hq ▸ h₂ _ _ hs

theorem types_eraseFirst (id : Oid) (l : List ℕ) :
    Types Γ (fun _ r => ∀ rest, r = some rest → rest ⊆ l) (GroupDB.eraseFirst id l) := by
  induction l generalizing Γ with
  | nil => exact .pure fun _ _ rest h => by cases h
  | cons p ps ih =>
    refine .bind (types_fromDB p) fun _ _ _ _ => .ite (fun _ => .pure fun _ _ rest h => ?_) fun _ => ?_
    · obtain rfl := Option.some.inj h
      exact List.subset_cons_self _ _
    · refine .bind ih fun r _ _ hr => .pure fun _ _ rest h => ?_
      obtain ⟨rest', hrest', rfl⟩ := Option.map_eq_some_iff.mp h
      exact List.cons_subset_cons _ (hr rest' hrest')

theorem types_deleteStudent (this : ℕ) (stud : Option ℕ) : Types Γ untyped (GroupDB.deleteStudent this stud) := by
  refine .bind (types_groupOf this) fun g Γ₁ _ hg => ?_
  cases hl : g.students with
  | nil => exact .pure fun _ _ => trivial
  | cons p ps =>
    cases stud with
    | none => exact .fault _
    | some stud =>
      rw [hl] at hg
      refine .bind (types_checkStudent stud) fun _ Γ₂ h₂ _ => .bind (types_fromDB stud) fun b Γ₃ h₃ _ =>
        .bind (types_eraseFirst b.id (p :: ps)) fun r Γ₄ h₄ hr => ?_
      cases r with
      | none => exact .pure fun _ _ => trivial
      | some rest =>
        refine .bind (types_assignStudents fun q hq => ?_) fun _ _ _ _ => .bind (types_update this) fun _ _ _ _ =>
          .bind (types_setRef _ _ _) fun _ _ _ _ => .bind (types_update stud) fun _ _ _ _ =>
            .bind (types_own stud _) fun _ _ _ _ => .pure fun _ _ => trivial
        exact (h₂.trans (h₃.trans h₄)) _ _ (hg q (hr rest rfl hq))

theorem types_loadStudents (this : ℕ) (vs : List Element) : Types Γ untyped (GroupDB.loadStudents this vs) := by
  induction vs generalizing Γ with
  | nil => exact .pure fun _ _ => trivial
  | cons v vs ih =>
    refine .bind (types_ofExcept _) fun oid _ _ _ => .bind (types_infosGetFromDB oid _) fun r _ _ _ =>
      .bind (types_cast _ r) fun r' Γ₁ _ hr' => ?_
    cases r' with
    | none => exact ih
    | some res =>
      obtain ⟨-, x, hx, hs⟩ := hr' res rfl
      have hcls : x.cls = .studentInfoDB := by cases x <;> first | rfl | cases hs
      have hres : Γ₁.cls res = some .studentInfoDB := hcls ▸ hx
      refine .bind (types_fromDB res) fun _ Γ₂ h₂ _ => .ite (fun _ => ?_) fun _ => ih
      refine .bind (types_groupOf this) fun g Γ₃ h₃ hg => .bind (types_assignStudents fun q hq => ?_) fun _ _ _ _ => ih
      rcases List.mem_append.mp hq with hq | hq
      · exact hg q hq
      · exact List.mem_singleton.mp hq ▸ (h₂.trans h₃) _ _ hres

theorem types_getStudents (this : ℕ) : Types Γ untyped (GroupDB.getStudents this) := by
  refine .bind (types_assignStudents (by simp)) fun _ _ _ _ => .bind (types_fromDB this) fun _ _ _ _ =>
    .bind (types_ofExcept _) fun v _ _ _ => ?_
  have hrest : ∀ {Γ : Classes}, Types Γ untyped (do return (← groupOf this).students) :=
    .bind (types_groupOf this) fun _ _ _ _ => .pure fun _ _ => trivial
  cases v with
  | array vs => exact .bind (types_loadStudents this vs) fun _ _ _ _ => hrest
  | _ => exact hrest

/-! ### Every operation -/

theorem types_attach (acc : Option ℕ) {res : ℕ} (hr : Γ.In .infos res) : Types Γ untyped (InfosController.attach acc res) := by
  cases acc with
  | none => exact .fault _
  | some acc =>
    refine .bind (types_setRef _ _ _) fun _ Γ₁ h₁ _ => .bind (types_update acc) fun _ Γ₂ h₂ _ =>
      .bind (types_pushBack (hr.mono (h₁.trans h₂))) fun _ _ _ _ => types_own res 1

theorem types_infosAdd (e : ℕ) (t : AccountType) : Types Γ untyped (InfosController.add e t) := by
  refine .bind (types_setChanged _ _) fun _ _ _ _ => .bind (types_elementDoc e) fun d _ _ _ =>
    .bind (types_destroy e) fun _ _ _ _ => .bind (types_call (.insertOne .infos d)) fun r Γ₁ _ _ => ?_
  cases r with
  | none => exact .pure fun _ _ => trivial
  | some id =>
    refine .bind (types_call (.findOne .infos _)) fun d' Γ₂ _ _ => ?_
    have hin {Γ Γ' : Classes} {c : DBClass} {p : ℕ} (hp : Γ.cls p = some c) (hc : c.kind = .infos) (hle : Γ ≤ Γ') :
        Γ'.In .infos p := ⟨c, hle _ _ hp, hc⟩
    cases t with
    | admin => exact .pure fun _ _ => trivial
    | student =>
      refine .bind (types_value d') fun d _ _ _ => .bind (types_construct _ d) fun temp Γ₃ _ hp =>
        .bind (types_getter .getStudentOwner temp) fun acc Γ₄ h₄ _ => .bind (types_getter .getStudentGroup temp) fun r Γ₅ h₅ _ => ?_
      have hrest {Γ' : Classes} (hle : Γ₅ ≤ Γ') : Types Γ' untyped (do
          InfosController.attach acc temp
          return some temp) :=
        .bind (types_attach acc (hin hp rfl ((h₄.trans h₅).trans hle))) fun _ _ _ _ => .pure fun _ _ => trivial
      refine .ite (fun _ => ?_) fun _ => hrest le_rfl
      refine .bind (types_getter .getStudentGroup temp) fun grp Γ₆ h₆ _ => ?_
      cases grp with
      | none => exact .bind (types_fault _) fun _ _ h₇ _ => hrest (h₆.trans h₇)
      | some grp => exact .bind (types_addStudent grp _) fun _ _ h₇ _ => hrest (h₆.trans h₇)
    | teacher =>
      refine .bind (types_value d') fun d _ _ _ => .bind (types_construct _ d) fun temp Γ₃ _ hp =>
        .bind (types_getter .getTeacherOwner temp) fun acc Γ₄ h₄ _ => ?_
      exact .bind (types_attach acc (hin hp rfl h₄)) fun _ _ _ _ => .pure fun _ _ => trivial

/-- Every operation keeps the types. -/
theorem types_action (a : Action) : Types Γ untyped a.cmd := by
  have done {α : Type} {m : Cmd α} (hm : Types Γ untyped m) : Types Γ untyped (do let _ ← m) :=
    .bind hm fun _ _ _ _ => .pure fun _ _ => trivial
  cases a with
  | getFromDB k oid t =>
    refine done (.ite (fun _ => ?_) fun _ => ?_)
    · exact (types_infosGetFromDB oid t).untyped
    · exact (types_getFromDB k oid).untyped
  | getAll k => exact done (types_getAll k)
  | getAllTeachers => exact done (.bind (types_call (.find .accounts _)) fun docs _ _ _ => types_collect _ _ docs)
  | getAllSchedulesinDate date grp =>
    refine done (.bind (types_still fun _ _ _ h => (run_deref_iff.mp h).2.symm) fun p _ _ _ => ?_)
    exact .bind (types_fromDB p) fun _ _ _ _ => .bind (types_call (.find .schedules _)) fun docs _ _ _ => types_collect _ _ docs
  | findFullAccount l =>
    refine done (.bind (types_call (.findOne .accounts _)) fun _ _ _ _ => .bind (types_value _) fun d _ _ _ => ?_)
    refine .bind (types_construct _ d) fun p Γ₁ _ hp => .bind (types_pushBack ⟨_, hp, rfl⟩) fun _ _ _ _ => ?_
    exact .pure fun _ _ => trivial
  | new x => exact done (types_newObj (by cases x <;> rfl)).untyped
  | add k e t => exact done (.ite (fun _ => types_infosAdd e t) fun _ => types_add e)
  | delete k oid => exact done (types_delete oid)
  | update k el => exact done (types_update el)
  | setRef f this v => exact types_setRef f this v
  | setStudents this l => exact types_setStudents this l
  | get g this => exact done (types_getter g this).untyped
  | getStudents this => exact done (types_getStudents this)
  | addStudent this stud => exact done (types_addStudent this (some stud))
  | deleteStudent this stud => exact done (types_deleteStudent this (some stud))

theorem wellTyped_step {a : Action} (hs : a.Step w w') : (∃ Γ, WellTyped Γ w) → ∃ Γ, WellTyped Γ w' := by
  rintro ⟨Γ, hw⟩
  obtain ⟨Γ', -, hw', -⟩ := types_action a Γ w ⟨⟩ w' le_rfl hw hs
  exact ⟨Γ', hw'⟩

theorem wellTyped_start (db : Database) : WellTyped ⟨fun _ => none⟩ (World.start db) := by
  have hnone : ∀ p, (World.start db).heap.get p = none := fun p => by simp [World.start, Process.init, Lib.Conf.heap]
  refine ⟨fun p o hp => ?_, fun p o f q hp => ?_, fun p c g hp => ?_, fun k p hp => ?_, fun p c hp => by cases hp⟩
  · simp [hnone] at hp
  · simp [hnone] at hp
  · simp [hnone] at hp
  · simp [World.start, Process.init, Lib.Conf.cash] at hp

end Cbt
