import Mathlib.Logic.Relation
import Cbt.Effects.Objects

/-! Operations that leave the stored documents alone. Whatever they do is made of
four kinds of small steps: an object is loaded into a cache, an object is
overwritten without touching its document, its `_id`, its existence or its class,
a plain object is allocated, and an object that no longer exists is destroyed. What
the caches rest on is read off these steps once. -/

namespace Cbt

open Lib.Command (run_bind_iff run_pure_iff run_fault_iff run_ofExcept_iff)

/-- The document, the `_id` and the existence of an object. -/
def IFromDB.core (b : IFromDB) : Oid × Doc × Bool := (b.id, b.doc, b.isExist)

@[simp] theorem IFromDB.core_own (b : IFromDB) (n : ℤ) : (b.own n).core = b.core := rfl

/-- The class of an object. -/
def Fields.cls : Fields → DBClass
  | .account _ => .accountDB
  | .group _ => .groupDB
  | .additionalInfo => .additionalInfoDB
  | .student _ => .studentInfoDB
  | .teacher _ => .teacherInfoDB
  | .schedule _ => .scheduleDB

theorem Fields.kind_of_cls {x y : Fields} (h : x.cls = y.cls) : x.kind = y.kind := by
  cases x <;> cases y <;> first | rfl | cases h

@[simp] theorem Fields.cls_setRef (x : Fields) (f : RefField) (v : Pointer) : (x.setRef f v).cls = x.cls := by
  cases x <;> cases f <;> rfl

/-- An object as its constructor leaves it: its own values, and no references. -/
def Fields.bare : Fields → Fields
  | .account a => .account { a with additionalInfo := .null }
  | .group g => .group { g with students := [], curator := .null }
  | .additionalInfo => .additionalInfo
  | .student s => .student { s with owner := .null, group := .null }
  | .teacher t => .teacher { t with owner := .null }
  | .schedule s => .schedule { s with teacher := .uninit, group := .uninit }

@[simp] theorem Fields.cls_bare (x : Fields) : x.bare.cls = x.cls := by cases x <;> rfl

theorem Fields.cls_of_bare {x y : Fields} (h : x.bare = y.bare) : x.cls = y.cls := by
  rw [← Fields.cls_bare x, h, Fields.cls_bare]

theorem Fields.kind_of_bare {x y : Fields} (h : x.bare = y.bare) : x.kind = y.kind :=
  Fields.kind_of_cls (Fields.cls_of_bare h)

@[simp] theorem Fields.bare_setRef (x : Fields) (f : RefField) (v : Pointer) : (x.setRef f v).bare = x.bare := by
  cases x <;> cases f <;> rfl

@[simp] theorem Fields.bare_students (g : Group) (l : List ℕ) :
    (Fields.group { g with students := l }).bare = (Fields.group g).bare := rfl

/-- What a constructor makes has no references. -/
theorem DBClass.bare_fields {c : DBClass} {d : Doc} {x : Fields} (h : c.fields d = .ok x) : x.bare = x := by
  cases c <;> simp only [DBClass.fields, bind, Except.bind, pure, Except.pure] at h <;> (repeat' split at h) <;>
    cases h <;> rfl

/-- What a constructor of the class of an entity makes points to nothing and has no pointer without a value. -/
theorem ref_of_bare {x : Fields} (h : x.bare = x) {f : RefField} {v : Pointer} (hv : x.ref f = some v) :
    v = .null ∨ v = .uninit ∧ x.kind = .schedules := by
  rw [← h] at hv
  cases x <;> cases f <;> simp [Fields.bare, Fields.ref] at hv <;> simp [← hv, Fields.kind]

/-- A constructor makes an object of its class. -/
theorem DBClass.cls_fields {c : DBClass} {d : Doc} {x : Fields} (h : c.fields d = .ok x) : x.cls = c := by
  cases c <;> simp only [DBClass.fields, bind, Except.bind, pure, Except.pure] at h <;> (repeat' split at h) <;>
    cases h <;> rfl

/-- Two objects with one document, one `_id`, one existence and the same own values. -/
structure Obj.Same (o o' : Obj) : Prop where
  core : o'.fromDB.map IFromDB.core = o.fromDB.map IFromDB.core
  bare : o'.fields.bare = o.fields.bare

namespace Obj.Same

theorem refl (o : Obj) : o.Same o := ⟨rfl, rfl⟩

theorem trans {o₁ o₂ o₃ : Obj} (h : o₁.Same o₂) (h' : o₂.Same o₃) : o₁.Same o₃ :=
  ⟨h'.core.trans h.core, h'.bare.trans h.bare⟩

theorem own (n : ℤ) (o : Obj) : o.Same (o.own n) := by
  refine ⟨?_, rfl⟩
  cases h : o.fromDB <;> simp [Obj.own, h]

theorem setRef (o : Obj) (f : RefField) (v : Pointer) : o.Same (o.setRef f v) :=
  ⟨rfl, Fields.bare_setRef _ _ _⟩

/-- The overwritten object read from a `…DB` object. -/
theorem exists_eq {b : IFromDB} {x : Fields} {o' : Obj} (h : Obj.Same ⟨some b, x⟩ o') :
    ∃ b' x', o' = ⟨some b', x'⟩ ∧ b'.core = b.core ∧ x'.bare = x.bare := by
  obtain ⟨_ | b', x'⟩ := o'
  · exact absurd h.core (by simp)
  · exact ⟨b', x', rfl, by simpa using h.core, h.bare⟩

end Obj.Same

/-- Which documents an operation may load. -/
abbrev Loads := Kind → Oid → Prop

/-- The controller whose cache holds the objects of a class. -/
def DBClass.kind : DBClass → Kind
  | .accountDB => .accounts
  | .groupDB => .groups
  | .additionalInfoDB | .studentInfoDB | .teacherInfoDB => .infos
  | .scheduleDB => .schedules

@[simp] theorem Fields.kind_cls (x : Fields) : x.cls.kind = x.kind := by cases x <;> rfl

/-- A new object is a plain one, or what a constructor makes of a stored document. -/
def Lib.Conf.Builds (w : World) (o : Obj) : Prop :=
  o.fromDB = none ∨ ∃ (c : DBClass) (i : Oid) (d : Doc), w.stored c.kind i = some d ∧ c.ofDoc d = .ok o

/-- One small step that leaves the stored documents alone. -/
inductive Micro (L : Loads) : World → World → Prop
  | load {w : World} {k : Kind} {b : IFromDB} {x : Fields} (hm : L k b.id) (hc : w.cached k b.id = none)
      (hs : w.stored k b.id = some b.doc) (hb : b.isExist = true) (hk : x.kind = k)
      (hx : x.cls.fields b.doc = .ok x) : Micro L w (w.load k ⟨some b, x⟩)
  | put {w : World} {p : ℕ} {o o' : Obj} (hp : w.heap.get p = some o) (hs : o.Same o') : Micro L w (w.put p o')
  | push {w : World} {o : Obj} (ho : o.fromDB = none) : Micro L w (w.push o)
  | reap {w : World} {p : ℕ} {b : IFromDB} {x : Fields} (hp : w.heap.get p = some ⟨some b, x⟩)
      (hb : b.isExist = false) : Micro L w (w.free p)

/-- A sequence of small steps. -/
abbrev Quiet (L : Loads) : World → World → Prop := Relation.ReflTransGen (Micro L)

/-- Every cached object is there, exists, and is of its controller; none is cached twice. -/
structure Sound (w : World) : Prop where
  entry : ∀ k, ∀ p ∈ w.cash k, ∃ b x, w.heap.get p = some ⟨some b, x⟩ ∧ b.isExist = true ∧ x.kind = k
  nodup : ∀ k, (w.cash k).Nodup

theorem Sound.live {w : World} (hw : Sound w) (k : Kind) : w.Live k := by
  intro p hp
  obtain ⟨b, x, h, hb, -⟩ := hw.entry k p hp
  exact ⟨b, x, h, hb⟩

theorem Sound.lt_next {w : World} (hw : Sound w) {k : Kind} {p : ℕ} (hp : p ∈ w.cash k) : p < w.heap.next := by
  obtain ⟨b, x, h, -, -⟩ := hw.entry k p hp
  exact Lib.Heap.lt_next h

namespace Micro

variable {L : Loads} {w w' : World}

theorem env (h : Micro L w w') : w'.env = w.env := by cases h <;> rfl

theorem isChanged (h : Micro L w w') : w'.isChanged = w.isChanged := by cases h <;> simp

/-- An object that exists goes on existing, with its document, its `_id` and its own values. -/
theorem kept (h : Micro L w w') {p : ℕ} {b : IFromDB} {x : Fields} (hp : w.heap.get p = some ⟨some b, x⟩)
    (hb : b.isExist = true) :
    ∃ b' x', w'.heap.get p = some ⟨some b', x'⟩ ∧ b'.core = b.core ∧ x'.bare = x.bare := by
  cases h with
  | load => exact ⟨b, x, Lib.Heap.get_push_of_some _ hp, rfl, rfl⟩
  | put hq hs =>
    rename_i q o o'
    rw [Lib.Conf.heap_put, Lib.Heap.get_set _ hq]
    split_ifs with he
    · subst he
      obtain rfl := Option.some.inj (hp.symm.trans hq)
      obtain ⟨b', x', rfl, h⟩ := hs.exists_eq
      exact ⟨b', x', rfl, h⟩
    · exact ⟨b, x, hp, rfl, rfl⟩
  | push => exact ⟨b, x, Lib.Heap.get_push_of_some _ hp, rfl, rfl⟩
  | reap hq hf =>
    refine ⟨b, x, ?_, rfl, rfl⟩
    rw [Lib.Conf.heap_free, Lib.Heap.get_free, if_neg, hp]
    rintro rfl
    obtain ⟨rfl, rfl⟩ : b = _ ∧ x = _ := by simpa [hp] using hq
    simp [hb] at hf

/-- A plain object stays plain, with its own values. -/
theorem plain (h : Micro L w w') {p : ℕ} {x : Fields} (hp : w.heap.get p = some ⟨none, x⟩) :
    ∃ x', w'.heap.get p = some ⟨none, x'⟩ ∧ x'.bare = x.bare := by
  cases h with
  | load => exact ⟨x, Lib.Heap.get_push_of_some _ hp, rfl⟩
  | put hq hs =>
    rename_i q o o'
    rw [Lib.Conf.heap_put, Lib.Heap.get_set _ hq]
    split_ifs with he
    · subst he
      obtain rfl := Option.some.inj (hp.symm.trans hq)
      obtain ⟨_ | b, x'⟩ := o'
      · exact ⟨x', rfl, hs.bare⟩
      · exact absurd hs.core (by simp)
    · exact ⟨x, hp, rfl⟩
  | push => exact ⟨x, Lib.Heap.get_push_of_some _ hp, rfl⟩
  | reap hq hf =>
    refine ⟨x, ?_, rfl⟩
    rw [Lib.Conf.heap_free, Lib.Heap.get_free, if_neg, hp]
    rintro rfl
    simp [hp] at hq

theorem same (h : Micro L w w') {p : ℕ} {b : IFromDB} {x : Fields} (hp : w.heap.get p = some ⟨some b, x⟩)
    (hb : b.isExist = true) :
    ∃ b' x', w'.heap.get p = some ⟨some b', x'⟩ ∧ b'.core = b.core ∧ x'.cls = x.cls := by
  obtain ⟨b', x', hg, hc, hx⟩ := h.kept hp hb
  exact ⟨b', x', hg, hc, Fields.cls_of_bare hx⟩

/-- An address where no object exists stays one. -/
theorem dead (h : Micro L w w') {p : ℕ} (hp : ¬ w.Alive p) (hlt : p < w.heap.next) : ¬ w'.Alive p := by
  rintro ⟨b, x, hg, hb⟩
  cases h with
  | load hm hc hs he hk hx =>
    rw [Lib.Conf.load, Lib.Conf.heap_setCash, Lib.Conf.heap_push, Lib.Heap.get_push, if_neg hlt.ne] at hg
    exact hp ⟨b, x, hg, hb⟩
  | @put q o o' hq hs =>
    rw [Lib.Conf.get_put hq] at hg
    split_ifs at hg with he
    · subst he
      obtain rfl := Option.some.inj hg
      obtain ⟨c, y⟩ := o
      have hcore := hs.core
      cases c with
      | none => simp at hcore
      | some c =>
        simp only [Option.map_some, Option.some.injEq, IFromDB.core, Prod.mk.injEq] at hcore
        exact hp ⟨c, y, hq, hcore.2.2 ▸ hb⟩
    · exact hp ⟨b, x, hg, hb⟩
  | push ho =>
    rw [Lib.Conf.heap_push, Lib.Heap.get_push, if_neg hlt.ne] at hg
    exact hp ⟨b, x, hg, hb⟩
  | @reap q c y hq hb' =>
    rw [Lib.Conf.heap_free, Lib.Heap.get_free] at hg
    split_ifs at hg
    exact hp ⟨b, x, hg, hb⟩

/-- An old object is the same as before. -/
theorem back (h : Micro L w w') {p : ℕ} {o' : Obj} (hp : w'.heap.get p = some o') (hlt : p < w.heap.next) :
    ∃ o, w.heap.get p = some o ∧ o.Same o' := by
  cases h with
  | load =>
    rw [Lib.Conf.heap_load, Lib.Heap.get_push, if_neg hlt.ne] at hp
    exact ⟨o', hp, .refl o'⟩
  | @put q o o₁ hq hs =>
    rw [Lib.Conf.get_put hq] at hp
    split_ifs at hp with he
    · obtain rfl := Option.some.inj hp
      exact ⟨o, he ▸ hq, hs⟩
    · exact ⟨o', hp, .refl o'⟩
  | push =>
    rw [Lib.Conf.heap_push, Lib.Heap.get_push, if_neg hlt.ne] at hp
    exact ⟨o', hp, .refl o'⟩
  | reap =>
    rw [Lib.Conf.heap_free, Lib.Heap.get_free] at hp
    split_ifs at hp
    exact ⟨o', hp, .refl o'⟩

theorem next_le (h : Micro L w w') : w.heap.next ≤ w'.heap.next := by cases h <;> simp

/-- A cache keeps what it has and gets at most one object, which may be loaded. -/
theorem cash (h : Micro L w w') (k : Kind) :
    w'.cash k = w.cash k ∨ ∃ b x, L k b.id ∧ w.cached k b.id = none ∧ w.stored k b.id = some b.doc ∧
      b.isExist = true ∧ x.kind = k ∧ w' = w.load k ⟨some b, x⟩ := by
  cases h with
  | load hm hc hs hb hk hx =>
    rename_i k' b x
    rw [Lib.Conf.cash_load]
    split_ifs with he
    · subst he; exact .inr ⟨b, x, hm, hc, hs, hb, hk, rfl⟩
    · exact .inl rfl
  | put => exact .inl rfl
  | push => exact .inl rfl
  | reap => exact .inl rfl

theorem sound (h : Micro L w w') (hw : Sound w) : Sound w' := by
  have keep : ∀ k, ∀ p ∈ w.cash k, ∃ b x, w'.heap.get p = some ⟨some b, x⟩ ∧ b.isExist = true ∧ x.kind = k := by
    intro k p hp
    obtain ⟨b, x, hg, hb, hk⟩ := hw.entry k p hp
    obtain ⟨b', x', hg', hb', hx'⟩ := h.same hg hb
    refine ⟨b', x', hg', ?_, (Fields.kind_of_cls hx').trans hk⟩
    simp only [IFromDB.core, Prod.mk.injEq] at hb'
    rw [hb'.2.2, hb]
  constructor
  · intro k p hp
    rcases h.cash k with he | ⟨b, x, -, -, -, hb, hk, rfl⟩
    · exact keep k p (he ▸ hp)
    · rw [Lib.Conf.cash_load, if_pos rfl] at hp
      rcases List.mem_append.mp hp with hp | hp
      · exact keep k p hp
      · obtain rfl := List.mem_singleton.mp hp
        exact ⟨b, x, by simp, hb, hk⟩
  · intro k
    rcases h.cash k with he | ⟨b, x, -, -, -, -, -, rfl⟩
    · rw [he]; exact hw.nodup k
    · rw [Lib.Conf.cash_load, if_pos rfl, List.nodup_append]
      refine ⟨hw.nodup k, by simp, ?_⟩
      intro p hp q hq
      obtain rfl := List.mem_singleton.mp hq
      exact (hw.lt_next hp).ne

end Micro

namespace Quiet

variable {L L' : Loads} {w w' : World}

theorem mono (hle : ∀ k o, L k o → L' k o) (h : Quiet L w w') : Quiet L' w w' := by
  induction h with
  | refl => exact .refl
  | tail _ h ih =>
    refine ih.tail ?_
    cases h with
    | load hm hc hs hb hk hx => exact .load (hle _ _ hm) hc hs hb hk hx
    | put hp hs => exact .put hp hs
    | push ho => exact .push ho
    | reap hp hb => exact .reap hp hb

theorem env (h : Quiet L w w') : w'.env = w.env := by
  induction h with
  | refl => rfl
  | tail _ h ih => exact h.env.trans ih

theorem stored (h : Quiet L w w') : w'.stored = w.stored := by
  unfold Lib.Conf.stored; rw [h.env]

theorem isChanged (h : Quiet L w w') : w'.isChanged = w.isChanged := by
  induction h with
  | refl => rfl
  | tail _ h ih => exact h.isChanged.trans ih

theorem sound (h : Quiet L w w') (hw : Sound w) : Sound w' := by
  induction h with
  | refl => exact hw
  | tail _ h ih => exact h.sound ih

theorem kept (h : Quiet L w w') {p : ℕ} {b : IFromDB} {x : Fields} (hp : w.heap.get p = some ⟨some b, x⟩)
    (hb : b.isExist = true) :
    ∃ b' x', w'.heap.get p = some ⟨some b', x'⟩ ∧ b'.core = b.core ∧ x'.bare = x.bare := by
  induction h with
  | refl => exact ⟨b, x, hp, rfl, rfl⟩
  | tail _ h ih =>
    obtain ⟨b₁, x₁, h₁, hc₁, hx₁⟩ := ih
    have hb₁ : b₁.isExist = true := by
      simp only [IFromDB.core, Prod.mk.injEq] at hc₁
      rw [hc₁.2.2, hb]
    obtain ⟨b₂, x₂, h₂, hc₂, hx₂⟩ := h.kept h₁ hb₁
    exact ⟨b₂, x₂, h₂, hc₂.trans hc₁, hx₂.trans hx₁⟩

theorem same (h : Quiet L w w') {p : ℕ} {b : IFromDB} {x : Fields} (hp : w.heap.get p = some ⟨some b, x⟩)
    (hb : b.isExist = true) :
    ∃ b' x', w'.heap.get p = some ⟨some b', x'⟩ ∧ b'.core = b.core ∧ x'.cls = x.cls := by
  obtain ⟨b', x', hg, hc, hx⟩ := h.kept hp hb
  exact ⟨b', x', hg, hc, Fields.cls_of_bare hx⟩

theorem next_le (h : Quiet L w w') : w.heap.next ≤ w'.heap.next := by
  induction h with
  | refl => exact le_rfl
  | tail _ h ih => exact ih.trans h.next_le

/-- A cache keeps what it has. -/
theorem mem_cash (h : Quiet L w w') {k : Kind} {p : ℕ} (hp : p ∈ w.cash k) : p ∈ w'.cash k := by
  induction h with
  | refl => exact hp
  | tail _ h ih =>
    rcases h.cash k with he | ⟨b, x, -, -, -, -, -, rfl⟩
    · rwa [he]
    · rw [Lib.Conf.cash_load, if_pos rfl]
      exact List.mem_append_left _ ih

/-- A cache nothing may be loaded into stays as it is. -/
theorem cash_eq (h : Quiet L w w') {k : Kind} (hk : ∀ o, ¬ L k o) : w'.cash k = w.cash k := by
  induction h with
  | refl => rfl
  | tail _ h ih =>
    rcases h.cash k with he | ⟨b, x, hm, -⟩
    · exact he.trans ih
    · exact absurd hm (hk _)

end Quiet

/-! ### Commands that are quiet -/

/-- Every run from a sound world is quiet. -/
abbrev Reads (L : Loads) {α : Type} (m : Cmd α) : Prop :=
  Lib.Command.Keeps Database.serve (fun w w' => Sound w → Quiet L w w') m

namespace Reads

variable {L : Loads} {α β : Type}

theorem pure (a : α) : Reads L (Pure.pure a : Cmd α) := Lib.Command.Keeps.pure (fun _ _ => .refl) a

theorem fault (e : Fault) : Reads L (Lib.Command.fault e : Cmd α) := Lib.Command.Keeps.fault e

theorem bind {m : Cmd α} {f : α → Cmd β} (hm : Reads L m) (hf : ∀ a, Reads L (f a)) : Reads L (m >>= f) :=
  Lib.Command.Keeps.bind (fun h h' hw => (h hw).trans (h' ((h hw).sound hw))) hm hf

theorem ite {c : Prop} [Decidable c] {m m' : Cmd α} (hm : Reads L m) (hm' : Reads L m') :
    Reads L (if c then m else m') := by
  split_ifs
  · exact hm
  · exact hm'

end Reads

variable {L : Loads} {w w' : World}

theorem reads_obj (p : ℕ) : Reads L (obj p) := by
  intro w o w' h _
  obtain ⟨-, rfl⟩ := run_obj_iff.mp h
  exact .refl

theorem reads_own (p : ℕ) (n : ℤ) : Reads L (own p n) := by
  intro w u w' h _
  obtain ⟨b, x, hp, rfl⟩ := run_own_iff.mp h
  exact .single (.put hp (.own n ⟨some b, x⟩))

theorem reads_newObj (x : Fields) : Reads L (newObj ⟨none, x⟩) := by
  intro w p w' h _
  obtain ⟨-, rfl⟩ := run_newObj_iff.mp h
  exact .single (.push rfl)

theorem reads_assign (f : RefField) (this : ℕ) (v : Pointer) : Reads L (assign f this v) := by
  intro w u w' h _
  obtain ⟨o, ho, rfl⟩ := run_assign_iff.mp h
  exact .single (.put ho (.setRef o f v))

theorem reads_accountType (p : ℕ) : Reads L (accountType p) := by
  intro w t w' h _
  obtain ⟨-, rfl⟩ := run_accountType_iff.mp h
  exact .refl

theorem reads_cast (isClass : Fields → Bool) (r : Option ℕ) : Reads L (cast isClass r) := by
  intro w r' w' h _
  obtain ⟨rfl, -⟩ := run_cast_iff.mp h
  exact .refl

theorem reads_checkStudent (p : ℕ) : Reads L (checkStudent p) := by
  intro w u w' h _
  obtain ⟨-, rfl⟩ := run_checkStudent_iff.mp h
  exact .refl

end Cbt
