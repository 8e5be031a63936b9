import Cbt.Windows.Acts
import Cbt.Effects.Answering

/-! The pointers of the objects on a screen. A look-up and a listing touch no
pointer; a getter touches its own member only, and not when the member points to
an object that exists, or is null and the document names none. So a member that
is settled in one of these ways stays as it is while the windows only ask. -/

namespace Cbt

open Lib.Command (run_bind_iff run_pure_iff)

variable {w w' : World}

variable {S : ℕ → Prop}

/-- Every object stays, with its pointers; and with everything else it has, unless it is of `S`. -/
def RefsKept (S : ℕ → Prop) (w w' : World) : Prop :=
  ∀ p o, w.heap.get p = some o → ∃ o', w'.heap.get p = some o' ∧ (∀ f, o'.fields.ref f = o.fields.ref f) ∧
    (¬ S p → o'.fields = o.fields)

theorem RefsKept.refl (w : World) : RefsKept S w w := fun _ o hp => ⟨o, hp, fun _ => rfl, fun _ => rfl⟩

theorem RefsKept.trans {w₁ : World} (h : RefsKept S w w₁) (h' : RefsKept S w₁ w') : RefsKept S w w' := by
  intro p o hp
  obtain ⟨o₁, h₁, hf₁, hx₁⟩ := h p o hp
  obtain ⟨o₂, h₂, hf₂, hx₂⟩ := h' p o₁ h₁
  exact ⟨o₂, h₂, fun f => (hf₂ f).trans (hf₁ f), fun hS => (hx₂ hS).trans (hx₁ hS)⟩

theorem RefsKept.refOf (h : RefsKept S w w') {p : ℕ} (hp : w.Alive p) (f : RefField) : w'.refOf p f = w.refOf p f := by
  obtain ⟨b, x, hg, -⟩ := hp
  obtain ⟨o', hg', hf, -⟩ := h p _ hg
  rw [refOf_of_get hg, refOf_of_get hg', hf]

theorem refsKept_of_heap (h : w'.heap = w.heap) : RefsKept S w w' :=
  fun p o hp => ⟨o, by rw [h, hp], fun _ => rfl, fun _ => rfl⟩

theorem refsKept_put {p : ℕ} {o o' : Obj} (hp : w.heap.get p = some o) (hf : ∀ f, o'.fields.ref f = o.fields.ref f)
    (hx : ¬ S p → o'.fields = o.fields) : RefsKept S w (w.put p o') := by
  intro q oq hq
  by_cases hqp : q = p
  · subst hqp
    obtain rfl := Option.some.inj (hp.symm.trans hq)
    exact ⟨o', by rw [Lib.Conf.get_put hp, if_pos rfl], hf, hx⟩
  · exact ⟨oq, by rw [Lib.Conf.get_put hp, if_neg hqp, hq], fun _ => rfl, fun _ => rfl⟩

theorem refsKept_push (w : World) (o : Obj) : RefsKept S w (w.push o) :=
  fun _ oq hq => ⟨oq, Lib.Heap.get_push_of_some _ hq, fun _ => rfl, fun _ => rfl⟩

/-- Every run keeps the pointers. -/
abbrev KeepsRefs (S : ℕ → Prop) {α : Type} (m : Cmd α) : Prop := Lib.Command.Keeps Database.serve (RefsKept S) m

namespace KeepsRefs

variable {α β : Type}

theorem still {m : Cmd α} (hm : Still m) : KeepsRefs S m := by
  intro w a w' h
  obtain rfl := hm _ _ _ h
  exact .refl _

theorem pure (a : α) : KeepsRefs S (Pure.pure a : Cmd α) := Lib.Command.Keeps.pure .refl a

theorem fault (e : Fault) : KeepsRefs S (Lib.Command.fault e : Cmd α) := Lib.Command.Keeps.fault e

theorem ofExcept (x : Except Fault α) : KeepsRefs S (Lib.Command.ofExcept x : Cmd α) :=
  Lib.Command.Keeps.ofExcept .refl x

theorem bind {m : Cmd α} {f : α → Cmd β} (hm : KeepsRefs S m) (hf : ∀ a, KeepsRefs S (f a)) : KeepsRefs S (m >>= f) :=
  Lib.Command.Keeps.bind (fun h h' => h.trans h') hm hf

theorem ite {c : Prop} [Decidable c] {m m' : Cmd α} (hm : KeepsRefs S m) (hm' : KeepsRefs S m') :
    KeepsRefs S (if c then m else m') := by
  split_ifs
  · exact hm
  · exact hm'

end KeepsRefs

theorem keepsRefs_own (p : ℕ) (n : ℤ) : KeepsRefs S (own p n) := by
  intro w u w' h
  obtain ⟨b, x, hp, rfl⟩ := run_own_iff.mp h
  exact refsKept_put hp (fun _ => rfl) fun _ => rfl

theorem keepsRefs_pushBack (k : Kind) (p : ℕ) : KeepsRefs S (Controller.pushBack k p) := by
  intro w u w' h
  obtain rfl := run_pushBack_iff.mp h
  exact refsKept_of_heap rfl

theorem keepsRefs_construct (c : DBClass) (d : Doc) : KeepsRefs S (construct c d) := by
  intro w p w' h
  obtain ⟨o, -, -, rfl⟩ := run_construct_iff.mp h
  exact refsKept_push w o

theorem keepsRefs_setChanged (k : Kind) (b : Bool) : KeepsRefs S (setChanged k b) := by
  intro w u w' h
  obtain rfl := run_setChanged_iff.mp h
  exact refsKept_of_heap rfl

theorem keepsRefs_setCash (k : Kind) (l : List ℕ) : KeepsRefs S (setCash k l) := by
  intro w u w' h
  obtain rfl := run_setCash_iff.mp h
  exact refsKept_of_heap rfl

theorem still_cash (k : Kind) : Still (cash k) := fun _ _ _ h => (run_cash_iff.mp h).2

theorem still_isChanged (k : Kind) : Still (isChanged k) := fun _ _ _ h => (run_isChanged_iff.mp h).2

theorem still_find (k : Kind) (filter : Doc) : Still (find k filter) := fun _ _ _ h => (run_find_iff.mp h).2

theorem still_findOne (k : Kind) (filter : Doc) : Still (findOne k filter) := fun _ _ _ h => (run_findOne_iff.mp h).2

theorem keepsRefs_remove (k : Kind) (p : ℕ) : KeepsRefs S (Controller.remove k p) :=
  .bind (.still (still_cash k)) fun _ => keepsRefs_setCash k _

theorem keepsRefs_scan (k : Kind) (oid : Oid) (l : List ℕ) : KeepsRefs S (Controller.scan k oid l) := by
  induction l with
  | nil => exact .pure _
  | cons p rest ih =>
    refine .bind (.still (still_fromDB p)) fun b => .ite ?_ (.ite (.pure _) ih)
    refine .bind (keepsRefs_own p _) fun _ => .bind (.still (still_fromDB p)) fun _ => .ite ?_ ih
    exact .bind (keepsRefs_remove k p) fun _ => .fault _

theorem keepsRefs_isAlredyInCash (k : Kind) (oid : Oid) : KeepsRefs S (Controller.isAlredyInCash k oid) :=
  .bind (.still (still_cash k)) fun l => keepsRefs_scan k oid l

theorem keepsRefs_lookUp {k : Kind} {oid : Oid} {build : Doc → Cmd (Option ℕ)} (hb : ∀ d, KeepsRefs S (build d)) :
    KeepsRefs S (Controller.lookUp k oid build) := by
  refine .bind (keepsRefs_isAlredyInCash k oid) fun r => ?_
  cases r with
  | some res => exact .pure _
  | none =>
    refine .bind (.still (still_findOne k _)) fun d? => ?_
    cases d? with
    | none => exact .pure _
    | some d => exact hb d

theorem keepsRefs_getFromDB (k : Kind) (oid : Oid) (t : AccountType) : KeepsRefs S (getFromDB k oid t) := by
  refine .ite (keepsRefs_lookUp fun d => ?_) (keepsRefs_lookUp fun d => ?_)
  · cases InfosController.classOf t with
    | none => exact .pure _
    | some c =>
      exact .bind (keepsRefs_construct c d) fun acc => .bind (keepsRefs_own acc 1) fun _ =>
        .bind (keepsRefs_pushBack .infos acc) fun _ => .pure _
  · exact .bind (keepsRefs_construct _ d) fun acc => .bind (keepsRefs_pushBack k acc) fun _ =>
      .bind (keepsRefs_own acc 1) fun _ => .pure _

theorem keepsRefs_infosGetFromDB (oid : Oid) (t : AccountType) : KeepsRefs S (InfosController.getFromDB oid t) :=
  keepsRefs_getFromDB .infos oid t

theorem keepsRefs_collect (k : Kind) (keep : Doc → Except Fault Bool) (counted : Bool) (docs : List Doc) :
    KeepsRefs S (Controller.collect k keep counted docs) := by
  induction docs with
  | nil => exact .pure _
  | cons d docs ih =>
    refine .bind (.ofExcept _) fun b => .ite ?_ ih
    refine .bind (.ofExcept _) fun oid => .bind (keepsRefs_isAlredyInCash k oid) fun r => ?_
    cases r with
    | some inst => exact .bind ih fun _ => .pure _
    | none =>
      refine .bind (keepsRefs_construct _ d) fun inst => .bind (keepsRefs_pushBack k inst) fun _ => .ite ?_ ?_
      · exact .bind (keepsRefs_own inst 1) fun _ => .bind ih fun _ => .pure _
      · exact .bind ih fun _ => .pure _

theorem keepsRefs_getAll (k : Kind) : KeepsRefs S (Controller.getAll k) :=
  .bind (.still (still_isChanged k)) fun _ => .ite (.still (still_cash k))
    (.bind (.still (still_find k _)) fun docs => .bind (keepsRefs_collect k _ _ docs) fun _ =>
      .bind (keepsRefs_setChanged k _) fun _ => .pure _)

theorem keepsRefs_getAllTeachers : KeepsRefs S AccountsController.getAllTeachers :=
  .bind (.still (still_find _ _)) fun docs => keepsRefs_collect _ _ _ docs

theorem keepsRefs_getAllSchedulesinDate (date : Int32) (group : Pointer) :
    KeepsRefs S (ScheduleController.getAllSchedulesinDate date group) := by
  refine .bind (.still fun _ _ _ h => (run_deref_iff.mp h).2) fun p => .bind (.still (still_fromDB p)) fun b => ?_
  exact .bind (.still (still_find _ _)) fun docs => keepsRefs_collect _ _ _ docs

theorem still_groupOf (p : ℕ) : Still (groupOf p) := fun _ _ _ h => (run_groupOf_iff.mp h).2

theorem keepsRefs_assignStudents {this : ℕ} (hS : S this) (l : List ℕ) : KeepsRefs S (assignStudents this l) := by
  intro w u w' h
  obtain ⟨c, g, hg, rfl⟩ := run_assignStudents_iff.mp h
  exact refsKept_put hg (fun f => by cases f <;> rfl) fun h => (h hS).elim

theorem still_cast (isClass : Fields → Bool) (r : Option ℕ) : Still (cast isClass r) :=
  fun _ _ _ h => (run_cast_iff.mp h).1

theorem keepsRefs_loadStudents {this : ℕ} (hS : S this) (vs : List Element) : KeepsRefs S (GroupDB.loadStudents this vs) := by
  induction vs with
  | nil => exact .pure _
  | cons v vs ih =>
    refine .bind (.ofExcept _) fun oid => .bind (keepsRefs_infosGetFromDB oid _) fun r =>
      .bind (.still (still_cast _ r)) fun r' => ?_
    cases r' with
    | none => exact ih
    | some res =>
      exact .bind (.still (still_fromDB res)) fun b => .ite (.bind (.still (still_groupOf this)) fun g =>
        .bind (keepsRefs_assignStudents hS _) fun _ => ih) ih

theorem keepsRefs_getStudents {this : ℕ} (hS : S this) : KeepsRefs S (GroupDB.getStudents this) := by
  refine .bind (keepsRefs_assignStudents hS []) fun _ => .bind (.still (still_fromDB this)) fun b =>
    .bind (.ofExcept _) fun v => ?_
  cases v with
  | array vs => exact .bind (keepsRefs_loadStudents hS vs) fun _ => .bind (.still (still_groupOf this)) fun _ => .pure _
  | _ => exact .bind (.still (still_groupOf this)) fun _ => .pure _

/-! ### Settled members -/

/-- A member that a getter leaves alone: it points to an object that exists, or it is null and the document of its
object names none. -/
def Lib.Conf.SettledAt (w : World) (p : ℕ) (f : RefField) (v : Pointer) : Prop :=
  w.Alive p ∧ w.refOf p f = some v ∧ ((∃ q, v = .to q ∧ w.Alive q) ∨ v = .null ∧ w.docRef p f.key = none)

theorem docRef_of_kept {p : ℕ} {b b' : IFromDB} {x x' : Fields} (hp : w.heap.get p = some ⟨some b, x⟩)
    (hp' : w'.heap.get p = some ⟨some b', x'⟩) (hc : b'.core = b.core) (key : String) : w'.docRef p key = w.docRef p key := by
  simp only [IFromDB.core, Prod.mk.injEq] at hc
  rw [docRef_of_get hp, docRef_of_get hp', hc.2.1]

theorem Lib.Conf.SettledAt.keep {p : ℕ} {f : RefField} {v : Pointer} (h : w.SettledAt p f v) (hl : Looks w w')
    (hr : w'.refOf p f = w.refOf p f) : w'.SettledAt p f v := by
  obtain ⟨hp, hv, hs⟩ := h
  refine ⟨hl.alive hp, hr.trans hv, hs.imp ?_ ?_⟩
  · rintro ⟨q, rfl, hq⟩
    exact ⟨q, rfl, hl.alive hq⟩
  · rintro ⟨rfl, hd⟩
    obtain ⟨b, x, hg, hb⟩ := hp
    obtain ⟨b', x', hg', hc, -⟩ := hl.kept hg hb
    exact ⟨rfl, (docRef_of_kept hg hg' hc _).trans hd⟩

/-- The getter of a settled member changes nothing. -/
theorem GotBy.of_settled {g : Getter} {p : ℕ} {r : Option ℕ} {v : Pointer} (h : GotBy w g p r w') (hg : g ≠ .getTeacher)
    (hs : w.SettledAt p g.field v) : w' = w ∧ Pointer.ofOption r = v := by
  obtain ⟨hp, hv, ⟨q, rfl, hq⟩ | ⟨rfl, hd⟩⟩ := hs
  · obtain ⟨rfl, rfl⟩ := h.of_to hv hq
    exact ⟨rfl, rfl⟩
  · have hkey : g.field.key = g.key := by cases g <;> first | rfl | exact (hg rfl).elim
    rw [hkey] at hd
    cases h with
    | settled ho hv' => simp [refOf_of_get ho, hv'] at hv
    | absent => exact ⟨rfl, rfl⟩
    | missed ho hn hk => simp [docRef_of_get ho, hk] at hd
    | loaded ho hn hk => simp [docRef_of_get ho, hk] at hd

/-- An operation that only asks leaves a member of an object that exists alone, unless it is the member's getter. -/
theorem Action.Idle.refOf {a : Action} (ha : a.Idle) (hw : Sound w) (h : a.Step w w') {p : ℕ} (hp : w.Alive p)
    (f : RefField) : w'.refOf p f = w.refOf p f ∨ ∃ g r, g.field = f ∧ GotBy w g p r w' := by
  have hkeeps : RefsKept (fun _ => True) w w' → w'.refOf p f = w.refOf p f ∨ ∃ g r, g.field = f ∧ GotBy w g p r w' :=
    fun hr => .inl (hr.refOf hp f)
  unfold Action.Step at h
  cases a with
  | getFromDB k oid t =>
    obtain ⟨_, _, hm, he⟩ := (run_bind_iff _).mp h
    obtain ⟨-, rfl⟩ := (run_pure_iff _).mp he
    exact hkeeps (keepsRefs_getFromDB k oid t _ _ _ hm)
  | getAll k =>
    obtain ⟨_, _, hm, he⟩ := (run_bind_iff _).mp h
    obtain ⟨-, rfl⟩ := (run_pure_iff _).mp he
    exact hkeeps (keepsRefs_getAll k _ _ _ hm)
  | getAllTeachers =>
    obtain ⟨_, _, hm, he⟩ := (run_bind_iff _).mp h
    obtain ⟨-, rfl⟩ := (run_pure_iff _).mp he
    exact hkeeps (keepsRefs_getAllTeachers _ _ _ hm)
  | getAllSchedulesinDate date group =>
    obtain ⟨_, _, hm, he⟩ := (run_bind_iff _).mp h
    obtain ⟨-, rfl⟩ := (run_pure_iff _).mp he
    exact hkeeps (keepsRefs_getAllSchedulesinDate _ _ _ _ _ hm)
  | getStudents this =>
    obtain ⟨_, _, hm, he⟩ := (run_bind_iff _).mp h
    obtain ⟨-, rfl⟩ := (run_pure_iff _).mp he
    exact hkeeps (keepsRefs_getStudents trivial _ _ _ hm)
  | get g this =>
    obtain ⟨r, _, hm, he⟩ := (run_bind_iff _).mp h
    obtain ⟨-, rfl⟩ := (run_pure_iff _).mp he
    have hg := run_getter hw hm
    by_cases he : p = this ∧ f = g.field
    · obtain ⟨rfl, rfl⟩ := he
      exact .inr ⟨g, r, rfl, hg⟩
    · rw [not_and_or] at he
      exact .inl (hg.refOf hp he)
  | _ => exact ha.elim

/-- So it leaves a settled member alone. -/
theorem Action.Idle.settledAt {a : Action} (ha : a.Idle) (hw : Sound w) (h : a.Step w w') {p : ℕ} {f : RefField}
    {v : Pointer} (hf : f ≠ .teacher) (hs : w.SettledAt p f v) : w'.SettledAt p f v := by
  rcases ha.refOf hw h hs.1 f with hr | ⟨g, r, rfl, hg⟩
  · exact hs.keep ((outcome_of_step hw h).looks ha) hr
  · have hne : g ≠ .getTeacher := by
      rintro rfl
      exact hf rfl
    obtain ⟨rfl, -⟩ := hg.of_settled hne hs
    exact hs

/-- It does not make a member point to an object that no longer exists. -/
theorem Action.Idle.ne_dead {a : Action} (ha : a.Idle) (hw : Sound w) (h : a.Step w w') {p q : ℕ} {f : RefField}
    (hp : w.Alive p) (hq : ¬ w.Alive q) (hlt : q < w.heap.next) (hr : w.refOf p f ≠ some (.to q)) :
    w'.refOf p f ≠ some (.to q) := by
  have hl := (outcome_of_step hw h).looks ha
  rcases ha.refOf hw h hp f with he | ⟨g, r, rfl, hg⟩
  · rwa [he]
  · cases r with
    | none =>
      rw [hg.ref_none]
      simp
    | some q' =>
      obtain ⟨hq', he⟩ := hg.alive hw
      rw [he]
      rintro he'
      obtain rfl : q' = q := by simpa using he'
      exact hl.dead hq hlt hq'

/-- Everything a screen does leaves a settled member alone. -/
theorem Watches.settledAt (h : Watches w w') (hw : Sound w) {p : ℕ} {f : RefField} {v : Pointer} (hf : f ≠ .teacher)
    (hs : w.SettledAt p f v) : w'.SettledAt p f v := by
  induction h with
  | refl => exact hs
  | tail h ha ih =>
    obtain ⟨a, ha, -, hstep⟩ := ha
    exact ha.settledAt ((Watches.looks h hw).sound hw) hstep hf ih

theorem Watches.ne_dead (h : Watches w w') (hw : Sound w) {p q : ℕ} {f : RefField} (hp : w.Alive p)
    (hq : ¬ w.Alive q) (hlt : q < w.heap.next) (hr : w.refOf p f ≠ some (.to q)) : w'.refOf p f ≠ some (.to q) := by
  induction h with
  | refl => exact hr
  | tail h ha ih =>
    obtain ⟨a, ha, -, hstep⟩ := ha
    have hl := Watches.looks h hw
    exact ha.ne_dead (hl.sound hw) hstep (hl.alive hp) (hl.dead hq hlt) (hlt.trans_le hl.next_le) ih

/-! ### Other groups -/

/-- A getter asks for a member its object has. -/
theorem GotBy.ref_isSome {g : Getter} {p : ℕ} {r : Option ℕ} (h : GotBy w g p r w') : (w.refOf p g.field).isSome := by
  cases h with
  | settled ho hv => rw [refOf_of_get ho, hv, Option.isSome_some]
  | absent ho hn => rw [refOf_of_get ho, hn, Option.isSome_some]
  | missed ho hn => rw [refOf_of_get ho, hn, Option.isSome_some]
  | loaded ho hn => rw [refOf_of_get ho, hn, Option.isSome_some]

/-- An operation that only asks leaves a group alone whose curator and students it does not ask for. -/
theorem Action.Idle.group {a : Action} (ha : a.Idle) (hw : Sound w) (h : a.Step w w') {p : ℕ} {b : IFromDB} {x : Group}
    (hp : w.heap.get p = some ⟨some b, .group x⟩) (hb : b.isExist = true) (ho : ¬ a.Opens p) :
    ∃ b', w'.heap.get p = some ⟨some b', .group x⟩ ∧ b'.core = b.core := by
  obtain ⟨b', x', hp', hc, -⟩ := ((outcome_of_step hw h).looks ha).kept hp hb
  refine ⟨b', ?_, hc⟩
  have hkeeps : RefsKept a.Opens w w' → w'.heap.get p = some ⟨some b', .group x⟩ := by
    intro hr
    obtain ⟨o', hg, -, hx⟩ := hr p _ hp
    obtain rfl := Option.some.inj (hp'.symm.trans hg)
    obtain rfl : x' = .group x := hx ho
    exact hp'
  unfold Action.Step at h
  cases a with
  | getFromDB k oid t =>
    obtain ⟨_, _, hm, he⟩ := (run_bind_iff _).mp h
    obtain ⟨-, rfl⟩ := (run_pure_iff _).mp he
    exact hkeeps (keepsRefs_getFromDB k oid t _ _ _ hm)
  | getAll k =>
    obtain ⟨_, _, hm, he⟩ := (run_bind_iff _).mp h
    obtain ⟨-, rfl⟩ := (run_pure_iff _).mp he
    exact hkeeps (keepsRefs_getAll k _ _ _ hm)
  | getAllTeachers =>
    obtain ⟨_, _, hm, he⟩ := (run_bind_iff _).mp h
    obtain ⟨-, rfl⟩ := (run_pure_iff _).mp he
    exact hkeeps (keepsRefs_getAllTeachers _ _ _ hm)
  | getAllSchedulesinDate date group =>
    obtain ⟨_, _, hm, he⟩ := (run_bind_iff _).mp h
    obtain ⟨-, rfl⟩ := (run_pure_iff _).mp he
    exact hkeeps (keepsRefs_getAllSchedulesinDate _ _ _ _ _ hm)
  | getStudents this =>
    obtain ⟨_, _, hm, he⟩ := (run_bind_iff _).mp h
    obtain ⟨-, rfl⟩ := (run_pure_iff _).mp he
    exact hkeeps (keepsRefs_getStudents (S := (Action.getStudents this).Opens) rfl _ _ _ hm)
  | get g this =>
    obtain ⟨r, _, hm, he⟩ := (run_bind_iff _).mp h
    obtain ⟨-, rfl⟩ := (run_pure_iff _).mp he
    have hg := run_getter hw hm
    have hne : p ≠ this := by
      rintro rfl
      have hs := hg.ref_isSome
      rw [refOf_of_get hp] at hs
      cases g <;> first | exact ho rfl | cases hs
    have hget := (hg.get_other ⟨b, _, hp, hb⟩ hne).trans hp
    obtain ⟨rfl, rfl⟩ : b' = b ∧ x' = .group x := by simpa using Option.some.inj (hp'.symm.trans hget)
    exact hget
  | _ => exact ha.elim

/-- So does everything a screen does that is about other groups. -/
theorem WatchesOf.group (h : WatchesOf S w w') (hw : Sound w) {p : ℕ} {b : IFromDB} {x : Group}
    (hp : w.heap.get p = some ⟨some b, .group x⟩) (hb : b.isExist = true) (hS : ¬ S p) :
    ∃ b', w'.heap.get p = some ⟨some b', .group x⟩ ∧ b'.core = b.core := by
  induction h with
  | refl => exact ⟨b, hp, rfl⟩
  | tail h ha ih =>
    obtain ⟨a, ha, hopen, hstep⟩ := ha
    obtain ⟨b₁, h₁, hc₁⟩ := ih
    have hb₁ : b₁.isExist = true := by
      simp only [IFromDB.core, Prod.mk.injEq] at hc₁
      rw [hc₁.2.2, hb]
    obtain ⟨b₂, h₂, hc₂⟩ := ha.group ((Watches.looks h hw).sound hw) hstep h₁ hb₁ fun ho => hS (hopen p ho)
    exact ⟨b₂, h₂, hc₂.trans hc₁⟩

end Cbt
