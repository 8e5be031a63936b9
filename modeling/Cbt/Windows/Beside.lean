import Cbt.Effects.Storing
import Cbt.Windows.Acts

/-! What happens beside a collection. An operation that writes to other collections
leaves the stored documents of this one and its cached objects alone, but for
objects that are loaded; and an object of the collection keeps its document and its
own values. Windows assign public members of other objects than schedules, so for
the schedules the same holds of all they do. -/

namespace Cbt

open Lib.Command (run_bind_iff run_pure_iff)

variable {w w' : World} {K : Kind → Prop} {k : Kind}

/-- Every object of the collection that exists goes on existing, with its document, its `_id` and its own values. -/
def KindKept (k : Kind) (w w' : World) : Prop :=
  ∀ p b x, w.heap.get p = some ⟨some b, x⟩ → b.isExist = true → x.kind = k →
    ∃ b' x', w'.heap.get p = some ⟨some b', x'⟩ ∧ b'.core = b.core ∧ x'.bare = x.bare

/-- One step beside a collection: a quiet one, or one that changes neither the collection nor its cache. -/
inductive Beside (k : Kind) (w w' : World) : Prop
  | quiet (h : Micro anything w w')
  | other (hs : w'.stored k = w.stored k) (hc : w'.cash k = w.cash k) (hk : KindKept k w w')

abbrev Besides (k : Kind) : World → World → Prop := Relation.ReflTransGen (Beside k)

theorem kindKept_put {p : ℕ} {o o' : Obj} (hp : w.heap.get p = some o) (hk : o.fields.kind ≠ k) :
    KindKept k w (w.put p o') := by
  intro q b x hq hb hx
  have hne : q ≠ p := by
    rintro rfl
    obtain rfl := Option.some.inj (hp.symm.trans hq)
    exact hk hx
  exact ⟨b, x, by rw [Lib.Conf.get_put hp, if_neg hne, hq], rfl, rfl⟩

theorem kindKept_of_get (h : ∀ p b x, w.heap.get p = some ⟨some b, x⟩ → b.isExist = true → x.kind = k →
    w'.heap.get p = w.heap.get p) : KindKept k w w' :=
  fun p b x hp hb hx => ⟨b, x, (h p b x hp hb hx).trans hp, rfl, rfl⟩

namespace Besides

theorem of_quiet {L : Loads} (h : Quiet L w w') : Besides k w w' := by
  replace h : Quiet anything w w' := h.mono fun _ _ _ => trivial
  induction h with
  | refl => exact .refl
  | tail _ h ih => exact ih.tail (.quiet h)

theorem of_looks (h : Looks w w') : Besides k w w' := by
  induction h with
  | refl => exact .refl
  | tail _ h ih =>
    refine ih.tail ?_
    cases h with
    | quiet h => exact .quiet h
    | listed k => exact .other rfl (by simp) (kindKept_of_get fun _ _ _ _ _ _ => rfl)

theorem setChanged (w : World) (k' : Kind) (b : Bool) : Besides k w (w.setChanged k' b) :=
  .single (.other rfl (by simp) (kindKept_of_get fun _ _ _ _ _ _ => rfl))

theorem load {k' : Kind} (hk : k' ≠ k) (o : Obj) : Besides k w (w.load k' o) := by
  refine .single (.other rfl ?_ (kindKept_of_get fun p b x hp _ _ => ?_))
  · rw [Lib.Conf.cash_load, if_neg hk.symm]
  · rw [hp]
    exact Lib.Heap.get_push_of_some _ hp

theorem push (w : World) (o : Obj) : Besides k w (w.push o) := by
  refine .single (.other rfl rfl (kindKept_of_get fun p b x hp _ _ => ?_))
  rw [hp]
  exact Lib.Heap.get_push_of_some _ hp

theorem post {k' : Kind} (hk : k' ≠ k) {e : ℕ} {x : Fields} (he : w.heap.get e = some ⟨none, x⟩) (d : Doc) :
    Besides k w (w.post k' e d) := by
  refine .single (.other ?_ (by simp) (kindKept_of_get fun p b y hp _ _ => ?_))
  · funext o
    rw [stored_post, if_neg fun h => hk h.1.symm]
  · have hne : p ≠ e := by
      rintro rfl
      simp [he] at hp
    rw [heap_post, Lib.Heap.get_free, if_neg hne]

theorem updated {k' : Kind} (hk : k' ≠ k) {el : ℕ} {r : Bool}
    (h : run (Controller.update k' el) w = .ok (r, w')) : Besides k w w' := by
  obtain ⟨b, x, d, hp, hx, -, -, hh, hc, -, -, hst⟩ := update_effect h
  refine .single (.other ?_ (by rw [hc]) (kindKept_of_get fun p b' y hp' _ hy => ?_))
  · funext o
    rw [hst, if_neg fun h => hk h.1.symm]
  · have hne : p ≠ el := by
      rintro rfl
      obtain ⟨-, rfl⟩ := Obj.mk.inj (Option.some.inj (hp.symm.trans hp'))
      exact hk (hx.symm.trans hy)
    rw [hh, Lib.Heap.get_set _ hp, if_neg hne]

theorem deleted {k' : Kind} (hk : k' ≠ k) {oid : Oid} (h : Deleted w k' oid w') (hw : Sound w) : Besides k w w' := by
  obtain ⟨p, b, x, db, hv, hp, rfl, hdb⟩ := h.effect
  refine .single (.other ?_ ?_ (kindKept_of_get fun q b' y hq _ hy => ?_))
  · funext o
    rw [Lib.Conf.stored_setEnv, hdb, if_neg fun h => hk h.1.symm]
  · simp [Lib.Conf.cash_setCash, hk.symm]
  · have hne : q ≠ p := by
      rintro rfl
      obtain ⟨b', x', hp', -, hx⟩ := hw.entry k' q (victim_mem hv)
      obtain ⟨-, rfl⟩ := Obj.mk.inj (Option.some.inj (hp'.symm.trans hq))
      exact hk (hx.symm.trans hy)
    change (((w.setChanged k' true).dismiss p b x)).heap.get q = _
    exact get_dismiss_of_ne (w.setChanged k' true) p b x (by simpa using hp) hne

/-! ### Members and owners -/

section Members
variable (hg : k ≠ .groups) (hi : k ≠ .infos)
include hg hi

theorem moved {this stud : ℕ} {bg bs : IFromDB} {g : Group} {s : StudentInfo} {students : List ℕ} {group : Pointer}
    (hthis : w.heap.get this = some ⟨some bg, .group g⟩) (hstud : w.heap.get stud = some ⟨some bs, .student s⟩)
    (h : Moved w this stud bg bs g s students group w') : Besides k w w' := by
  obtain ⟨dg, ds, -, -, hst, -, -⟩ := h.docs
  refine .single (.other ?_ (by rw [h.cash]) (kindKept_of_get fun p b x hp _ hx => ?_))
  · funext o
    simp [hst, hg, hi]
  · refine h.other p ?_ ?_ <;> rintro rfl
    · obtain ⟨-, rfl⟩ := Obj.mk.inj (Option.some.inj (hthis.symm.trans hp))
      exact hg hx.symm
    · obtain ⟨-, rfl⟩ := Obj.mk.inj (Option.some.inj (hstud.symm.trans hp))
      exact hi hx.symm

theorem enrolled {this stud : ℕ} (h : Enrolled w this stud w') : Besides k w w' := by
  obtain ⟨bg, bs, g, s, hthis, hstud, hm⟩ := h.moved
  exact moved hg hi hthis hstud hm

theorem expelled {this stud : ℕ} (h : Expelled w this stud w') : Besides k w w' := by
  obtain ⟨bg, bs, g, s, l₁, p, l₂, hthis, hstud, -, -, -, hm⟩ := h.moved
  exact moved hg hi hthis hstud hm

theorem grouped {temp : ℕ} (h : Grouped w temp w') (hw : Sound w) : Besides k w w' := by
  cases h with
  | none h => exact of_quiet (quiet_getGroup hw h)
  | some h h' he =>
    have q₁ := quiet_getGroup hw h
    have q₂ := quiet_getGroup (q₁.sound hw) h'
    exact ((of_quiet q₁).trans (of_quiet q₂)).trans (enrolled hg hi he)

omit hg in
theorem attached (ha : k ≠ .accounts) {acc res : ℕ} (h : Attached w acc res w') : Besides k w w' := by
  obtain ⟨ba, br, a, x, hacc, hres, hx, hgiven⟩ := h.given
  obtain ⟨da, -, hst, -⟩ := hgiven.docs
  refine .single (.other ?_ (by simp [hgiven.cash, hi]) (kindKept_of_get fun p b y hp _ hy => ?_))
  · funext o
    simp [hst, ha]
  · refine hgiven.other p ?_ ?_ <;> rintro rfl
    · obtain ⟨-, rfl⟩ := Obj.mk.inj (Option.some.inj (hacc.symm.trans hp))
      exact ha hy.symm
    · obtain ⟨-, rfl⟩ := Obj.mk.inj (Option.some.inj (hres.symm.trans hp))
      exact hi (hy.symm.trans hx)

theorem infoAdded (ha : k ≠ .accounts) {id : Oid} {t : AccountType} {r : Option ℕ} (h : InfoAdded w id t r w')
    (hw : Sound w) : Besides k w w' := by
  cases h with
  | admin => exact .refl
  | student hs ho hgo he hatt =>
    rename_i d o acc w₁ w₂
    have q₁ := quiet_getOwner (g := .getStudentOwner) rfl (sound_push hw o) hgo
    exact (((push w o).trans (of_quiet q₁)).trans (grouped hg hi he (q₁.sound (sound_push hw o)))).trans (attached hi ha hatt)
  | teacher hs ho hgo hatt =>
    rename_i d o acc w₁
    have q₁ := quiet_getOwner (g := .getTeacherOwner) rfl (sound_push hw o) hgo
    exact ((push w o).trans (of_quiet q₁)).trans (attached hi ha hatt)

end Members

end Besides

theorem Micro.kindKept {L : Loads} (h : Micro L w w') : KindKept k w w' := fun _ _ _ hp hb _ => h.kept hp hb

namespace Beside

theorem stored (h : Beside k w w') : w'.stored k = w.stored k := by
  cases h with
  | quiet h => exact congrFun (Quiet.stored (.single h)) k
  | other hs hc hk => exact hs

theorem mem_cash (h : Beside k w w') {p : ℕ} (hp : p ∈ w.cash k) : p ∈ w'.cash k := by
  cases h with
  | quiet h => exact Quiet.mem_cash (.single h) hp
  | other hs hc hk => rwa [hc]

theorem kept (h : Beside k w w') : KindKept k w w' := by
  cases h with
  | quiet h => exact h.kindKept
  | other hs hc hk => exact hk

end Beside

theorem Besides.stored (h : Besides k w w') : w'.stored k = w.stored k := by
  induction h with
  | refl => rfl
  | tail _ h ih => exact h.stored.trans ih

/-- What an operation does that does not write to a collection is beside it; a log-in caches an account without
looking it up. -/
theorem Outcome.besides {a : Action} (h : Outcome w a w') (hw : Sound w) (ha : ¬ a.writes k)
    (hl : k = .accounts → ∀ l, a ≠ .findFullAccount l) : Besides k w w' := by
  cases h with
  | quiet h => exact .of_quiet h
  | listed hc hl hq => exact (Besides.of_quiet hq).trans (Besides.setChanged _ _ _)
  | loggedIn hd ho => exact .load (fun hk => hl hk.symm _ rfl) _
  | @added k' e t x d o hk he hx hd ho =>
    have hne : k' ≠ k := by
      rintro rfl
      exact ha (by cases k' <;> first | rfl | exact absurd rfl hk)
    exact (Besides.post hne he d).trans (Besides.load hne _)
  | @infoAdded e t r x d w' he hx hd h =>
    have hk : k ≠ .infos ∧ k ≠ .accounts ∧ k ≠ .groups := by simpa [Action.writes] using ha
    have hpost : Besides k w (w.post .infos e d) := Besides.post hk.1.symm he d
    exact hpost.trans (Besides.infoAdded hk.2.2 hk.1 hk.2.1 h (hw.post he _))
  | deleted h => exact .deleted (fun hk => ha hk.symm) h hw
  | updated h => exact .updated (fun hk => ha hk.symm) h
  | enrolled h =>
    have hk : k ≠ .groups ∧ k ≠ .infos := by simpa [Action.writes] using ha
    exact .enrolled hk.1 hk.2 h
  | expelled h =>
    have hk : k ≠ .groups ∧ k ≠ .infos := by simpa [Action.writes] using ha
    exact .expelled hk.1 hk.2 h

theorem Outcome.stored {a : Action} (h : Outcome w a w') (hw : Sound w) (ha : ¬ a.writes k) :
    w'.stored k = w.stored k := by
  by_cases hl : ∃ l, a = .findFullAccount l
  · obtain ⟨l, rfl⟩ := hl
    cases h with
    | quiet h => exact congrFun h.stored k
    | loggedIn hd ho => rfl
  · exact (h.besides hw ha fun _ l hal => hl ⟨l, hal⟩).stored

/-- A command leaves a collection alone that it does not write to. -/
theorem Acts.stored (h : Acts K w w') (hw : Sound w) (hK : ¬ K k) : w'.stored k = w.stored k := by
  induction h with
  | refl => rfl
  | tail h h' ih =>
    cases h' with
    | act a ha hs =>
      have hw' := Acts.sound h hw
      exact ((outcome_of_step hw' hs).stored hw' fun hk => hK (ha _ hk)).trans ih
    | assigned hs =>
      cases hs
      exact ih

/-! ### The schedules -/

theorem Assigned.beside (h : Assigned w w') : Beside .schedules w w' := by
  cases h with
  | mk ho hk hc hf hr => exact .other rfl rfl (kindKept_put ho hk)

/-- What a command does that does not write to the schedules is beside them. -/
theorem Acts.besides (h : Acts K w w') (hw : Sound w) (hK : ¬ K .schedules) : Besides .schedules w w' := by
  induction h with
  | refl => exact .refl
  | tail h h' ih =>
    cases h' with
    | act a ha hs =>
      have hw' := Acts.sound h hw
      exact ih.trans ((outcome_of_step hw' hs).besides hw' (fun hk => hK (ha _ hk)) (by simp))
    | assigned hs => exact ih.tail hs.beside

end Cbt
