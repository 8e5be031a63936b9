import Mathlib.Logic.Basic

/-! Runs of labelled steps, and what holds after every run. A guard says which
steps a run may take in which states; an invariant that the start has and every
guarded step keeps holds in every state a guarded run reaches. -/

namespace Cbt.Lib

variable {σ α : Type}

/-- A sequence of steps, each taken in a state its guard allows. -/
inductive Run (step : α → σ → σ → Prop) (guard : α → σ → Prop) (init : σ) : List α → σ → Prop
  | nil : Run step guard init [] init
  | snoc {as : List α} {s s' : σ} {a : α} (hr : Run step guard init as s) (hg : guard a s) (hs : step a s s') :
      Run step guard init (as ++ [a]) s'

/-- The guard that allows every step. -/
def Free : α → σ → Prop := fun _ _ => True

namespace Run

variable {step : α → σ → σ → Prop} {guard : α → σ → Prop} {init s : σ} {as : List α}

/-- An invariant of the guarded steps holds after every guarded run. -/
theorem invariant {I : σ → Prop} (h0 : I init)
    (hstep : ∀ a s s', I s → guard a s → step a s s' → I s') (hr : Run step guard init as s) : I s := by
  induction hr with
  | nil => exact h0
  | snoc _ hg hs ih => exact hstep _ _ _ ih hg hs

/-- A guard that allows more has more runs. -/
theorem mono {guard' : α → σ → Prop} (h : ∀ a s, guard a s → guard' a s) (hr : Run step guard init as s) :
    Run step guard' init as s := by
  induction hr with
  | nil => exact .nil
  | snoc _ hg hs ih => exact .snoc ih (h _ _ hg) hs

/-- A run whose labels all have a property is guarded by it. -/
theorem guarded {P : α → Prop} (hr : Run step guard init as s) (h : ∀ a ∈ as, P a) :
    Run step (fun a _ => P a) init as s := by
  induction hr with
  | nil => exact .nil
  | snoc _ hg hs ih =>
    simp only [List.mem_append, List.mem_singleton] at h
    exact .snoc (ih fun a ha => h a (.inl ha)) (h _ (.inr rfl)) hs

/-- A run continued by a run. -/
theorem append {t : σ} {bs : List α} (h₁ : Run step guard init as s) (h₂ : Run step guard s bs t) :
    Run step guard init (as ++ bs) t := by
  induction h₂ with
  | nil => simpa using h₁
  | snoc _ hg hs ih => rw [← List.append_assoc]; exact .snoc ih hg hs

end Run

/-! ### Runs that are computed -/

/-- Play labels one after the other, each checked in the state it is played in. -/
def playChecked (next? : α → σ → Option σ) (check : α → σ → Bool) : List α → σ → Option σ
  | [], s => some s
  | a :: as, s => if check a s then (next? a s).bind (playChecked next? check as) else none

/-- What can be played is a run, guarded by what the check implies. -/
theorem Run.of_playChecked {step : α → σ → σ → Prop} {guard : α → σ → Prop} {next? : α → σ → Option σ}
    {check : α → σ → Bool} {as : List α} {s s' : σ} (hnext : ∀ {a s s'}, next? a s = some s' → step a s s')
    (hcheck : ∀ {a s}, check a s = true → guard a s) (h : playChecked next? check as s = some s') :
    Run step guard s as s' := by
  induction as generalizing s with
  | nil =>
    obtain rfl := Option.some.inj h
    exact .nil
  | cons a as ih =>
    rw [playChecked] at h
    split at h
    · rename_i hc
      obtain ⟨s₁, h₁, h₂⟩ := Option.bind_eq_some_iff.mp h
      exact .append (.snoc .nil (hcheck hc) (hnext h₁)) (ih h₂)
    · cases h

end Cbt.Lib
