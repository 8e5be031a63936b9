import Mathlib.Logic.Function.Basic
import Mathlib.Order.Basic
import Cbt.Lib.Program
import Cbt.Lib.Run

/-! Parties that share an environment. Each party has a memory of its own and takes
its steps alone, in any order with those of the others. What the environment and the
memories satisfy is said at a stage; stages only grow, so what one party may rely on
at a stage it may rely on after the steps of all the others. -/

namespace Cbt.Lib

/-- An environment and the memory of every party. -/
structure Shared (ι S P : Type) where
  env : S
  mem : ι → P

namespace Shared

variable {ι S P α T : Type} [DecidableEq ι]

/-- What a party sees. -/
def conf (s : Shared ι S P) (i : ι) : Conf S P := ⟨s.env, s.mem i⟩

/-- A party has changed the environment and its own memory. -/
def moved (s : Shared ι S P) (i : ι) (w : Conf S P) : Shared ι S P := ⟨w.env, Function.update s.mem i w.mem⟩

@[simp] theorem conf_moved (s : Shared ι S P) (i : ι) (w : Conf S P) : (s.moved i w).conf i = w := by
  simp [conf, moved]

theorem mem_moved_of_ne (s : Shared ι S P) {i j : ι} (h : j ≠ i) (w : Conf S P) : (s.moved i w).mem j = s.mem j :=
  Function.update_of_ne h _ _

/-- What the same party did before is overwritten. -/
@[simp] theorem moved_moved (s : Shared ι S P) (i : ι) (w w' : Conf S P) : (s.moved i w).moved i w' = s.moved i w' := by
  simp [moved]

/-- One party takes a step. -/
def Step (step : α → Conf S P → Conf S P → Prop) (a : ι × α) (s s' : Shared ι S P) : Prop :=
  ∃ w, step a.2 (s.conf a.1) w ∧ s' = s.moved a.1 w

/-- The guard of the party that takes the step. -/
def Guard (guard : α → Conf S P → Prop) (a : ι × α) (s : Shared ι S P) : Prop := guard a.2 (s.conf a.1)

variable {step : α → Conf S P → Conf S P → Prop} {guard : α → Conf S P → Prop}

/-- What the environment satisfies at a stage, and what every party does. -/
structure At (whole : T → S → Prop) (part : T → P → Prop) (t : T) (s : Shared ι S P) : Prop where
  env : whole t s.env
  mem : ∀ i, part t (s.mem i)

section
variable [Preorder T] {whole : T → S → Prop} {part : T → P → Prop}
  (hmono : ∀ t t' p, t ≤ t' → part t p → part t' p)
  (hstep : ∀ a t w w', whole t w.env → part t w.mem → guard a w → step a w w' →
    ∃ t', t ≤ t' ∧ whole t' w'.env ∧ part t' w'.mem)
include hmono hstep

/-- A step of one party. The others are where they were, at a larger stage. -/
theorem At.next {a : ι × α} {t : T} {s s' : Shared ι S P} (h : At whole part t s) (hg : Guard guard a s)
    (hs : Step step a s s') : ∃ t', t ≤ t' ∧ At whole part t' s' := by
  obtain ⟨w, hw, rfl⟩ := hs
  obtain ⟨t', ht, hwhole, hpart⟩ := hstep a.2 t (s.conf a.1) w h.env (h.mem a.1) hg hw
  refine ⟨t', ht, hwhole, fun j => ?_⟩
  by_cases hj : j = a.1
  · subst hj
    simpa [moved] using hpart
  · rw [mem_moved_of_ne s hj]
    exact hmono t t' _ ht (h.mem j)

/-- A run of all parties, in any order. -/
theorem At.after {t : T} {init s : Shared ι S P} {as : List (ι × α)} (h : At whole part t init)
    (hr : Run (Step step) (Guard guard) init as s) : ∃ t', t ≤ t' ∧ At whole part t' s := by
  refine hr.invariant (I := fun s => ∃ t', t ≤ t' ∧ At whole part t' s) ⟨t, le_rfl, h⟩ ?_
  rintro a s s' ⟨t₁, ht₁, h₁⟩ hg hs
  obtain ⟨t₂, ht₂, h₂⟩ := h₁.next hmono hstep hg hs
  exact ⟨t₂, ht₁.trans ht₂, h₂⟩

end

end Shared

end Cbt.Lib
