import Cbt.Lib.Program

/-! Faults that a command never ends in. A sequence avoids a fault when each of its
commands does. A command is safe for an invariant when no run from one of its
states ends in the fault and every run that returns is back in the invariant, and
a sequence of safe commands is safe. -/

namespace Cbt.Lib.Command

variable {P C : Type} {R : C → Type} {ε α β S : Type}
variable {serve : (c : C) → S → Except ε (R c × S)} {e : ε}

theorem pure_ne_error (a : α) : (Pure.pure a : Except ε α) ≠ .error e := by
  intro h
  cases h

/-- A sequence of partial functions fails where one of them does. -/
theorem bind_ne_error {x : Except ε α} {f : α → Except ε β} (hx : x ≠ .error e) (hf : ∀ a, f a ≠ .error e) :
    x >>= f ≠ .error e := by
  cases x with
  | ok a => exact hf a
  | error e' => exact fun h => hx (congrArg _ (Except.error.inj h))

theorem map_ne_error {x : Except ε α} {f : α → β} (hx : x ≠ .error e) : f <$> x ≠ .error e := by
  cases x with
  | ok a => exact pure_ne_error (f a)
  | error e' => exact fun h => hx (congrArg _ (Except.error.inj h))

/-- No run ends in the fault. -/
def Avoids (serve : (c : C) → S → Except ε (R c × S)) (e : ε) (m : Command P C R ε α) : Prop :=
  ∀ w, run serve m w ≠ .error e

namespace Avoids

theorem pure (a : α) : Avoids serve e (Pure.pure a : Command P C R ε α) := by
  intro w h
  cases h

theorem fault {e' : ε} (he : e' ≠ e) : Avoids serve e (Command.fault e' : Command P C R ε α) := by
  intro w h
  cases h
  exact he rfl

theorem ofExcept {x : Except ε α} (hx : x ≠ .error e) :
    Avoids serve e (Command.ofExcept x : Command P C R ε α) := by
  cases x with
  | ok a => exact pure a
  | error e' => exact fault fun he => hx (congrArg _ he)

theorem bind {m : Command P C R ε α} {f : α → Command P C R ε β} (hm : Avoids serve e m)
    (hf : ∀ a, Avoids serve e (f a)) : Avoids serve e (m >>= f) := by
  intro w h
  rcases (run_bind_error_iff serve).mp h with h | ⟨a, w₁, -, h⟩
  · exact hm w h
  · exact hf a w₁ h

theorem ite {c : Prop} [Decidable c] {m m' : Command P C R ε α} (hm : Avoids serve e m)
    (hm' : Avoids serve e m') : Avoids serve e (if c then m else m') := by
  split_ifs
  · exact hm
  · exact hm'

theorem of_get : Avoids serve e (get : Command P C R ε P) := by
  intro w h
  cases h

theorem of_set (p : P) : Avoids serve e (set p : Command P C R ε PUnit) := by
  intro w h
  cases h

theorem of_modify (g : P → P) : Avoids serve e (modify g : Command P C R ε PUnit) := by
  intro w h
  cases h

theorem of_call {c : C} (hc : ∀ s, serve c s ≠ .error e) :
    Avoids serve e (call c : Command P C R ε (R c)) := by
  intro w h
  apply hc w.env
  simp only [run, call, Program.exec] at h
  cases hs : serve c w.env with
  | error e' => simpa [hs] using h
  | ok r => simp [hs] at h

end Avoids

/-! ### Invariants -/

variable {I : Conf S P → Prop}

/-- From a state of the invariant no run ends in the fault, and one that returns is in the invariant again. -/
def Safe (serve : (c : C) → S → Except ε (R c × S)) (e : ε) (I : Conf S P → Prop) (m : Command P C R ε α) : Prop :=
  ∀ w, I w → run serve m w ≠ .error e ∧ ∀ a w', run serve m w = .ok (a, w') → I w'

namespace Safe

theorem of_avoids {m : Command P C R ε α} (hm : Avoids serve e m)
    (hI : ∀ w a w', run serve m w = .ok (a, w') → I w → I w') : Safe serve e I m :=
  fun w h => ⟨hm w, fun a w' hr => hI w a w' hr h⟩

theorem pure (a : α) : Safe serve e I (Pure.pure a : Command P C R ε α) := by
  refine of_avoids (.pure a) fun w b w' h hw => ?_
  obtain ⟨-, rfl⟩ := (run_pure_iff serve).mp h
  exact hw

theorem bind {m : Command P C R ε α} {f : α → Command P C R ε β} (hm : Safe serve e I m)
    (hf : ∀ a, Safe serve e I (f a)) : Safe serve e I (m >>= f) := by
  intro w hw
  obtain ⟨hne, hI⟩ := hm w hw
  constructor
  · intro h
    rcases (run_bind_error_iff serve).mp h with h | ⟨a, w₁, h₁, h⟩
    · exact hne h
    · exact (hf a w₁ (hI a w₁ h₁)).1 h
  · intro b w' h
    obtain ⟨a, w₁, h₁, h⟩ := (run_bind_iff serve).mp h
    exact (hf a w₁ (hI a w₁ h₁)).2 b w' h

end Safe

end Cbt.Lib.Command
