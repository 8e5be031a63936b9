import Mathlib.Order.Basic
import Cbt.Lib.Program

/-! Typings of a memory. A typing says what is at which place, and grows while
places are taken. A command preserves typings when each of its runs from a well
typed configuration ends in one that is well typed under a larger typing, with a
result that has its type there. The rules follow the constructs of a command. -/

namespace Cbt.Lib.Command

variable {P C : Type} {R : C → Type} {ε α β S T : Type} [Preorder T]

/-- From every typing above `t` a run ends under a larger one, with a result of its type. -/
def Preserves (serve : (c : C) → S → Except ε (R c × S)) (typed : T → Conf S P → Prop) (t : T) (ty : T → α → Prop)
    (m : Command P C R ε α) : Prop :=
  ∀ t₁ w a w', t ≤ t₁ → typed t₁ w → run serve m w = .ok (a, w') → ∃ t', t₁ ≤ t' ∧ typed t' w' ∧ ty t' a

namespace Preserves

variable {serve : (c : C) → S → Except ε (R c × S)} {typed : T → Conf S P → Prop} {t : T} {ty : T → α → Prop}
variable {m : Command P C R ε α}

/-- A result of one type has every type that follows. -/
theorem imp {ty' : T → α → Prop} (h : Preserves serve typed t ty m) (hty : ∀ t₁ a, t ≤ t₁ → ty t₁ a → ty' t₁ a) :
    Preserves serve typed t ty' m := by
  intro t₁ w a w' ht hw hr
  obtain ⟨t', ht', hw', ha⟩ := h t₁ w a w' ht hw hr
  exact ⟨t', ht', hw', hty t' a (ht.trans ht') ha⟩

/-- A command that changes nothing. -/
theorem still (hm : ∀ w a w', run serve m w = .ok (a, w') → w' = w)
    (h : ∀ t₁ w a, t ≤ t₁ → typed t₁ w → run serve m w = .ok (a, w) → ty t₁ a) : Preserves serve typed t ty m := by
  intro t₁ w a w' ht hw hr
  obtain rfl := hm w a w' hr
  exact ⟨t₁, le_rfl, hw, h t₁ w' a ht hw hr⟩

/-- A command that keeps the typing. -/
theorem step (h : ∀ t₁ w a w', t ≤ t₁ → typed t₁ w → run serve m w = .ok (a, w') → typed t₁ w' ∧ ty t₁ a) :
    Preserves serve typed t ty m :=
  fun t₁ w a w' ht hw hr => ⟨t₁, le_rfl, (h t₁ w a w' ht hw hr).1, (h t₁ w a w' ht hw hr).2⟩

theorem pure {a : α} (h : ∀ t₁, t ≤ t₁ → ty t₁ a) : Preserves serve typed t ty (Pure.pure a : Command P C R ε α) := by
  intro t₁ w b w' ht hw hr
  obtain ⟨rfl, rfl⟩ := (run_pure_iff serve).mp hr
  exact ⟨t₁, le_rfl, hw, h t₁ ht⟩

theorem fault (e : ε) : Preserves serve typed t ty (Command.fault e : Command P C R ε α) :=
  fun _ _ _ _ _ _ hr => ((run_fault_iff serve).mp hr).elim

theorem bind {ty' : T → β → Prop} {f : α → Command P C R ε β} (hm : Preserves serve typed t ty m)
    (hf : ∀ a t₁, t ≤ t₁ → ty t₁ a → Preserves serve typed t₁ ty' (f a)) : Preserves serve typed t ty' (m >>= f) := by
  intro t₁ w b w' ht hw hr
  obtain ⟨a, w₁, h₁, h₂⟩ := (run_bind_iff serve).mp hr
  obtain ⟨t₂, ht₂, hw₁, ha⟩ := hm t₁ w a w₁ ht hw h₁
  obtain ⟨t', ht', hw', hb⟩ := hf a t₂ (ht.trans ht₂) ha t₂ w₁ b w' le_rfl hw₁ h₂
  exact ⟨t', ht₂.trans ht', hw', hb⟩

theorem ite {c : Prop} [Decidable c] {m' : Command P C R ε α} (hm : c → Preserves serve typed t ty m)
    (hm' : ¬ c → Preserves serve typed t ty m') : Preserves serve typed t ty (if c then m else m') := by
  split_ifs with hc
  · exact hm hc
  · exact hm' hc

end Preserves

end Cbt.Lib.Command
