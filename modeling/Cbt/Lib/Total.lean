import Cbt.Lib.Program

/-! Commands that return. A command returns from a configuration or ends in a fault.
A sequence returns when its first command does and the rest returns from where that
one ends, so what a command needs in order to return is read off its parts. -/

namespace Cbt.Lib.Command

variable {P C : Type} {R : C → Type} {ε α β S : Type}
variable {serve : (c : C) → S → Except ε (R c × S)} {w w' : Conf S P}

/-- The command returns, with a result and a configuration of `post`. -/
def Returns (serve : (c : C) → S → Except ε (R c × S)) (m : Command P C R ε α) (w : Conf S P)
    (post : α → Conf S P → Prop) : Prop :=
  ∃ a w', run serve m w = .ok (a, w') ∧ post a w'

namespace Returns

variable {m : Command P C R ε α} {f : α → Command P C R ε β} {post post' : α → Conf S P → Prop} {after : β → Conf S P → Prop}

theorem of_run {a : α} (h : run serve m w = .ok (a, w')) (hp : post a w') : Returns serve m w post := ⟨a, w', h, hp⟩

theorem mono (h : Returns serve m w post) (hp : ∀ a w', post a w' → post' a w') : Returns serve m w post' := by
  obtain ⟨a, w', hr, ha⟩ := h
  exact ⟨a, w', hr, hp a w' ha⟩

theorem pure {a : α} (h : post a w) : Returns serve (Pure.pure a : Command P C R ε α) w post :=
  ⟨a, w, (run_pure_iff serve).mpr ⟨rfl, rfl⟩, h⟩

theorem bind (hm : Returns serve m w post) (hf : ∀ a w₁, post a w₁ → Returns serve (f a) w₁ after) :
    Returns serve (m >>= f) w after := by
  obtain ⟨a, w₁, h₁, ha⟩ := hm
  obtain ⟨b, w₂, h₂, hb⟩ := hf a w₁ ha
  exact ⟨b, w₂, (run_bind_iff serve).mpr ⟨a, w₁, h₁, h₂⟩, hb⟩

/-- A command returns in one way only. -/
theorem post_of_run {a : α} (h : Returns serve m w post) (hr : run serve m w = .ok (a, w')) : post a w' := by
  obtain ⟨b, w₁, hm, hb⟩ := h
  obtain ⟨rfl, rfl⟩ := Prod.mk.inj (Except.ok.inj (hm.symm.trans hr))
  exact hb

end Returns

end Cbt.Lib.Command
