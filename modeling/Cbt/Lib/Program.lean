import Mathlib.Data.List.Basic

/-! Programs over a private memory that call an environment. A program is a
result, a fault, or a call together with what follows the answer, so that the
same text can be executed in one go against an environment or resumed call by
call between the calls of other programs. A command also threads a memory of
its own. Runs are read through one equivalence for each construct: a run of a
composite command ends well exactly when the runs of its parts do. -/

namespace Cbt.Lib

/-- A result, a fault, or a call and its continuation. -/
inductive Program (C : Type) (R : C → Type) (ε α : Type) where
  | done (a : α)
  | fault (e : ε)
  | call (c : C) (next : R c → Program C R ε α)

namespace Program

variable {C : Type} {R : C → Type} {ε α β S : Type}

def bind : Program C R ε α → (α → Program C R ε β) → Program C R ε β
  | done a, f => f a
  | fault e, _ => fault e
  | call c next, f => call c fun r => (next r).bind f

instance : Monad (Program C R ε) where
  pure := done
  bind := bind

theorem bind_done (x : Program C R ε α) : x.bind done = x := by
  induction x with
  | done a => rfl
  | fault e => rfl
  | call c next ih => exact congrArg (Program.call c) (funext ih)

theorem bind_bind (x : Program C R ε α) (f : α → Program C R ε β) (g : β → Program C R ε S) :
    (x.bind f).bind g = x.bind fun a => (f a).bind g := by
  induction x with
  | done a => rfl
  | fault e => rfl
  | call c next ih => exact congrArg (Program.call c) (funext ih)

instance : LawfulMonad (Program C R ε) := .mk' (Program C R ε) bind_done (fun _ _ => rfl) bind_bind

/-- Execute against an environment that answers every call at once. -/
def exec (serve : (c : C) → S → Except ε (R c × S)) : Program C R ε α → S → Except ε (α × S)
  | done a, s => .ok (a, s)
  | fault e, _ => .error e
  | call c next, s => match serve c s with
    | .ok (r, s') => (next r).exec serve s'
    | .error e => .error e

theorem exec_bind (serve : (c : C) → S → Except ε (R c × S)) (x : Program C R ε α)
    (f : α → Program C R ε β) (s : S) :
    (x >>= f).exec serve s = match x.exec serve s with
      | .ok (a, s') => (f a).exec serve s'
      | .error e => .error e := by
  induction x generalizing s with
  | done a => rfl
  | fault e => rfl
  | call c next ih =>
    change (Program.call c fun r => (next r).bind f).exec serve s = _
    simp only [exec]
    cases serve c s with
    | error e => rfl
    | ok r => exact ih r.1 r.2

end Program

/-- An environment together with the memory of one command. -/
structure Conf (S P : Type) where
  env : S
  mem : P

/-- A program that threads a memory. -/
abbrev Command (P C : Type) (R : C → Type) (ε α : Type) := StateT P (Program C R ε) α

namespace Command

variable {P C : Type} {R : C → Type} {ε α β S : Type}

def fault (e : ε) : Command P C R ε α := fun _ => .fault e

def call (c : C) : Command P C R ε (R c) := fun p => .call c fun r => .done (r, p)

def ofExcept : Except ε α → Command P C R ε α
  | .ok a => pure a
  | .error e => fault e

/-- Run a command to its end against an environment. -/
def run (serve : (c : C) → S → Except ε (R c × S)) (m : Command P C R ε α) (w : Conf S P) :
    Except ε (α × Conf S P) :=
  match (m w.mem).exec serve w.env with
  | .ok ((a, p), s) => .ok (a, ⟨s, p⟩)
  | .error e => .error e

section Run
variable (serve : (c : C) → S → Except ε (R c × S)) {w w' : Conf S P}

@[simp] theorem run_pure_iff {a b : α} :
    run serve (pure a : Command P C R ε α) w = .ok (b, w') ↔ a = b ∧ w = w' := by
  have he : run serve (pure a : Command P C R ε α) w = .ok (a, w) := rfl
  rw [he]; simp

theorem run_bind {m : Command P C R ε α} {f : α → Command P C R ε β} :
    run serve (m >>= f) w = match run serve m w with
      | .ok (a, w₁) => run serve (f a) w₁
      | .error e => .error e := by
  change (match ((m w.mem) >>= fun r => f r.1 r.2).exec serve w.env with
    | .ok ((a, p), s) => Except.ok (a, (⟨s, p⟩ : Conf S P)) | .error e => .error e) = _
  rw [Program.exec_bind]
  simp only [run]
  rcases (m w.mem).exec serve w.env with e | ⟨⟨a, p⟩, s⟩ <;> rfl

theorem run_bind_iff {m : Command P C R ε α} {f : α → Command P C R ε β} {b : β} :
    run serve (m >>= f) w = .ok (b, w') ↔
      ∃ a w₁, run serve m w = .ok (a, w₁) ∧ run serve (f a) w₁ = .ok (b, w') := by
  rw [run_bind]
  rcases run serve m w with e | ⟨a, w₁⟩ <;> simp

/-- A sequence ends in a fault where one of its commands does. -/
theorem run_bind_error_iff {m : Command P C R ε α} {f : α → Command P C R ε β} {e : ε} :
    run serve (m >>= f) w = .error e ↔
      run serve m w = .error e ∨ ∃ a w₁, run serve m w = .ok (a, w₁) ∧ run serve (f a) w₁ = .error e := by
  rw [run_bind]
  rcases run serve m w with e' | ⟨a, w₁⟩ <;> simp

@[simp] theorem run_map_iff {m : Command P C R ε α} {f : α → β} {b : β} :
    run serve (f <$> m) w = .ok (b, w') ↔ ∃ a, run serve m w = .ok (a, w') ∧ f a = b := by
  have he : f <$> m = m >>= fun a => pure (f a) := rfl
  rw [he, run_bind_iff]
  simp only [run_pure_iff]
  constructor
  · rintro ⟨a, w₁, h, rfl, rfl⟩
    exact ⟨a, h, rfl⟩
  · rintro ⟨a, h, rfl⟩
    exact ⟨a, w', h, rfl, rfl⟩

@[simp] theorem run_get_iff {p : P} :
    run serve (get : Command P C R ε P) w = .ok (p, w') ↔ w.mem = p ∧ w = w' := by
  have he : run serve (get : Command P C R ε P) w = .ok (w.mem, w) := rfl
  rw [he]; simp

@[simp] theorem run_set_iff {p : P} {u : PUnit} :
    run serve (set p : Command P C R ε PUnit) w = .ok (u, w') ↔ ⟨w.env, p⟩ = w' := by
  have he : run serve (set p : Command P C R ε PUnit) w = .ok (⟨⟩, ⟨w.env, p⟩) := rfl
  rw [he]; simp

@[simp] theorem run_modify_iff {g : P → P} {u : PUnit} :
    run serve (modify g : Command P C R ε PUnit) w = .ok (u, w') ↔ ⟨w.env, g w.mem⟩ = w' := by
  have he : run serve (modify g : Command P C R ε PUnit) w = .ok (⟨⟩, ⟨w.env, g w.mem⟩) := rfl
  rw [he]; simp

@[simp] theorem run_fault_iff {e : ε} {a : α} :
    run serve (fault e : Command P C R ε α) w = .ok (a, w') ↔ False := by
  have he : run serve (fault e : Command P C R ε α) w = .error e := rfl
  rw [he]; simp

@[simp] theorem run_ofExcept_iff {x : Except ε α} {a : α} :
    run serve (ofExcept x : Command P C R ε α) w = .ok (a, w') ↔ x = .ok a ∧ w = w' := by
  cases x with
  | error e => simp [ofExcept]
  | ok b => simp [ofExcept]

@[simp] theorem run_call_iff {c : C} {r : R c} :
    run serve (call c : Command P C R ε (R c)) w = .ok (r, w') ↔
      ∃ s, serve c w.env = .ok (r, s) ∧ ⟨s, w.mem⟩ = w' := by
  have he : run serve (call c : Command P C R ε (R c)) w = match serve c w.env with
      | .ok (r, s) => .ok (r, ⟨s, w.mem⟩)
      | .error e => .error e := by
    simp only [run, call, Program.exec]
    rcases serve c w.env with e | ⟨r, s⟩ <;> rfl
  rw [he]
  rcases serve c w.env with e | ⟨r, s⟩
  · simp
  · simp only [Except.ok.injEq, Prod.mk.injEq]
    constructor
    · rintro ⟨rfl, rfl⟩; exact ⟨s, ⟨rfl, rfl⟩, rfl⟩
    · rintro ⟨s', ⟨rfl, rfl⟩, rfl⟩; exact ⟨rfl, rfl⟩

end Run

/-! ### Relations kept by every run -/

/-- Every run of the command relates its start to its end. -/
def Keeps (serve : (c : C) → S → Except ε (R c × S)) (rel : Conf S P → Conf S P → Prop)
    (m : Command P C R ε α) : Prop :=
  ∀ w a w', run serve m w = .ok (a, w') → rel w w'

namespace Keeps
variable {serve : (c : C) → S → Except ε (R c × S)} {rel : Conf S P → Conf S P → Prop}

theorem pure (hr : ∀ w, rel w w) (a : α) : Keeps serve rel (Pure.pure a : Command P C R ε α) := by
  intro w b w' h
  obtain ⟨-, rfl⟩ := (run_pure_iff serve).mp h
  exact hr w

theorem fault (e : ε) : Keeps serve rel (Command.fault e : Command P C R ε α) :=
  fun _ _ _ h => ((run_fault_iff serve).mp h).elim

theorem ofExcept (hr : ∀ w, rel w w) (x : Except ε α) :
    Keeps serve rel (Command.ofExcept x : Command P C R ε α) := by
  intro w a w' h
  obtain ⟨-, rfl⟩ := (run_ofExcept_iff serve).mp h
  exact hr w

theorem bind (ht : ∀ {a b c}, rel a b → rel b c → rel a c) {m : Command P C R ε α}
    {f : α → Command P C R ε β} (hm : Keeps serve rel m) (hf : ∀ a, Keeps serve rel (f a)) :
    Keeps serve rel (m >>= f) := by
  intro w b w' h
  obtain ⟨a, w₁, h₁, h₂⟩ := (run_bind_iff serve).mp h
  exact ht (hm _ _ _ h₁) (hf a _ _ _ h₂)

end Keeps

end Command

end Cbt.Lib
