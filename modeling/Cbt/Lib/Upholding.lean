import Mathlib.Logic.Relation
import Mathlib.Order.Basic
import Cbt.Lib.Program

/-! Programs whose calls are served one at a time, between the calls of others. A
program upholds an invariant of the environment when every call it may come to make is
one it is allowed, is answered, and leaves the invariant, whatever the others did since
its last call. What the others may have done is that the stage has grown. The rules
follow the constructs of a command; a command that makes no call is judged by its runs. -/

namespace Cbt.Lib

variable {C : Type} {R : C → Type} {ε α β S T : Type}

namespace Program

/-- The next call of a program is served. -/
inductive Next (serve : (c : C) → S → Except ε (R c × S)) :
    Conf S (Program C R ε α) → Conf S (Program C R ε α) → Prop
  | answered {c : C} {next : R c → Program C R ε α} {s s' : S} {r : R c} (h : serve c s = .ok (r, s')) :
      Next serve ⟨s, .call c next⟩ ⟨s', next r⟩
  | refused {c : C} {next : R c → Program C R ε α} {s : S} {e : ε} (h : serve c s = .error e) :
      Next serve ⟨s, .call c next⟩ ⟨s, .fault e⟩

/-- A program that is alone returns as it does when it is executed in one go. -/
theorem next_iff_exec {serve : (c : C) → S → Except ε (R c × S)} {m : Program C R ε α} {s s' : S} {a : α} :
    Relation.ReflTransGen (Next serve) ⟨s, m⟩ ⟨s', .done a⟩ ↔ m.exec serve s = .ok (a, s') := by
  constructor
  · intro h
    generalize hw : (⟨s, m⟩ : Conf S (Program C R ε α)) = w at h
    induction h using Relation.ReflTransGen.head_induction_on generalizing s m with
    | refl =>
      cases hw
      rfl
    | head hn _ ih =>
      subst hw
      cases hn with
      | answered hc => simpa only [exec, hc] using ih rfl
      | refused hc => cases ih rfl
  · intro h
    induction m generalizing s with
    | done b =>
      cases h
      exact .refl
    | fault e => cases h
    | call c next ih =>
      simp only [exec] at h
      cases hc : serve c s with
      | error e => simp [hc] at h
      | ok r =>
        rw [hc] at h
        exact .head (.answered hc) (ih r.1 h)

variable [Preorder T]

/-- Every call is allowed and answered, and leaves the invariant; the result has its type. -/
def Upholds (serve : (c : C) → S → Except ε (R c × S)) (may : C → Prop) (whole : T → S → Prop) (ty : T → α → Prop) :
    T → Program C R ε α → Prop
  | t, .done a => ty t a
  | _, .fault _ => True
  | t, .call c next => may c ∧ ∀ t₁ s, t ≤ t₁ → whole t₁ s →
      ∃ r s', serve c s = .ok (r, s') ∧ ∃ t', t₁ ≤ t' ∧ whole t' s' ∧ Upholds serve may whole ty t' (next r)

namespace Upholds

variable {serve : (c : C) → S → Except ε (R c × S)} {may : C → Prop} {whole : T → S → Prop} {ty : T → α → Prop}
  {m : Program C R ε α} {t : T}

/-- Others may grow the stage. -/
theorem mono {t' : T} (hty : ∀ t t' a, t ≤ t' → ty t a → ty t' a) (ht : t ≤ t') (h : m.Upholds serve may whole ty t) :
    m.Upholds serve may whole ty t' := by
  cases m with
  | done a => exact hty t t' a ht h
  | fault e => trivial
  | call c next => exact ⟨h.1, fun t₁ s ht' => h.2 t₁ s (ht.trans ht')⟩

theorem imp {ty' : T → α → Prop} (hty : ∀ t' a, t ≤ t' → ty t' a → ty' t' a) (h : m.Upholds serve may whole ty t) :
    m.Upholds serve may whole ty' t := by
  induction m generalizing t with
  | done a => exact hty t a le_rfl h
  | fault e => trivial
  | call c next ih =>
    refine ⟨h.1, fun t₁ s ht hs => ?_⟩
    obtain ⟨r, s', hc, t', ht', hs', hm⟩ := h.2 t₁ s ht hs
    exact ⟨r, s', hc, t', ht', hs', ih r (fun t₂ a ht₂ => hty t₂ a ((ht.trans ht').trans ht₂)) hm⟩

theorem bind {ty' : T → β → Prop} {f : α → Program C R ε β} (hm : m.Upholds serve may whole ty t)
    (hf : ∀ a t₁, t ≤ t₁ → ty t₁ a → (f a).Upholds serve may whole ty' t₁) : (m.bind f).Upholds serve may whole ty' t := by
  induction m generalizing t with
  | done a => exact hf a t le_rfl hm
  | fault e => trivial
  | call c next ih =>
    refine ⟨hm.1, fun t₁ s ht hs => ?_⟩
    obtain ⟨r, s', hc, t', ht', hs', hr⟩ := hm.2 t₁ s ht hs
    exact ⟨r, s', hc, t', ht', hs', ih r hr fun a t₂ ht₂ => hf a t₂ ((ht.trans ht').trans ht₂)⟩

theorem of_bind {ty' : T → β → Prop} {f : α → Program C R ε β} (h : (m.bind f).Upholds serve may whole ty' t)
    (hty : ∀ a t₁, (f a).Upholds serve may whole ty' t₁ → ty t₁ a) : m.Upholds serve may whole ty t := by
  induction m generalizing t with
  | done a => exact hty a t h
  | fault e => trivial
  | call c next ih =>
    refine ⟨h.1, fun t₁ s ht hs => ?_⟩
    obtain ⟨r, s', hc, t', ht', hs', hr⟩ := h.2 t₁ s ht hs
    exact ⟨r, s', hc, t', ht', hs', ih r hr⟩

/-- A call that is served is allowed, was not refused and leaves the invariant, and what follows upholds it. -/
theorem next {w w' : Conf S (Program C R ε α)} (h : w.mem.Upholds serve may whole ty t) (hw : whole t w.env)
    (hn : Next serve w w') : (∃ t', t ≤ t' ∧ whole t' w'.env ∧ w'.mem.Upholds serve may whole ty t') ∧
      ∃ c r, may c ∧ serve c w.env = .ok (r, w'.env) := by
  cases hn with
  | answered hc =>
    obtain ⟨r, s', hc', t', ht, hs, hm⟩ := h.2 t _ le_rfl hw
    obtain ⟨rfl, rfl⟩ := Prod.mk.inj (Except.ok.inj (hc.symm.trans hc'))
    exact ⟨⟨t', ht, hs, hm⟩, _, _, h.1, hc⟩
  | refused hc =>
    obtain ⟨r, s', hc', -⟩ := h.2 t _ le_rfl hw
    cases hc.symm.trans hc'

end Upholds

end Program

namespace Command

variable {P U : Type}

/-- A command that makes no call. -/
def Local (m : Command P C R ε α) : Prop := ∀ p, (∃ r, m p = .done r) ∨ ∃ e, m p = .fault e

namespace Local

theorem pure (a : α) : Local (Pure.pure a : Command P C R ε α) := fun p => .inl ⟨(a, p), rfl⟩

theorem fault (e : ε) : Local (Command.fault e : Command P C R ε α) := fun _ => .inr ⟨e, rfl⟩

theorem ofExcept (x : Except ε α) : Local (Command.ofExcept x : Command P C R ε α) := by
  cases x with
  | ok a => exact .pure a
  | error e => exact .fault e

theorem of_get : Local (get : Command P C R ε P) := fun p => .inl ⟨(p, p), rfl⟩

theorem of_set (p : P) : Local (set p : Command P C R ε PUnit) := fun _ => .inl ⟨(⟨⟩, p), rfl⟩

theorem of_modify (g : P → P) : Local (modify g : Command P C R ε PUnit) := fun p => .inl ⟨(⟨⟩, g p), rfl⟩

theorem bind {m : Command P C R ε α} {f : α → Command P C R ε β} (hm : Local m) (hf : ∀ a, Local (f a)) :
    Local (m >>= f) := by
  intro p
  change (∃ r, (m p).bind (fun x => f x.1 x.2) = .done r) ∨ ∃ e, (m p).bind (fun x => f x.1 x.2) = .fault e
  rcases hm p with ⟨r, hr⟩ | ⟨e, he⟩
  · rw [hr]
    exact hf r.1 r.2
  · rw [he]
    exact .inr ⟨e, rfl⟩

theorem ite {c : Prop} [Decidable c] {m m' : Command P C R ε α} (hm : Local m) (hm' : Local m') :
    Local (if c then m else m') := by
  split_ifs
  · exact hm
  · exact hm'

/-- It runs the same against every environment. -/
theorem run_of_done {serve : (c : C) → S → Except ε (R c × S)} {m : Command P C R ε α} {p p' : P} {a : α}
    (h : m p = .done (a, p')) (s : S) : run serve m ⟨s, p⟩ = .ok (a, ⟨s, p'⟩) := by
  simp [run, h, Program.exec]

end Local

variable [Preorder T] [Preorder U]

/-- From every memory that is typed at larger stages, the program upholds the invariant and ends in a typed memory.
The first stage is the one of the environment, which all share; the second is the command's own. -/
def Upholds (serve : (c : C) → S → Except ε (R c × S)) (may : C → Prop) (whole : T → S → Prop) (own : T → U → P → Prop)
    (t : T) (u : U) (ty : T → U → α → Prop) (m : Command P C R ε α) : Prop :=
  ∀ t₁ u₁ p, t ≤ t₁ → u ≤ u₁ → own t₁ u₁ p →
    (m p).Upholds serve may whole (fun t' r => ∃ u', u₁ ≤ u' ∧ own t' u' r.2 ∧ ty t' u' r.1) t₁

namespace Upholds

variable {serve : (c : C) → S → Except ε (R c × S)} {may : C → Prop} {whole : T → S → Prop} {own : T → U → P → Prop}
  {t : T} {u : U} {ty : T → U → α → Prop} {m : Command P C R ε α}

/-- A result of one type has every type that follows. -/
theorem imp {ty' : T → U → α → Prop} (h : Upholds serve may whole own t u ty m)
    (hty : ∀ t₁ u₁ a, t ≤ t₁ → u ≤ u₁ → ty t₁ u₁ a → ty' t₁ u₁ a) : Upholds serve may whole own t u ty' m := by
  intro t₁ u₁ p ht hu hp
  refine (h t₁ u₁ p ht hu hp).imp ?_
  rintro t' r ht' ⟨u', hu', ho, hr⟩
  exact ⟨u', hu', ho, hty t' u' r.1 (ht.trans ht') (hu.trans hu') hr⟩

theorem pure {a : α} (h : ∀ t₁ u₁, t ≤ t₁ → u ≤ u₁ → ty t₁ u₁ a) :
    Upholds serve may whole own t u ty (Pure.pure a : Command P C R ε α) :=
  fun t₁ u₁ _ ht hu hp => ⟨u₁, le_rfl, hp, h t₁ u₁ ht hu⟩

theorem fault (e : ε) : Upholds serve may whole own t u ty (Command.fault e : Command P C R ε α) :=
  fun _ _ _ _ _ _ => trivial

theorem bind {ty' : T → U → β → Prop} {f : α → Command P C R ε β} (hm : Upholds serve may whole own t u ty m)
    (hf : ∀ a t₁ u₁, t ≤ t₁ → u ≤ u₁ → ty t₁ u₁ a → Upholds serve may whole own t₁ u₁ ty' (f a)) :
    Upholds serve may whole own t u ty' (m >>= f) := by
  intro t₁ u₁ p ht hu hp
  refine (hm t₁ u₁ p ht hu hp).bind ?_
  rintro r t₂ ht₂ ⟨u₂, hu₂, ho, hr⟩
  refine (hf r.1 t₂ u₂ (ht.trans ht₂) (hu.trans hu₂) hr t₂ u₂ r.2 le_rfl le_rfl ho).imp ?_
  rintro t' r' - ⟨u', hu', ho', hr'⟩
  exact ⟨u', hu₂.trans hu', ho', hr'⟩

theorem ite {c : Prop} [Decidable c] {m' : Command P C R ε α} (hm : c → Upholds serve may whole own t u ty m)
    (hm' : ¬ c → Upholds serve may whole own t u ty m') : Upholds serve may whole own t u ty (if c then m else m') := by
  split_ifs with hc
  · exact hm hc
  · exact hm' hc

/-- What follows a command and makes no call does not matter. -/
theorem of_bind_pure {b : β} (h : Upholds serve may whole own t u (fun _ _ _ => True) (m >>= fun _ => Pure.pure b)) :
    Upholds serve may whole own t u (fun _ _ _ => True) m := by
  intro t₁ u₁ p ht hu hp
  exact Program.Upholds.of_bind (h t₁ u₁ p ht hu hp) fun r t₂ hr => hr

/-- A command without calls is judged by its runs. -/
theorem of_local [Nonempty S] (hl : Local m) (h : ∀ t₁ u₁ w a w', t ≤ t₁ → u ≤ u₁ → own t₁ u₁ w.mem →
    run serve m w = .ok (a, w') → ∃ u', u₁ ≤ u' ∧ own t₁ u' w'.mem ∧ ty t₁ u' a) : Upholds serve may whole own t u ty m := by
  intro t₁ u₁ p ht hu hp
  rcases hl p with ⟨⟨a, p'⟩, hr⟩ | ⟨e, he⟩
  · rw [hr]
    obtain ⟨s⟩ := ‹Nonempty S›
    exact h t₁ u₁ ⟨s, p⟩ a ⟨s, p'⟩ ht hu hp (Local.run_of_done hr s)
  · rw [he]
    trivial

/-- One call that is allowed and answered, and leaves the invariant. -/
theorem call {c : C} {ty : T → U → R c → Prop} (hown : ∀ t t' u p, t ≤ t' → own t u p → own t' u p) (hc : may c)
    (h : ∀ t₁ u₁ s, t ≤ t₁ → u ≤ u₁ → whole t₁ s →
      ∃ r s', serve c s = .ok (r, s') ∧ ∃ t', t₁ ≤ t' ∧ whole t' s' ∧ ty t' u₁ r) :
    Upholds serve may whole own t u ty (Command.call c : Command P C R ε (R c)) := by
  intro t₁ u₁ p ht hu hp
  refine ⟨hc, fun t₂ s ht₂ hs => ?_⟩
  obtain ⟨r, s', hr, t', ht', hs', hty⟩ := h t₂ u₁ s (ht.trans ht₂) hu hs
  exact ⟨r, s', hr, t', ht', hs', u₁, le_rfl, hown t₁ t' u₁ p (ht₂.trans ht') hp, hty⟩

end Upholds

end Command

end Cbt.Lib
