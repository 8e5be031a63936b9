import Mathlib.Algebra.Order.BigOperators.Group.List
import Mathlib.Tactic.Ring

/-! A heap of cells addressed by natural numbers. A new cell takes the next
address, a freed cell stays empty for ever, so an address names at most one
value over a whole run and a stale address never meets a younger cell. Sums
over the live cells follow every update. -/

namespace Cbt.Lib

structure Heap (α : Type) where
  cells : List (Option α)
  deriving Repr, DecidableEq

namespace Heap

variable {α : Type}

def empty : Heap α := ⟨[]⟩

/-- The address the next new cell will have. -/
def next (h : Heap α) : ℕ := h.cells.length

def get (h : Heap α) (p : ℕ) : Option α := (h.cells[p]?).join

def push (h : Heap α) (a : α) : Heap α := ⟨h.cells ++ [some a]⟩

def set (h : Heap α) (p : ℕ) (a : α) : Heap α := ⟨h.cells.set p (some a)⟩

def free (h : Heap α) (p : ℕ) : Heap α := ⟨h.cells.set p none⟩

theorem lt_next {h : Heap α} {p : ℕ} {a : α} (hp : h.get p = some a) : p < h.next := by
  by_contra hn
  have : h.cells[p]? = none := List.getElem?_eq_none (by simpa [next] using hn)
  simp [get, this] at hp

theorem cells_of_get {h : Heap α} {p : ℕ} {a : α} (hp : h.get p = some a) :
    h.cells[p]? = some (some a) := by
  unfold get at hp
  rcases hc : h.cells[p]? with _ | _ | b
  · simp [hc] at hp
  · simp [hc] at hp
  · simpa [hc] using hp

@[simp] theorem get_empty (p : ℕ) : (empty : Heap α).get p = none := by simp [get, empty]

@[simp] theorem get_next (h : Heap α) : h.get h.next = none := by
  simp [get, next]

@[simp] theorem next_push (h : Heap α) (a : α) : (h.push a).next = h.next + 1 := by
  simp [next, push]

@[simp] theorem next_set (h : Heap α) (p : ℕ) (a : α) : (h.set p a).next = h.next := by
  simp [next, set]

@[simp] theorem next_free (h : Heap α) (p : ℕ) : (h.free p).next = h.next := by
  simp [next, free]

theorem get_push (h : Heap α) (a : α) (q : ℕ) :
    (h.push a).get q = if q = h.next then some a else h.get q := by
  unfold get push next
  split_ifs with hq
  · subst hq; simp
  · rcases Nat.lt_or_ge q h.cells.length with hlt | hge
    · rw [List.getElem?_append_left hlt]
    · rw [List.getElem?_eq_none hge, List.getElem?_eq_none (by simp; omega)]

theorem get_set (h : Heap α) {p : ℕ} {a b : α} (hp : h.get p = some b) (q : ℕ) :
    (h.set p a).get q = if q = p then some a else h.get q := by
  have hlt : p < h.cells.length := lt_next hp
  unfold get set
  split_ifs with hq
  · subst hq; simp [hlt]
  · rw [List.getElem?_set_ne (Ne.symm hq)]

/-- Overwriting a cell with what it holds. -/
theorem set_self {h : Heap α} {p : ℕ} {a : α} (hp : h.get p = some a) : h.set p a = h := by
  obtain ⟨hlt, he⟩ := List.getElem?_eq_some_iff.mp (cells_of_get hp)
  unfold set
  rw [← he, List.set_getElem_self]

theorem get_free (h : Heap α) (p q : ℕ) :
    (h.free p).get q = if q = p then none else h.get q := by
  unfold get free
  split_ifs with hq
  · subst hq
    rcases Nat.lt_or_ge q h.cells.length with hlt | hge
    · simp [hlt]
    · rw [List.getElem?_eq_none (by simpa using hge)]; rfl
  · rw [List.getElem?_set_ne (Ne.symm hq)]

@[simp] theorem get_push_next (h : Heap α) (a : α) : (h.push a).get h.next = some a := by simp [get_push]

/-- Overwriting the youngest cell. -/
@[simp] theorem set_push (h : Heap α) (a b : α) : (h.push a).set h.next b = h.push b := by
  simp [set, push, next]

theorem get_push_of_some {h : Heap α} {q : ℕ} {b : α} (a : α) (hq : h.get q = some b) :
    (h.push a).get q = some b := by
  rw [get_push, if_neg (lt_next hq).ne, hq]

/-! ### Sums over the live cells -/

/-- The sum of a weight over the live cells. -/
def sum (h : Heap α) (f : α → ℤ) : ℤ := (h.cells.map fun c => c.elim 0 f).sum

@[simp] theorem sum_push (h : Heap α) (a : α) (f : α → ℤ) : (h.push a).sum f = h.sum f + f a := by
  simp [sum, push]

theorem sum_set_cell (l : List (Option α)) (f : α → ℤ) {p : ℕ} {b : α} (c : Option α)
    (hp : l[p]? = some (some b)) :
    ((l.set p c).map fun c => c.elim 0 f).sum = (l.map fun c => c.elim 0 f).sum - f b + c.elim 0 f := by
  induction l generalizing p with
  | nil => simp at hp
  | cons x l ih =>
    cases p with
    | zero =>
      simp only [List.getElem?_cons_zero, Option.some.injEq] at hp
      subst hp
      simp only [List.set_cons_zero, List.map_cons, List.sum_cons, Option.elim_some]
      ring
    | succ p =>
      simp only [List.set_cons_succ, List.map_cons, List.sum_cons, ih (by simpa using hp)]
      ring

theorem sum_set (h : Heap α) (f : α → ℤ) {p : ℕ} {a b : α} (hp : h.get p = some b) :
    (h.set p a).sum f = h.sum f - f b + f a :=
  sum_set_cell h.cells f (some a) (cells_of_get hp)

theorem sum_free (h : Heap α) (f : α → ℤ) {p : ℕ} {b : α} (hp : h.get p = some b) :
    (h.free p).sum f = h.sum f - f b := by
  have := sum_set_cell h.cells f none (cells_of_get hp)
  simpa [sum, free] using this

theorem sum_nonneg (h : Heap α) {f : α → ℤ} (hf : ∀ a, 0 ≤ f a) : 0 ≤ h.sum f := by
  apply List.sum_nonneg
  intro x hx
  obtain ⟨c, -, rfl⟩ := List.mem_map.mp hx
  cases c with
  | none => exact le_rfl
  | some a => exact hf a

/-- A cell's weight is at most the whole sum when no weight is negative. -/
theorem le_sum (h : Heap α) {f : α → ℤ} (hf : ∀ a, 0 ≤ f a) {p : ℕ} {a : α} (hp : h.get p = some a) :
    f a ≤ h.sum f := by
  have h0 := (h.free p).sum_nonneg hf
  rw [sum_free h f hp] at h0
  omega

/-- Two cells' weights are at most the whole sum when no weight is negative. -/
theorem add_le_sum (h : Heap α) {f : α → ℤ} (hf : ∀ a, 0 ≤ f a) {p q : ℕ} {a b : α} (hp : h.get p = some a)
    (hq : h.get q = some b) (hpq : p ≠ q) : f a + f b ≤ h.sum f := by
  have hq' : (h.free p).get q = some b := by rw [get_free, if_neg hpq.symm, hq]
  have hle := (h.free p).le_sum hf hq'
  rw [sum_free h f hp] at hle
  omega

/-- Without weight on any live cell the sum is zero. -/
theorem sum_eq_zero (h : Heap α) {f : α → ℤ} (hf : ∀ p a, h.get p = some a → f a = 0) : h.sum f = 0 := by
  apply List.sum_eq_zero
  intro x hx
  obtain ⟨c, hc, rfl⟩ := List.mem_map.mp hx
  cases c with
  | none => rfl
  | some a =>
    obtain ⟨p, hp, he⟩ := List.mem_iff_getElem.mp hc
    exact hf p a (by simp [get, List.getElem?_eq_getElem hp, he])

end Heap

end Cbt.Lib
