import Mathlib.Data.List.Nodup
import Mathlib.Data.List.Perm.Basic

/-! A table of keyed rows in a fixed order. No two rows have one key, so a
look-up determines the row; rows are added at the end, replaced in place and
taken out, and every operation says what each later look-up finds. -/

namespace Cbt.Lib

structure Table (κ α : Type) where
  rows : List (κ × α)
  nodup : (rows.map Prod.fst).Nodup

namespace Table

variable {κ α : Type} [DecidableEq κ]

/-- Look a key up in a list of rows. -/
def find : List (κ × α) → κ → Option α
  | [], _ => none
  | (k, a) :: l, k' => if k = k' then some a else find l k'

def get? (t : Table κ α) (k : κ) : Option α := find t.rows k

theorem find_eq_none {l : List (κ × α)} {k : κ} : find l k = none ↔ k ∉ l.map Prod.fst := by
  induction l with
  | nil => simp [find]
  | cons r l ih =>
    obtain ⟨k', a⟩ := r
    by_cases hk : k' = k
    · simp [find, hk]
    · simp [find, hk, ih, Ne.symm hk]

theorem find_eq_some {l : List (κ × α)} (hl : (l.map Prod.fst).Nodup) {k : κ} {a : α} :
    find l k = some a ↔ (k, a) ∈ l := by
  induction l with
  | nil => simp [find]
  | cons r l ih =>
    obtain ⟨k', b⟩ := r
    simp only [List.map_cons, List.nodup_cons] at hl
    by_cases hk : k' = k
    · subst hk
      have hn : (k', a) ∉ l := fun h => hl.1 (List.mem_map_of_mem (f := Prod.fst) h)
      simp [find, hn, eq_comm]
    · simp [find, hk, ih hl.2, Ne.symm hk]

theorem mem_rows {t : Table κ α} {k : κ} {a : α} : (k, a) ∈ t.rows ↔ t.get? k = some a :=
  (find_eq_some t.nodup).symm

theorem get?_eq_none {t : Table κ α} {k : κ} : t.get? k = none ↔ k ∉ t.rows.map Prod.fst := find_eq_none

def empty : Table κ α := ⟨[], List.nodup_nil⟩

@[simp] theorem get?_empty (k : κ) : (empty : Table κ α).get? k = none := rfl

/-- Add a row under a new key, after the others. -/
def insert (t : Table κ α) (k : κ) (a : α) (hk : t.get? k = none) : Table κ α where
  rows := t.rows ++ [(k, a)]
  nodup := by
    rw [List.map_append, List.nodup_append]
    refine ⟨t.nodup, by simp, ?_⟩
    intro x hx y hy
    have hy' : y = k := by simpa using hy
    rintro rfl
    exact get?_eq_none.mp hk (hy' ▸ hx)

theorem find_append (l l' : List (κ × α)) (k : κ) :
    find (l ++ l') k = (find l k).or (find l' k) := by
  induction l with
  | nil => simp [find]
  | cons r l ih =>
    obtain ⟨k', a⟩ := r
    by_cases hk : k' = k
    · simp [find, hk]
    · simp [find, hk, ih]

theorem get?_insert (t : Table κ α) {k : κ} (a : α) (hk : t.get? k = none) (k' : κ) :
    (t.insert k a hk).get? k' = if k' = k then some a else t.get? k' := by
  change find (t.rows ++ [(k, a)]) k' = _
  rw [find_append]
  split_ifs with h
  · subst h
    have hn : find t.rows k' = none := hk
    simp [hn, find]
  · have hn : find [(k, a)] k' = none := by simp [find, Ne.symm h]
    rw [hn, Option.or_none]
    rfl

/-- Replace the row under a key, in its place; without such a row nothing changes. -/
def replace (t : Table κ α) (k : κ) (a : α) : Table κ α where
  rows := t.rows.map fun r => if r.1 = k then (r.1, a) else r
  nodup := by
    have he : (t.rows.map fun r => if r.1 = k then (r.1, a) else r).map Prod.fst = t.rows.map Prod.fst := by
      rw [List.map_map]
      apply List.map_congr_left
      intro r _
      simp only [Function.comp]
      split_ifs <;> rfl
    rw [he]
    exact t.nodup

theorem get?_replace (t : Table κ α) (k : κ) (a : α) (k' : κ) :
    (t.replace k a).get? k' = if k' = k then (t.get? k).map fun _ => a else t.get? k' := by
  obtain ⟨l, hl⟩ := t
  simp only [get?, replace]
  clear hl
  induction l with
  | nil => simp [find]
  | cons r l ih =>
    obtain ⟨k₀, b⟩ := r
    by_cases h0 : k₀ = k
    · subst h0
      by_cases h1 : k' = k₀
      · subst h1; simp [find]
      · simpa [find, h1, Ne.symm h1] using ih
    · by_cases h1 : k' = k
      · subst h1; simpa [find, h0] using ih
      · by_cases h2 : k₀ = k'
        · simp [find, h1, h2]
        · simpa [find, h0, h1, h2] using ih

/-- Take the row under a key out. -/
def erase (t : Table κ α) (k : κ) : Table κ α where
  rows := t.rows.filter fun r => r.1 ≠ k
  nodup := t.nodup.sublist (List.filter_sublist.map Prod.fst)

theorem get?_erase (t : Table κ α) (k k' : κ) :
    (t.erase k).get? k' = if k' = k then none else t.get? k' := by
  obtain ⟨l, hl⟩ := t
  simp only [get?, erase]
  clear hl
  induction l with
  | nil => simp [find]
  | cons r l ih =>
    obtain ⟨k₀, b⟩ := r
    by_cases h0 : k₀ = k
    · subst h0
      rw [List.filter_cons_of_neg (by simp), ih]
      by_cases h1 : k' = k₀
      · simp [h1]
      · simp [find, h1, Ne.symm h1]
    · rw [List.filter_cons_of_pos (by simpa using h0)]
      by_cases h2 : k₀ = k'
      · subst h2; simp [find, h0]
      · simpa [find, h2] using ih

/-- The values, in row order. -/
def values (t : Table κ α) : List α := t.rows.map Prod.snd

theorem mem_values {t : Table κ α} {a : α} : a ∈ t.values ↔ ∃ k, t.get? k = some a := by
  simp [values, ← mem_rows]

end Table

end Cbt.Lib
