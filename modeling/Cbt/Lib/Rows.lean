import Mathlib.Order.Lattice
import Mathlib.Data.List.InsertIdx

/-! Rows of two cells that are kept sorted on the first one. Setting the first
cell of a row moves the whole row to its sorted position at once, so that a loop
which then sets the second cell by the number of the row may write into another
row. A loop that fills rows by their number pairs its items when, and only when,
no row it writes moves. -/

namespace Cbt.Lib

structure Row (ι κ : Type) where
  first : Option ι := none
  second : Option κ := none
  deriving DecidableEq, Repr

namespace Row

variable {ι κ : Type}

def isEmpty (row : Row ι κ) : Bool := row.first.isNone && row.second.isNone

/-- A row with both cells filled. -/
def pair (p : ι × κ) : Row ι κ := ⟨some p.1, some p.2⟩

@[simp] theorem isEmpty_pair (p : ι × κ) : (pair p).isEmpty = false := rfl

end Row

namespace Rows

section
variable {β : Type}

theorem eraseIdx_length (l l' : List β) (a : β) : (l ++ a :: l').eraseIdx l.length = l ++ l' := by
  induction l with
  | nil => rfl
  | cons b l ih => simpa using ih

theorem insertIdx_length (l l' : List β) (a : β) : (l ++ l').insertIdx l.length a = l ++ a :: l' := by
  induction l with
  | nil => simp
  | cons b l ih => simpa using ih

theorem modify_length (l l' : List β) (a : β) (f : β → β) : (l ++ a :: l').modify l.length f = l ++ f a :: l' := by
  induction l with
  | nil => simp
  | cons b l ih => simpa using ih

end

variable {ι κ α : Type} [LinearOrder α] (key : ι → α)

/-- The rows are cut, or empty ones appended. -/
def setCount (n : ℕ) (rows : List (Row ι κ)) : List (Row ι κ) := rows.take n ++ List.replicate (n - rows.length) ⟨none, none⟩

/-- The sorted position of an item among the filled first cells. -/
def position (x : ι) (rows : List (Row ι κ)) : ℕ := rows.countP fun row => row.first.any fun y => decide (key y < key x)

/-- The first cell of a row is set, and the row moves to its sorted position among the others. -/
def setFirst (r : ℕ) (x : ι) (rows : List (Row ι κ)) : List (Row ι κ) :=
  match rows[r]? with
  | none => rows
  | some row => (rows.eraseIdx r).insertIdx (position key x (rows.eraseIdx r)) { row with first := some x }

def setSecond (r : ℕ) (y : κ) (rows : List (Row ι κ)) : List (Row ι κ) :=
  rows.modify r fun row => { row with second := some y }

/-- Two items are set in each row from one on. -/
def fill : ℕ → List (ι × κ) → List (Row ι κ) → List (Row ι κ)
  | _, [], rows => rows
  | r, p :: items, rows => fill (r + 1) items (setSecond r p.2 (setFirst key r p.1 rows))

@[simp] theorem length_setCount (n : ℕ) (rows : List (Row ι κ)) : (setCount n rows).length = n := by
  simp only [setCount, List.length_append, List.length_take, List.length_replicate]
  omega

/-- The first items ascend strictly, and none comes after a first cell of a later row. -/
def Ascends : List (ι × κ) → List (Row ι κ) → Prop
  | [], _ => True
  | p :: items, rows => (∀ q ∈ items, key p.1 < key q.1) ∧ (∀ row ∈ rows.tail, ∀ c ∈ row.first, key p.1 ≤ key c) ∧
    Ascends items rows.tail

variable {key} {x : ι} {y : κ} {row : Row ι κ} {done rest : List (Row ι κ)} {items : List (ι × κ)}

/-! ### A row that stays -/

/-- An item is set in the row that is its sorted position. -/
theorem setSecond_setFirst (hp : position key x (done ++ rest) = done.length) :
    setSecond done.length y (setFirst key done.length x (done ++ row :: rest)) = done ++ Row.pair (x, y) :: rest := by
  have hr : (done ++ row :: rest)[done.length]? = some row := by simp
  simp only [setFirst, hr, eraseIdx_length, hp, insertIdx_length, setSecond, modify_length]
  rfl

theorem position_append : position key x (done ++ rest) = position key x done + position key x rest := by
  simp [position, List.countP_append]

theorem position_eq_length : position key x done = done.length ↔ ∀ row ∈ done, ∃ c ∈ row.first, key c < key x := by
  simp [position, List.countP_eq_length, Option.any_eq_true]

theorem position_eq_zero : position key x rest = 0 ↔ ∀ row ∈ rest, ∀ c ∈ row.first, key x ≤ key c := by
  simp only [position, List.countP_eq_zero, Bool.not_eq_true, Option.any_eq_false, decide_eq_false_iff_not, not_lt]
  rfl

/-- The rows written so far are filled, and none comes after a first cell below. -/
structure Sorted (key : ι → α) (done rest : List (Row ι κ)) : Prop where
  filled : ∀ row ∈ done, row.first.isSome
  le : ∀ row ∈ done, ∀ a ∈ row.first, ∀ row' ∈ rest, ∀ b ∈ row'.first, key a ≤ key b

theorem Sorted.tail (h : Sorted key done (row :: rest)) : Sorted key done rest :=
  ⟨h.filled, fun row hr a ha row' hr' => h.le row hr a ha row' (List.mem_cons_of_mem _ hr')⟩

/-- A row stays where it comes after all that were written and after none of those below. -/
theorem Sorted.position_eq_iff (h : Sorted key done rest) : position key x (done ++ rest) = done.length ↔
    (∀ row ∈ done, ∀ c ∈ row.first, key c < key x) ∧ ∀ row ∈ rest, ∀ c ∈ row.first, key x ≤ key c := by
  rw [position_append]
  constructor
  · intro hp
    by_cases hd : ∀ row ∈ done, ∀ c ∈ row.first, key c < key x
    · have hl : position key x done = done.length := position_eq_length.mpr fun row hr => by
        obtain ⟨c, hc⟩ := Option.isSome_iff_exists.mp (h.filled row hr)
        exact ⟨c, hc, hd row hr c hc⟩
      exact ⟨hd, position_eq_zero.mp (by omega)⟩
    · -- a written cell that does not come before the item is before all those below, so too few come before the item
      push Not at hd
      obtain ⟨row, hr, c, hc, hle⟩ := hd
      have hz : position key x rest = 0 :=
        position_eq_zero.mpr fun row' hr' b hb => hle.trans (h.le row hr c hc row' hr' b hb)
      have hl : position key x done = done.length := by omega
      obtain ⟨c', hc', hlt⟩ := position_eq_length.mp hl row hr
      obtain rfl : c = c' := Option.some.inj (hc.symm.trans hc')
      exact absurd hlt (not_lt.mpr hle)
  · rintro ⟨hd, hr⟩
    rw [position_eq_zero.mpr hr, position_eq_length.mpr fun row hr => ?_, Nat.add_zero]
    obtain ⟨c, hc⟩ := Option.isSome_iff_exists.mp (h.filled row hr)
    exact ⟨c, hc, hd row hr c hc⟩

theorem Sorted.snoc (h : Sorted key done (row :: rest)) (hx : ∀ row ∈ rest, ∀ c ∈ row.first, key x ≤ key c) :
    Sorted key (done ++ [Row.pair (x, y)]) rest := by
  constructor
  · intro row' hr
    rcases List.mem_append.mp hr with hr | hr
    · exact h.filled row' hr
    · obtain rfl := List.mem_singleton.mp hr
      rfl
  · intro row' hr a ha
    rcases List.mem_append.mp hr with hr | hr
    · exact h.tail.le row' hr a ha
    · obtain rfl := List.mem_singleton.mp hr
      obtain rfl : x = a := Option.some.inj ha
      exact hx

/-- A fill whose items ascend writes them in order and leaves the rows below alone. -/
theorem fill_of_ascends (h : Sorted key done rest) (hl : items.length ≤ rest.length)
    (hd : ∀ row ∈ done, ∀ c ∈ row.first, ∀ p ∈ items, key c < key p.1) (ha : Ascends key items rest) :
    fill key done.length items (done ++ rest) = done ++ items.map Row.pair ++ rest.drop items.length := by
  induction items generalizing done rest with
  | nil => simp [fill]
  | cons p items ih =>
    cases rest with
    | nil => simp at hl
    | cons row rest =>
      obtain ⟨hlt, hle, ha⟩ := ha
      have hp : position key p.1 (done ++ rest) = done.length :=
        h.tail.position_eq_iff.mpr ⟨fun row hr c hc => hd row hr c hc p (by simp), hle⟩
      rw [fill, setSecond_setFirst hp]
      have hrec := ih (h.snoc (y := p.2) hle) (by simpa using hl) (fun row' hr c hc q hq => ?_) ha
      · simpa using hrec
      · rcases List.mem_append.mp hr with hr | hr
        · exact hd row' hr c hc q (List.mem_cons_of_mem _ hq)
        · obtain rfl := List.mem_singleton.mp hr
          obtain rfl : p.1 = c := Option.some.inj hc
          exact hlt q hq

/-! ### A row that moves -/

/-- An item that is nowhere in the rows. -/
def Absent (p : ι × κ) (rows : List (Row ι κ)) : Prop :=
  ∀ row ∈ rows, row.first ≠ some p.1 ∧ row.second ≠ some p.2

/-- Two items are in no common row. -/
def Apart (p : ι × κ) (rows : List (Row ι κ)) : Prop := ∀ row ∈ rows, row ≠ Row.pair p

theorem mem_setSecond {r : ℕ} {rows : List (Row ι κ)} (h : row ∈ setSecond r y rows) :
    row ∈ rows ∨ ∃ row', rows[r]? = some row' ∧ row = { row' with second := some y } := by
  obtain ⟨i, hi⟩ := List.mem_iff_getElem?.mp h
  rw [setSecond, List.getElem?_modify] at hi
  obtain ⟨row', hr, he⟩ := Option.map_eq_some_iff.mp hi
  by_cases hri : r = i
  · subst hri
    exact .inr ⟨row', hr, by simpa using he.symm⟩
  · rw [if_neg hri] at he
    exact .inl (he ▸ List.mem_of_getElem? hr)

theorem mem_setFirst {r : ℕ} {rows : List (Row ι κ)} (h : row ∈ setFirst key r x rows) :
    row ∈ rows ∨ ∃ row', rows[r]? = some row' ∧ row = { row' with first := some x } := by
  unfold setFirst at h
  cases hr : rows[r]? with
  | none => exact .inl (by simpa [hr] using h)
  | some row' =>
    simp only [hr] at h
    rcases List.eq_or_mem_of_mem_insertIdx h with rfl | hm
    · exact .inr ⟨row', rfl, rfl⟩
    · exact .inl (List.mem_of_mem_eraseIdx hm)

/-- Items that are apart stay so while others are set. -/
theorem Apart.set {p q : ι × κ} {r : ℕ} {rows : List (Row ι κ)} (h : Apart p rows) (h₁ : q.1 ≠ p.1) (h₂ : q.2 ≠ p.2) :
    Apart p (setSecond r q.2 (setFirst key r q.1 rows)) := by
  have hne : ∀ row ∈ setFirst key r q.1 rows, row ≠ Row.pair p := by
    intro row hr
    rcases mem_setFirst hr with hr | ⟨row', -, rfl⟩
    · exact h row hr
    · rintro he
      exact h₁ (Option.some.inj (congrArg Row.first he))
  intro row hr
  rcases mem_setSecond hr with hr | ⟨row', -, rfl⟩
  · exact hne row hr
  · rintro he
    exact h₂ (Option.some.inj (congrArg Row.second he))

theorem Apart.fill {p : ι × κ} {r : ℕ} {rows : List (Row ι κ)} (h : Apart p rows)
    (h₁ : ∀ q ∈ items, q.1 ≠ p.1) (h₂ : ∀ q ∈ items, q.2 ≠ p.2) : Apart p (Rows.fill key r items rows) := by
  induction items generalizing r rows with
  | nil => exact h
  | cons q items ih =>
    exact ih (h.set (h₁ q (by simp)) (h₂ q (by simp))) (fun q hq => h₁ q (List.mem_cons_of_mem _ hq))
      fun q hq => h₂ q (List.mem_cons_of_mem _ hq)

/-- New items in a row that moves are apart. -/
theorem apart_of_moved {p : ι × κ} (hn : Absent p (done ++ row :: rest))
    (hp : position key p.1 (done ++ rest) ≠ done.length) :
    Apart p (setSecond done.length p.2 (setFirst key done.length p.1 (done ++ row :: rest))) := by
  have hr : (done ++ row :: rest)[done.length]? = some row := by simp
  have hset : setFirst key done.length p.1 (done ++ row :: rest) =
      (done ++ rest).insertIdx (position key p.1 (done ++ rest)) { row with first := some p.1 } := by
    simp only [setFirst, hr, eraseIdx_length]
  rw [hset]
  intro row' hr' he
  rcases mem_setSecond hr' with hm | ⟨row₀, h₀, rfl⟩
  · -- the row that moved has the second cell it had before
    rcases List.eq_or_mem_of_mem_insertIdx hm with rfl | hm
    · exact (hn row (by simp)).2 (congrArg Row.second he)
    · have hin : row' ∈ done ++ row :: rest := by
        rcases List.mem_append.mp hm with hm | hm
        · exact List.mem_append_left _ hm
        · exact List.mem_append_right _ (List.mem_cons_of_mem _ hm)
      exact (hn row' hin).1 (congrArg Row.first he)
  · -- the row that is now under the number is another one
    have hne : row₀ ∈ done ++ rest := by
      rw [List.getElem?_insertIdx] at h₀
      split_ifs at h₀ with hlt heq
      · exact List.mem_of_getElem? h₀
      · exact absurd heq.symm hp
      · exact List.mem_of_getElem? h₀
    have hin : row₀ ∈ done ++ row :: rest := by
      rcases List.mem_append.mp hne with hm | hm
      · exact List.mem_append_left _ hm
      · exact List.mem_append_right _ (List.mem_cons_of_mem _ hm)
    exact (hn row₀ hin).1 (congrArg Row.first he)

/-! ### When a fill pairs its items -/

/-- The filled rows are those of the items. -/
def Pairs (items : List (ι × κ)) (rows : List (Row ι κ)) : Prop :=
  (rows.filter fun row => !row.isEmpty).Perm (items.map Row.pair)

/-- The items are new and all different. -/
structure Fresh (items : List (ι × κ)) (rows : List (Row ι κ)) : Prop where
  absent : ∀ p ∈ items, Absent p rows
  different : items.Pairwise fun p q => q.1 ≠ p.1 ∧ q.2 ≠ p.2

theorem filter_filled (h : ∀ row ∈ done, row.first.isSome) : done.filter (fun row => !row.isEmpty) = done := by
  apply List.filter_eq_self.mpr
  intro row hr
  obtain ⟨c, hc⟩ := Option.isSome_iff_exists.mp (h row hr)
  simp [Row.isEmpty, hc]

theorem Fresh.snoc {p : ι × κ} (h : Fresh (p :: items) (done ++ row :: rest)) :
    Fresh items (done ++ [Row.pair p] ++ rest) := by
  obtain ⟨hne, hd⟩ := List.pairwise_cons.mp h.different
  refine ⟨fun q hq row' hr => ?_, hd⟩
  have ha := h.absent q (List.mem_cons_of_mem _ hq)
  rcases List.mem_append.mp hr with hr | hr
  · rcases List.mem_append.mp hr with hr | hr
    · exact ha row' (List.mem_append_left _ hr)
    · obtain rfl := List.mem_singleton.mp hr
      exact ⟨fun he => (hne q hq).1 (Option.some.inj he).symm, fun he => (hne q hq).2 (Option.some.inj he).symm⟩
  · exact ha row' (List.mem_append_right _ (List.mem_cons_of_mem _ hr))

/-- A fill that pairs its items wrote every row where it stayed. -/
theorem ascends_of_pairs (h : Sorted key done rest) (hl : items.length ≤ rest.length) (hf : Fresh items (done ++ rest))
    (hp : ((fill key done.length items (done ++ rest)).filter fun row => !row.isEmpty).Perm (done ++ items.map Row.pair)) :
    (∀ row ∈ done, ∀ c ∈ row.first, ∀ p ∈ items, key c < key p.1) ∧ Ascends key items rest ∧
      ∀ row ∈ rest.drop items.length, row.isEmpty := by
  induction items generalizing done rest with
  | nil =>
    refine ⟨by simp, trivial, ?_⟩
    rw [fill, List.filter_append, filter_filled h.filled, List.map_nil] at hp
    have hlen := hp.length_eq
    simp only [List.length_append, List.length_nil, Nat.add_left_cancel_iff, List.length_eq_zero_iff] at hlen
    intro row hr
    simpa using List.filter_eq_nil_iff.mp hlen row (by simpa using hr)
  | cons p items ih =>
    cases rest with
    | nil => simp at hl
    | cons row rest =>
      obtain ⟨hne, hd⟩ := List.pairwise_cons.mp hf.different
      by_cases hpos : position key p.1 (done ++ rest) = done.length
      · obtain ⟨hlt, hle⟩ := h.tail.position_eq_iff.mp hpos
        rw [fill, setSecond_setFirst hpos] at hp
        have hp' : ((fill key (done ++ [Row.pair p]).length items (done ++ [Row.pair p] ++ rest)).filter
            fun row => !row.isEmpty).Perm (done ++ [Row.pair p] ++ items.map Row.pair) := by
          simpa using hp
        obtain ⟨hlt', ha, he⟩ := ih (h.snoc (y := p.2) hle) (by simpa using hl) hf.snoc hp'
        refine ⟨?_, ⟨fun q hq => hlt' (Row.pair p) (by simp) p.1 rfl q hq, hle, ha⟩, he⟩
        intro row' hr c hc q hq
        rcases List.mem_cons.mp hq with rfl | hq
        · exact hlt row' hr c hc
        · exact hlt' row' (List.mem_append_left _ hr) c hc q hq
      · have hapart : Apart p (fill key done.length (p :: items) (done ++ row :: rest)) :=
          (apart_of_moved (hf.absent p (by simp)) hpos).fill (fun q hq => (hne q hq).1) fun q hq => (hne q hq).2
        have hin : Row.pair p ∈ fill key done.length (p :: items) (done ++ row :: rest) :=
          (List.mem_filter.mp (hp.mem_iff.mpr (by simp))).1
        exact absurd rfl (hapart _ hin)

/-- A fill pairs its new items exactly when they ascend and the rows it does not write are empty. -/
theorem pairs_fill_iff {rows : List (Row ι κ)} (hl : items.length ≤ rows.length) (hf : Fresh items rows) :
    Pairs items (fill key 0 items rows) ↔ Ascends key items rows ∧ ∀ row ∈ rows.drop items.length, row.isEmpty := by
  have hs : Sorted key [] rows := ⟨by simp, by simp⟩
  constructor
  · intro hp
    exact (ascends_of_pairs hs hl hf hp).2
  · rintro ⟨ha, he⟩
    have hfill := fill_of_ascends hs hl (by simp) ha
    simp only [List.length_nil, List.nil_append] at hfill
    have hnew : (items.map Row.pair).filter (fun row => !row.isEmpty) = items.map Row.pair := by
      refine filter_filled fun row hr => ?_
      obtain ⟨p, -, rfl⟩ := List.mem_map.mp hr
      rfl
    have hold : (rows.drop items.length).filter (fun row => !row.isEmpty) = [] :=
      List.filter_eq_nil_iff.mpr fun row hr => by simp [he row hr]
    rw [Pairs, hfill, List.filter_append, hnew, hold, List.append_nil]

/-- Items ascend when the first ones do and none comes after a first cell of a row behind its own. -/
theorem ascends_iff {rows : List (Row ι κ)} : Ascends key items rows ↔
    (items.Pairwise fun p q => key p.1 < key q.1) ∧ ∀ (i j : ℕ) (p : ι × κ) (row : Row ι κ) (c : ι), i < j → items[i]? = some p →
      rows[j]? = some row → row.first = some c → key p.1 ≤ key c := by
  induction items generalizing rows with
  | nil => simp [Ascends]
  | cons p items ih =>
    rw [Ascends, ih, List.pairwise_cons]
    constructor
    · rintro ⟨hlt, hle, hp, hrec⟩
      refine ⟨⟨hlt, hp⟩, fun i j q row c hij hq hr hc => ?_⟩
      obtain ⟨j, rfl⟩ : ∃ j', j = j' + 1 := ⟨j - 1, by omega⟩
      rw [← List.getElem?_tail] at hr
      cases i with
      | zero =>
        obtain rfl : p = q := by simpa using hq
        exact hle row (List.mem_of_getElem? hr) c hc
      | succ i => exact hrec i j q row c (by omega) (by simpa using hq) hr hc
    · rintro ⟨⟨hlt, hp⟩, hall⟩
      refine ⟨hlt, fun row hr c hc => ?_, hp, fun i j q row c hij hq hr hc => ?_⟩
      · obtain ⟨j, hj⟩ := List.mem_iff_getElem?.mp hr
        rw [List.getElem?_tail] at hj
        exact hall 0 (j + 1) p row c (by omega) rfl hj hc
      · rw [List.getElem?_tail] at hr
        exact hall (i + 1) (j + 1) q row c (by omega) (by simpa using hq) hr hc

/-- A filled row of a table that was cut or made longer was there before. -/
theorem getElem?_setCount {n j : ℕ} {rows : List (Row ι κ)} (h : (setCount n rows)[j]? = some row) :
    (rows.take n)[j]? = some row ∨ row = ⟨none, none⟩ := by
  rw [setCount, List.getElem?_append] at h
  split_ifs at h with hj
  · exact .inl h
  · exact .inr (List.mem_replicate.mp (List.mem_of_getElem? h)).2

theorem getElem?_setCount_of_take {n j : ℕ} {rows : List (Row ι κ)} (h : (rows.take n)[j]? = some row) :
    (setCount n rows)[j]? = some row := by
  rw [setCount, List.getElem?_append_left (List.getElem?_eq_some_iff.mp h).1, h]

theorem empty_drop_setCount {n m : ℕ} {rows : List (Row ι κ)} :
    (∀ row ∈ (setCount n rows).drop m, row.isEmpty) ↔ ∀ row ∈ (rows.take n).drop m, row.isEmpty := by
  rw [setCount, List.drop_append]
  constructor
  · intro h row hr
    exact h row (List.mem_append_left _ hr)
  · intro h row hr
    rcases List.mem_append.mp hr with hr | hr
    · exact h row hr
    · obtain rfl := (List.mem_replicate.mp (List.mem_of_mem_drop hr)).2
      rfl

end Rows

end Cbt.Lib
