import Mathlib.Data.String.Basic
import Cbt.Lib.Rows
import Cbt.Model.Client

/-! The fill of the table of accounts. The table is sorted on its first column
while it is filled: an item set in the first column of a row moves the whole row
to its sorted position, for the order of the texts the table is sorted by. The
loop addresses rows by a running number all the same. -/

namespace Cbt

open Lib (Row)
open Lib.Command (run_bind_iff run_pure_iff run_map_iff)

/-- An item of a table, an object of its own, with its text and its payload. -/
structure PayloadedItem where
  address : ℕ
  text : String
  payload : Option ℕ := none
  deriving DecidableEq, Repr

namespace AccountsTable

/-- The rows of the table. Every item in them is older than the next one made. -/
structure Table where
  rows : List (Row PayloadedItem PayloadedItem)
  next : ℕ
  below : ∀ row ∈ rows, ∀ item, row.first = some item ∨ row.second = some item → item.address < next

variable {α : Type} [LinearOrder α] (key : String → α)

namespace Table

/-- `setRowCount`. -/
def setRowCount (n : ℕ) (t : Table) : Table where
  rows := Lib.Rows.setCount n t.rows
  next := t.next
  below := by
    intro row hr item hi
    rcases List.mem_append.mp hr with hr | hr
    · exact t.below row (List.mem_of_mem_take hr) item hi
    · obtain rfl := (List.mem_replicate.mp hr).2
      simp at hi

/-- `setItem(r, 0, item)` of a new item with a payload, in a table sorted on this column. -/
def setFirst (r : ℕ) (str : String) (payload : ℕ) (t : Table) : Table where
  rows := Lib.Rows.setFirst (fun item => key item.text) r ⟨t.next, cStr str, some payload⟩ t.rows
  next := t.next + 1
  below := by
    intro row hr item hi
    rcases Lib.Rows.mem_setFirst hr with hr | ⟨row', hr', rfl⟩
    · exact Nat.lt_succ_of_lt (t.below row hr item hi)
    · rcases hi with hi | hi
      · obtain rfl := Option.some.inj hi
        exact Nat.lt_succ_self _
      · exact Nat.lt_succ_of_lt (t.below row' (List.mem_of_getElem? hr') item (.inr hi))

/-- `setItem(r, 1, item)` of a new item. -/
def setSecond (r : ℕ) (str : String) (t : Table) : Table where
  rows := Lib.Rows.setSecond r ⟨t.next, cStr str, none⟩ t.rows
  next := t.next + 1
  below := by
    intro row hr item hi
    rcases Lib.Rows.mem_setSecond hr with hr | ⟨row', hr', rfl⟩
    · exact Nat.lt_succ_of_lt (t.below row hr item hi)
    · rcases hi with hi | hi
      · exact Nat.lt_succ_of_lt (t.below row' (List.mem_of_getElem? hr') item (.inl hi))
      · obtain rfl := Option.some.inj hi
        exact Nat.lt_succ_self _

end Table

/-- The loop of `UpdateTable` from a row on; null pointers take no row. -/
def fillFrom (t : Table) (r : ℕ) : List (Option ℕ) → Cmd Table
  | [] => return t
  | none :: accs => fillFrom t r accs
  | some acc :: accs => do
    let x ← row acc
    fillFrom ((t.setFirst key r x.firstName x.payload).setSecond r x.secondName) (r + 1) accs

/-- `UpdateTable` over the accounts the table lists: a row for each entry of the list, null or not, and then the loop. -/
def fillTable (t : Table) (accs : List (Option ℕ)) : Cmd Table := fillFrom key (t.setRowCount accs.length) 0 accs

/-! ### What the loop writes -/

/-- The two new items for every account. -/
def items (next : ℕ) : List AccountRow → List (PayloadedItem × PayloadedItem)
  | [] => []
  | x :: xs => (⟨next, cStr x.firstName, some x.payload⟩, ⟨next + 1, cStr x.secondName, none⟩) :: items (next + 2) xs

/-- The loop over accounts whose names are known. -/
def Table.fill (t : Table) (r : ℕ) : List AccountRow → Table
  | [] => t
  | x :: xs => ((t.setFirst key r x.firstName x.payload).setSecond r x.secondName).fill (r + 1) xs

theorem fillFrom_eq (t : Table) (r : ℕ) (accs : List (Option ℕ)) :
    fillFrom key t r accs = t.fill key r <$> updateTable accs := by
  induction accs generalizing t r with
  | nil => simp [fillFrom, updateTable, Table.fill]
  | cons acc accs ih =>
    cases acc with
    | none => exact ih t r
    | some acc => simp [fillFrom, updateTable, ih, Table.fill]

theorem rows_fill (t : Table) (r : ℕ) (xs : List AccountRow) :
    (t.fill key r xs).rows = Lib.Rows.fill (fun item => key item.text) r (items t.next xs) t.rows := by
  induction xs generalizing t r with
  | nil => rfl
  | cons x xs ih => rw [Table.fill, ih]; rfl

@[simp] theorem length_items (next : ℕ) (xs : List AccountRow) : (items next xs).length = xs.length := by
  induction xs generalizing next with
  | nil => rfl
  | cons x xs ih => simp [items, ih]

theorem address_of_mem_items {next : ℕ} {xs : List AccountRow} {p : PayloadedItem × PayloadedItem}
    (h : p ∈ items next xs) : next ≤ p.1.address ∧ next ≤ p.2.address := by
  induction xs generalizing next with
  | nil => simp [items] at h
  | cons x xs ih =>
    rcases List.mem_cons.mp h with rfl | h
    · exact ⟨le_rfl, Nat.le_succ _⟩
    · have := ih h
      omega

/-- The items made are all different and not in the table. -/
theorem fresh_items (t : Table) (xs : List AccountRow) : Lib.Rows.Fresh (items t.next xs) t.rows := by
  constructor
  · intro p hp row hr
    obtain ⟨h₁, h₂⟩ := address_of_mem_items hp
    refine ⟨fun he => ?_, fun he => ?_⟩
    · have := t.below row hr _ (.inl he)
      omega
    · have := t.below row hr _ (.inr he)
      omega
  · generalize t.next = next
    induction xs generalizing next with
    | nil => exact .nil
    | cons x xs ih =>
      refine .cons (fun q hq => ?_) (ih _)
      obtain ⟨h₁, h₂⟩ := address_of_mem_items hq
      refine ⟨fun he => ?_, fun he => ?_⟩
      · rw [he] at h₁
        simp at h₁
      · rw [he] at h₂
        simp at h₂

/-! ### When the rows are right -/

/-- Every account has one row, with the items of its two names and itself as the payload, and no other row is filled. -/
def Table.Pairs (t t' : Table) (xs : List AccountRow) : Prop := Lib.Rows.Pairs (items t.next xs) t'.rows

/-- The first names ascend strictly, none comes after a first name the table shows in a later row of those it keeps, and
the table shows nothing in those behind the accounts. -/
structure Table.Fits (t : Table) (n : ℕ) (xs : List AccountRow) : Prop where
  ascend : xs.Pairwise fun x x' => key (cStr x.firstName) < key (cStr x'.firstName)
  kept : ∀ (i j : ℕ) (x : AccountRow) (old : Row PayloadedItem PayloadedItem) (item : PayloadedItem), i < j →
    xs[i]? = some x → (t.rows.take n)[j]? = some old → old.first = some item → key (cStr x.firstName) ≤ key item.text
  empty : ∀ old ∈ (t.rows.take n).drop xs.length, old.isEmpty

theorem getElem?_items (next i : ℕ) (xs : List AccountRow) :
    ((items next xs)[i]?.map fun p => (p.1.text, p.1.payload, p.2.text)) =
      xs[i]?.map fun x => (cStr x.firstName, some x.payload, cStr x.secondName) := by
  induction xs generalizing next i with
  | nil => rfl
  | cons x xs ih =>
    cases i with
    | zero => rfl
    | succ i => simpa [items] using ih (next + 2) i

theorem pairwise_items {next : ℕ} {xs : List AccountRow} {r : String → String → Prop} :
    ((items next xs).Pairwise fun p q => r p.1.text q.1.text) ↔
      xs.Pairwise fun x x' => r (cStr x.firstName) (cStr x'.firstName) := by
  have he : ∀ next, (items next xs).map (fun p => p.1.text) = xs.map fun x => cStr x.firstName := by
    induction xs with
    | nil => exact fun _ => rfl
    | cons x xs ih => exact fun next => by simp [items, ih]
  have h₁ := (List.pairwise_map (R := r) (f := fun p : PayloadedItem × PayloadedItem => p.1.text) (l := items next xs)).symm
  rw [h₁, he, List.pairwise_map]

/-- What is filled into a table is right exactly when it fits. -/
theorem pairs_fill_iff {t : Table} {n : ℕ} {xs : List AccountRow} (hn : xs.length ≤ n) :
    t.Pairs ((t.setRowCount n).fill key 0 xs) xs ↔ t.Fits key n xs := by
  have hf : Lib.Rows.Fresh (items t.next xs) (t.setRowCount n).rows := fresh_items (t.setRowCount n) xs
  have hl : (items t.next xs).length ≤ (t.setRowCount n).rows.length := by simpa [Table.setRowCount] using hn
  rw [Table.Pairs, rows_fill]
  refine (Lib.Rows.pairs_fill_iff hl hf).trans ?_
  rw [Lib.Rows.ascends_iff, pairwise_items (r := fun s s' => key s < key s'), length_items, Table.setRowCount,
    Lib.Rows.empty_drop_setCount]
  constructor
  · rintro ⟨⟨ha, hk⟩, he⟩
    refine ⟨ha, fun i j x old item hij hx ho hi => ?_, he⟩
    have hmap := getElem?_items t.next i xs
    rw [hx] at hmap
    obtain ⟨p, hp, hpe⟩ := Option.map_eq_some_iff.mp hmap
    rw [← (Prod.mk.inj hpe).1]
    exact hk i j p old item hij hp (Lib.Rows.getElem?_setCount_of_take ho) hi
  · rintro ⟨ha, hk, he⟩
    refine ⟨⟨ha, fun i j p old item hij hp ho hi => ?_⟩, he⟩
    have hmap := getElem?_items t.next i xs
    rw [hp] at hmap
    obtain ⟨x, hx, hxe⟩ := Option.map_eq_some_iff.mp hmap.symm
    rw [← (Prod.mk.inj hxe).1]
    rcases Lib.Rows.getElem?_setCount ho with ho | rfl
    · exact hk i j x old item hij hx ho hi
    · cases hi

/-! ### What the program fills -/

theorem payload_row {acc : ℕ} {x : AccountRow} {w w' : World} (h : run (row acc) w = .ok (x, w')) : x.payload = acc := by
  simp only [row, run_bind_iff] at h
  obtain ⟨info, w₁, -, t, w₂, -, h⟩ := h
  cases t <;> simp only [run_bind_iff, run_pure_iff] at h
  · obtain ⟨b, w₃, -, rfl, -⟩ := h
    rfl
  · obtain ⟨p, w₃, -, b, w₄, -, rfl, -⟩ := h
    rfl
  · obtain ⟨p, w₃, -, b, w₄, -, rfl, -⟩ := h
    rfl

/-- A row for each account that is not null, in order. -/
theorem payload_updateTable {accs : List (Option ℕ)} {xs : List AccountRow} {w w' : World}
    (h : run (updateTable accs) w = .ok (xs, w')) : xs.map (·.payload) = accs.filterMap id := by
  induction accs generalizing xs w with
  | nil =>
    obtain ⟨rfl, -⟩ := (run_pure_iff _).mp h
    rfl
  | cons acc accs ih =>
    cases acc with
    | none => exact ih h
    | some acc =>
      simp only [updateTable, run_bind_iff, run_pure_iff] at h
      obtain ⟨x, w₁, h₁, xs', w₂, h₂, rfl, rfl⟩ := h
      simp [payload_row h₁, ih h₂]

/-- After `UpdateTable` over accounts whose names can be read, every account that is not null has one row with its own
two names and itself as the payload, and no other row is filled, exactly when the accounts fit. -/
theorem fillTable_pairs_iff (t : Table) {accs : List (Option ℕ)} {xs : List AccountRow} {w w' : World}
    (h : run (updateTable accs) w = .ok (xs, w')) : xs.map (·.payload) = accs.filterMap id ∧
      ∃ t', run (fillTable key t accs) w = .ok (t', w') ∧ (t.Pairs t' xs ↔ t.Fits key accs.length xs) := by
  have hp := payload_updateTable h
  have hl : xs.length ≤ accs.length := by
    rw [← List.length_map (f := fun x : AccountRow => x.payload), hp]
    exact List.length_filterMap_le _ _
  refine ⟨hp, (t.setRowCount accs.length).fill key 0 xs, ?_, pairs_fill_iff key hl⟩
  rw [fillTable, fillFrom_eq]
  exact (run_map_iff _).mpr ⟨xs, h, rfl⟩

/-- A table without rows. -/
def Table.empty : Table := ⟨[], 0, by simp⟩

/-- Two administrators. -/
def twoAdmins : Database :=
  (Database.empty.insert .accounts [("Login", .string "first"), ("Password", .string "password"),
    ("AccountType", .int32 0), ("AdditionalInfo", nullValue)]).insert .accounts [("Login", .string "second"),
    ("Password", .string "password"), ("AccountType", .int32 0), ("AdditionalInfo", nullValue)]

/-- Two teachers. -/
def twoTeachers : Database :=
  let teacher (name : String) : Doc := [("FirstName", .string name), ("SecondName", .string "teacher"), ("Owner", nullValue),
    ("Faculty", .string "faculty"), ("LessonsTypes", .array [])]
  let account (login : String) (info : Oid) : Doc :=
    [("Login", .string login), ("Password", .string "password"), ("AccountType", .int32 1), ("AdditionalInfo", .oid info)]
  (((Database.empty.insert .infos (teacher "first")).insert .infos (teacher "second")).insert .accounts (account "one" 0)).insert
    .accounts (account "two" 1)

/-- A table that shows two other accounts. -/
def Table.shown : Table :=
  ⟨[.pair (⟨0, "other", some 5⟩, ⟨1, "teacher", none⟩), .pair (⟨2, "third", some 6⟩, ⟨3, "teacher", none⟩)], 4, by
    simp only [List.forall_mem_cons, Row.pair, Option.some.injEq]
    refine ⟨?_, ?_, by simp⟩ <;> rintro item (rfl | rfl) <;> decide⟩

/-- Two teachers and a null pointer, over the rows of two others. -/
theorem pairs_of_two_accounts : ∃ w xs w' t', run (updateTable [some 0, none, some 1]) w = .ok (xs, w') ∧
    xs = [⟨0, "first", "teacher"⟩, ⟨1, "second", "teacher"⟩] ∧
      run (fillTable id .shown [some 0, none, some 1]) w = .ok (t', w') ∧ Table.shown.Pairs t' xs := by
  have hplay : ((Action.getAll .accounts).next? (World.start twoTeachers)).any (fun w =>
      (yields (updateTable [some 0, none, some 1]) w).any fun r =>
        r.1 = [⟨0, "first", "teacher"⟩, ⟨1, "second", "teacher"⟩]) = true := by decide
  obtain ⟨w, -, h⟩ := Option.any_eq_true .. |>.mp hplay
  obtain ⟨⟨xs, w'⟩, hy, hxs⟩ := Option.any_eq_true .. |>.mp h
  obtain rfl : xs = [⟨0, "first", "teacher"⟩, ⟨1, "second", "teacher"⟩] := of_decide_eq_true hxs
  obtain ⟨-, t', ht, hiff⟩ := fillTable_pairs_iff id .shown (run_of_yields hy)
  refine ⟨w, _, w', t', run_of_yields hy, rfl, ht, hiff.mpr ⟨?_, ?_, by simp [Table.shown]⟩⟩
  · refine .cons ?_ (.cons (by simp) .nil)
    rw [List.forall_mem_singleton, id, id, String.lt_iff_toList_lt]
    decide
  · -- only the second row of the old table is behind an account
    rintro (_ | _ | i) (_ | _ | j) x old item hij hx ho hi <;> simp [Table.shown, Row.pair] at hij hx ho hi
    subst hx ho
    obtain rfl := Option.some.inj hi
    rw [id, id, String.le_iff_toList_le]
    decide

/-- Two administrators have the same text in the first column, and the second one's row moves before the first one's. -/
theorem not_pairs_of_every_list : ¬ ∀ (key : String → String) (t t' : Table) accs xs w w',
    run (updateTable accs) w = .ok (xs, w') → run (fillTable key t accs) w = .ok (t', w') → t.Pairs t' xs := by
  intro h
  have hplay : ((Action.getAll .accounts).next? (World.start twoAdmins)).any (fun w =>
      (yields (updateTable [some 0, some 1]) w).any fun r => r.1.map (·.firstName) = ["ADMIN", "ADMIN"]) = true := by decide
  obtain ⟨w, -, hr⟩ := Option.any_eq_true .. |>.mp hplay
  obtain ⟨⟨xs, w'⟩, hy, hnames⟩ := Option.any_eq_true .. |>.mp hr
  have hnames : xs.map (·.firstName) = ["ADMIN", "ADMIN"] := of_decide_eq_true hnames
  have hu := run_of_yields hy
  have hl : xs.length ≤ 2 := by simpa using (congrArg List.length hnames).le
  have hrun : run (fillTable id .empty [some 0, some 1]) w = .ok ((Table.empty.setRowCount 2).fill id 0 xs, w') := by
    rw [fillTable, fillFrom_eq]
    exact (run_map_iff _).mpr ⟨xs, hu, rfl⟩
  have hfits := (pairs_fill_iff id hl).mp (h id .empty _ _ xs w w' hu hrun)
  have hasc : (xs.map (·.firstName)).Pairwise fun s s' => cStr s < cStr s' := List.pairwise_map.mpr hfits.ascend
  rw [hnames] at hasc
  exact lt_irrefl _ ((List.pairwise_cons.mp hasc).1 "ADMIN" (by simp))

end AccountsTable

end Cbt
