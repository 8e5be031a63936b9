import Cbt.Model.Entity

/-! One process of the program: its heap of entity objects and, for each of the
four controllers, the list `Cash` of cached objects and the flag `IsChanged`.
A world is a process together with the database. The functions of the program
are commands over a world; a command that meets undefined behaviour or throws
has no world after it. -/

namespace Cbt

structure ControllerState where
  cash : List ℕ := []
  isChanged : Bool := true
  deriving DecidableEq, Repr

structure Process where
  heap : Memory
  ctl : Kind → ControllerState

/-- A process that has just started. -/
def Process.init : Process := ⟨Lib.Heap.empty, fun _ => {}⟩

abbrev World := Lib.Conf Database Process

abbrev Cmd (α : Type) := Lib.Command Process Call Call.Answer Fault α

abbrev run {α : Type} (m : Cmd α) (w : World) : Except Fault (α × World) :=
  Lib.Command.run Database.serve m w

open Lib.Command (run_bind_iff fault call ofExcept)

/-! ### Reading and changing a world -/

namespace Lib.Conf

def heap (w : Conf Database Process) : Memory := w.mem.heap
def cash (w : Conf Database Process) (k : Kind) : List ℕ := (w.mem.ctl k).cash
def isChanged (w : Conf Database Process) (k : Kind) : Bool := (w.mem.ctl k).isChanged
def stored (w : Conf Database Process) (k : Kind) (o : Oid) : Option Doc := w.env.get? k o

def setHeap (w : Conf Database Process) (h : Memory) : Conf Database Process := ⟨w.env, ⟨h, w.mem.ctl⟩⟩

/-- Overwrite an object. -/
def put (w : Conf Database Process) (p : ℕ) (o : Obj) : Conf Database Process := w.setHeap (w.heap.set p o)

/-- Allocate an object. -/
def push (w : Conf Database Process) (o : Obj) : Conf Database Process := w.setHeap (w.heap.push o)

def free (w : Conf Database Process) (p : ℕ) : Conf Database Process := w.setHeap (w.heap.free p)

def setCash (w : Conf Database Process) (k : Kind) (l : List ℕ) : Conf Database Process :=
  ⟨w.env, ⟨w.mem.heap, Function.update w.mem.ctl k { w.mem.ctl k with cash := l }⟩⟩

def setChanged (w : Conf Database Process) (k : Kind) (b : Bool) : Conf Database Process :=
  ⟨w.env, ⟨w.mem.heap, Function.update w.mem.ctl k { w.mem.ctl k with isChanged := b }⟩⟩

def setEnv (w : Conf Database Process) (db : Database) : Conf Database Process := ⟨db, w.mem⟩

section
variable (w : Conf Database Process)

@[simp] theorem env_setHeap (h : Memory) : (w.setHeap h).env = w.env := rfl
@[simp] theorem env_put (p : ℕ) (o : Obj) : (w.put p o).env = w.env := rfl
@[simp] theorem env_push (o : Obj) : (w.push o).env = w.env := rfl
@[simp] theorem env_free (p : ℕ) : (w.free p).env = w.env := rfl
@[simp] theorem env_setCash (k : Kind) (l : List ℕ) : (w.setCash k l).env = w.env := rfl
@[simp] theorem env_setChanged (k : Kind) (b : Bool) : (w.setChanged k b).env = w.env := rfl
@[simp] theorem env_setEnv (db : Database) : (w.setEnv db).env = db := rfl

@[simp] theorem heap_put (p : ℕ) (o : Obj) : (w.put p o).heap = w.heap.set p o := rfl
@[simp] theorem heap_push (o : Obj) : (w.push o).heap = w.heap.push o := rfl
@[simp] theorem heap_free (p : ℕ) : (w.free p).heap = w.heap.free p := rfl
@[simp] theorem heap_setCash (k : Kind) (l : List ℕ) : (w.setCash k l).heap = w.heap := rfl
@[simp] theorem heap_setChanged (k : Kind) (b : Bool) : (w.setChanged k b).heap = w.heap := rfl
@[simp] theorem heap_setEnv (db : Database) : (w.setEnv db).heap = w.heap := rfl

@[simp] theorem cash_put (p : ℕ) (o : Obj) : (w.put p o).cash = w.cash := rfl
@[simp] theorem cash_push (o : Obj) : (w.push o).cash = w.cash := rfl
@[simp] theorem cash_free (p : ℕ) : (w.free p).cash = w.cash := rfl
@[simp] theorem cash_setEnv (db : Database) : (w.setEnv db).cash = w.cash := rfl

theorem cash_setCash (k : Kind) (l : List ℕ) (k' : Kind) :
    (w.setCash k l).cash k' = if k' = k then l else w.cash k' := by
  by_cases h : k' = k
  · subst h; simp [cash, setCash]
  · simp [cash, setCash, h]

@[simp] theorem cash_setCash_self (k : Kind) (l : List ℕ) : (w.setCash k l).cash k = l := by simp [cash_setCash]

@[simp] theorem cash_setChanged (k : Kind) (b : Bool) : (w.setChanged k b).cash = w.cash := by
  funext k'
  by_cases h : k' = k
  · subst h; simp [cash, setChanged]
  · simp [cash, setChanged, h]

theorem get_put {w : Conf Database Process} {p : ℕ} {o o' : Obj} (hp : w.heap.get p = some o) (q : ℕ) :
    (w.put p o').heap.get q = if q = p then some o' else w.heap.get q := by
  rw [heap_put, Heap.get_set _ hp]

@[simp] theorem isChanged_put (p : ℕ) (o : Obj) : (w.put p o).isChanged = w.isChanged := rfl
@[simp] theorem isChanged_push (o : Obj) : (w.push o).isChanged = w.isChanged := rfl
@[simp] theorem isChanged_free (p : ℕ) : (w.free p).isChanged = w.isChanged := rfl
@[simp] theorem isChanged_setEnv (db : Database) : (w.setEnv db).isChanged = w.isChanged := rfl

@[simp] theorem isChanged_setCash (k : Kind) (l : List ℕ) : (w.setCash k l).isChanged = w.isChanged := by
  funext k'
  by_cases h : k' = k
  · subst h; simp [isChanged, setCash]
  · simp [isChanged, setCash, h]

theorem isChanged_setChanged (k : Kind) (b : Bool) (k' : Kind) :
    (w.setChanged k b).isChanged k' = if k' = k then b else w.isChanged k' := by
  by_cases h : k' = k
  · subst h; simp [isChanged, setChanged]
  · simp [isChanged, setChanged, h]

@[simp] theorem stored_put (p : ℕ) (o : Obj) : (w.put p o).stored = w.stored := rfl
@[simp] theorem stored_push (o : Obj) : (w.push o).stored = w.stored := rfl
@[simp] theorem stored_free (p : ℕ) : (w.free p).stored = w.stored := rfl
@[simp] theorem stored_setCash (k : Kind) (l : List ℕ) : (w.setCash k l).stored = w.stored := rfl
@[simp] theorem stored_setChanged (k : Kind) (b : Bool) : (w.setChanged k b).stored = w.stored := rfl
@[simp] theorem stored_setEnv (db : Database) : (w.setEnv db).stored = db.get? := rfl

end

end Lib.Conf

/-! ### Commands on memory -/

/-- Dereference a pointer to an object. -/
def obj (p : ℕ) : Cmd Obj := do
  match (← get).heap.get p with
  | none => fault .freedObject
  | some o => pure o

/-- `->` through a pointer variable. -/
def deref : Pointer → Cmd ℕ
  | .uninit => fault .uninitPointer
  | .null => fault .nullPointer
  | .to p => pure p

def setObj (p : ℕ) (o : Obj) : Cmd Unit := modify fun m => { m with heap := m.heap.set p o }

def newObj (o : Obj) : Cmd ℕ := do
  let m ← get
  set { m with heap := m.heap.push o }
  return m.heap.next

/-- `delete`. An info is deleted through a base without a virtual destructor, which is formally undefined; the base
is at the start of the object, and the object is freed. -/
def destroy (p : ℕ) : Cmd Unit := do
  let _ ← obj p
  modify fun m => { m with heap := m.heap.free p }

def cash (k : Kind) : Cmd (List ℕ) := do return ((← get).ctl k).cash

def setCash (k : Kind) (l : List ℕ) : Cmd Unit :=
  modify fun m => { m with ctl := Function.update m.ctl k { m.ctl k with cash := l } }

def isChanged (k : Kind) : Cmd Bool := do return ((← get).ctl k).isChanged

def setChanged (k : Kind) (b : Bool) : Cmd Unit :=
  modify fun m => { m with ctl := Function.update m.ctl k { m.ctl k with isChanged := b } }

/-- The part of an object that came from the database. -/
def fromDB (p : ℕ) : Cmd IFromDB := do ofExcept (header (← get).heap p)

def modifyFromDB (p : ℕ) (f : IFromDB → IFromDB) : Cmd Unit := do
  let o ← obj p
  let b ← fromDB p
  setObj p { o with fromDB := some (f b) }

def IFromDB.own (n : ℤ) (b : IFromDB) : IFromDB := { b with ownedCount := b.ownedCount + n }

/-- `OwnedCount++` and `OwnedCount--`. -/
def own (p : ℕ) (n : ℤ) : Cmd Unit := modifyFromDB p (IFromDB.own n)

def toDoc (p : ℕ) : Cmd Doc := do
  let o ← obj p
  ofExcept (o.toDoc (← get).heap)

/-- `new DBType(doc)`. -/
def construct (c : DBClass) (d : Doc) : Cmd ℕ := do newObj (← ofExcept (c.ofDoc d))

/-! ### Collection calls -/

def find (k : Kind) (filter : Doc) : Cmd (List Doc) := call (Call.find k filter)
def findOne (k : Kind) (filter : Doc) : Cmd (Option Doc) := call (Call.findOne k filter)
def insertOne (k : Kind) (d : Doc) : Cmd (Option Oid) := call (Call.insertOne k d)
def replaceOne (k : Kind) (o : Oid) (d : Doc) : Cmd (Option ℕ) := call (Call.replaceOne k o d)
def deleteOne (k : Kind) (o : Oid) : Cmd (Option ℕ) := call (Call.deleteOne k o)

/-- `value()` of an optional. -/
def value {α : Type} : Option α → Cmd α
  | none => fault .noValue
  | some a => pure a

section Runs
variable {w w' : World}

@[simp] theorem run_obj_iff {p : ℕ} {o : Obj} : run (obj p) w = .ok (o, w') ↔ w.heap.get p = some o ∧ w = w' := by
  simp only [obj, run_bind_iff, Lib.Command.run_get_iff, Lib.Conf.heap]
  constructor
  · rintro ⟨_, _, ⟨rfl, rfl⟩, h⟩
    split at h
    · exact ((Lib.Command.run_fault_iff _).mp h).elim
    · rename_i o' ho
      obtain ⟨rfl, rfl⟩ := (Lib.Command.run_pure_iff _).mp h
      exact ⟨ho, rfl⟩
  · rintro ⟨ho, rfl⟩
    exact ⟨w.mem, w, ⟨rfl, rfl⟩, by rw [ho]; simp⟩

@[simp] theorem run_deref_iff {v : Pointer} {p : ℕ} : run (deref v) w = .ok (p, w') ↔ v = .to p ∧ w = w' := by
  cases v <;> simp [deref]

@[simp] theorem run_setObj_iff {p : ℕ} {o : Obj} {u : Unit} : run (setObj p o) w = .ok (u, w') ↔ w.put p o = w' := by
  simp only [setObj, Lib.Command.run_modify_iff]; rfl

@[simp] theorem run_newObj_iff {p : ℕ} {o : Obj} :
    run (newObj o) w = .ok (p, w') ↔ w.heap.next = p ∧ w.push o = w' := by
  simp only [newObj, run_bind_iff, Lib.Command.run_get_iff, Lib.Command.run_set_iff, Lib.Command.run_pure_iff]
  constructor
  · rintro ⟨_, _, ⟨rfl, rfl⟩, _, _, rfl, rfl, rfl⟩; exact ⟨rfl, rfl⟩
  · rintro ⟨rfl, rfl⟩; exact ⟨_, _, ⟨rfl, rfl⟩, ⟨⟩, _, rfl, rfl, rfl⟩

@[simp] theorem run_destroy_iff {p : ℕ} {u : Unit} :
    run (destroy p) w = .ok (u, w') ↔ (∃ o, w.heap.get p = some o) ∧ w.free p = w' := by
  simp only [destroy, run_bind_iff, run_obj_iff, Lib.Command.run_modify_iff]
  constructor
  · rintro ⟨o, _, ⟨ho, rfl⟩, rfl⟩; exact ⟨⟨o, ho⟩, rfl⟩
  · rintro ⟨⟨o, ho⟩, rfl⟩; exact ⟨o, w, ⟨ho, rfl⟩, rfl⟩

@[simp] theorem run_cash_iff {k : Kind} {l : List ℕ} : run (cash k) w = .ok (l, w') ↔ w.cash k = l ∧ w = w' := by
  simp only [cash, run_bind_iff, Lib.Command.run_get_iff, Lib.Command.run_pure_iff]
  constructor
  · rintro ⟨_, _, ⟨rfl, rfl⟩, rfl, rfl⟩; exact ⟨rfl, rfl⟩
  · rintro ⟨rfl, rfl⟩; exact ⟨_, _, ⟨rfl, rfl⟩, rfl, rfl⟩

@[simp] theorem run_setCash_iff {k : Kind} {l : List ℕ} {u : Unit} :
    run (setCash k l) w = .ok (u, w') ↔ w.setCash k l = w' := by
  simp only [setCash, Lib.Command.run_modify_iff]; rfl

@[simp] theorem run_isChanged_iff {k : Kind} {b : Bool} :
    run (isChanged k) w = .ok (b, w') ↔ w.isChanged k = b ∧ w = w' := by
  simp only [isChanged, run_bind_iff, Lib.Command.run_get_iff, Lib.Command.run_pure_iff]
  constructor
  · rintro ⟨_, _, ⟨rfl, rfl⟩, rfl, rfl⟩; exact ⟨rfl, rfl⟩
  · rintro ⟨rfl, rfl⟩; exact ⟨_, _, ⟨rfl, rfl⟩, rfl, rfl⟩

@[simp] theorem run_setChanged_iff {k : Kind} {b : Bool} {u : Unit} :
    run (setChanged k b) w = .ok (u, w') ↔ w.setChanged k b = w' := by
  simp only [setChanged, Lib.Command.run_modify_iff]; rfl

@[simp] theorem run_fromDB_iff {p : ℕ} {b : IFromDB} :
    run (fromDB p) w = .ok (b, w') ↔ header w.heap p = .ok b ∧ w = w' := by
  simp only [fromDB, run_bind_iff, Lib.Command.run_get_iff, Lib.Command.run_ofExcept_iff]
  constructor
  · rintro ⟨_, _, ⟨rfl, rfl⟩, h, rfl⟩; exact ⟨h, rfl⟩
  · rintro ⟨h, rfl⟩; exact ⟨_, _, ⟨rfl, rfl⟩, h, rfl⟩

theorem header_eq_ok {h : Memory} {p : ℕ} {b : IFromDB} :
    header h p = .ok b ↔ ∃ x, h.get p = some ⟨some b, x⟩ := by
  unfold header
  rcases h.get p with _ | ⟨_ | b', x⟩ <;> simp

@[simp] theorem run_modifyFromDB_iff {p : ℕ} {f : IFromDB → IFromDB} {u : Unit} :
    run (modifyFromDB p f) w = .ok (u, w') ↔
      ∃ b x, w.heap.get p = some ⟨some b, x⟩ ∧ w.put p ⟨some (f b), x⟩ = w' := by
  simp only [modifyFromDB, run_bind_iff, run_obj_iff, run_fromDB_iff, run_setObj_iff]
  constructor
  · rintro ⟨o, _, ⟨ho, rfl⟩, b, _, ⟨hb, rfl⟩, rfl⟩
    obtain ⟨x, hx⟩ := header_eq_ok.mp hb
    rw [ho, Option.some.injEq] at hx
    subst hx
    exact ⟨b, x, ho, rfl⟩
  · rintro ⟨b, x, h, rfl⟩
    exact ⟨_, _, ⟨h, rfl⟩, b, _, ⟨header_eq_ok.mpr ⟨x, h⟩, rfl⟩, rfl⟩

@[simp] theorem run_own_iff {p : ℕ} {n : ℤ} {u : Unit} :
    run (own p n) w = .ok (u, w') ↔
      ∃ b x, w.heap.get p = some ⟨some b, x⟩ ∧ w.put p ⟨some (b.own n), x⟩ = w' :=
  run_modifyFromDB_iff

@[simp] theorem run_toDoc_iff {p : ℕ} {d : Doc} :
    run (toDoc p) w = .ok (d, w') ↔ (∃ o, w.heap.get p = some o ∧ o.toDoc w.heap = .ok d) ∧ w = w' := by
  simp only [toDoc, run_bind_iff, run_obj_iff, Lib.Command.run_get_iff, Lib.Command.run_ofExcept_iff]
  constructor
  · rintro ⟨o, _, ⟨ho, rfl⟩, _, _, ⟨rfl, rfl⟩, hd, rfl⟩; exact ⟨⟨o, ho, hd⟩, rfl⟩
  · rintro ⟨⟨o, ho, hd⟩, rfl⟩; exact ⟨o, w, ⟨ho, rfl⟩, _, _, ⟨rfl, rfl⟩, hd, rfl⟩

@[simp] theorem run_construct_iff {c : DBClass} {d : Doc} {p : ℕ} :
    run (construct c d) w = .ok (p, w') ↔ ∃ o, c.ofDoc d = .ok o ∧ w.heap.next = p ∧ w.push o = w' := by
  simp only [construct, run_bind_iff, Lib.Command.run_ofExcept_iff, run_newObj_iff]
  constructor
  · rintro ⟨o, _, ⟨ho, rfl⟩, h⟩; exact ⟨o, ho, h⟩
  · rintro ⟨o, ho, h⟩; exact ⟨o, w, ⟨ho, rfl⟩, h⟩

@[simp] theorem run_find_iff {k : Kind} {filter : Doc} {ds : List Doc} :
    run (find k filter) w = .ok (ds, w') ↔ (w.env.coll k).docs.filter (Doc.fits filter) = ds ∧ w = w' := by
  simp only [find, Lib.Command.run_call_iff, Database.serve, Except.ok.injEq, Prod.mk.injEq]
  constructor
  · rintro ⟨_, ⟨rfl, rfl⟩, rfl⟩; exact ⟨rfl, rfl⟩
  · rintro ⟨rfl, rfl⟩; exact ⟨_, ⟨rfl, rfl⟩, rfl⟩

theorem run_findOne_iff {k : Kind} {filter : Doc} {r : Option Doc} :
    run (findOne k filter) w = .ok (r, w') ↔ (w.env.coll k).docs.find? (Doc.fits filter) = r ∧ w = w' := by
  simp only [findOne, Lib.Command.run_call_iff, Database.serve, Except.ok.injEq, Prod.mk.injEq]
  constructor
  · rintro ⟨_, ⟨rfl, rfl⟩, rfl⟩; exact ⟨rfl, rfl⟩
  · rintro ⟨rfl, rfl⟩; exact ⟨_, ⟨rfl, rfl⟩, rfl⟩

@[simp] theorem run_findOne_byId_iff {k : Kind} {o : Oid} {r : Option Doc} :
    run (findOne k (Doc.byId o)) w = .ok (r, w') ↔ w.stored k o = r ∧ w = w' := by
  rw [run_findOne_iff, Collection.find?_byId]; rfl

@[simp] theorem run_insertOne_iff {k : Kind} {d : Doc} {r : Option Oid} :
    run (insertOne k d) w = .ok (r, w') ↔
      d.get? "_id" = none ∧ some w.env.nextOid = r ∧ w.setEnv (w.env.insert k d) = w' := by
  simp only [insertOne, Lib.Command.run_call_iff, Database.serve]
  cases d.get? "_id" with
  | some v => simp
  | none =>
    simp only [Except.ok.injEq, Prod.mk.injEq, true_and]
    constructor
    · rintro ⟨_, ⟨rfl, rfl⟩, rfl⟩; exact ⟨rfl, rfl⟩
    · rintro ⟨rfl, rfl⟩; exact ⟨_, ⟨rfl, rfl⟩, rfl⟩

@[simp] theorem run_replaceOne_iff {k : Kind} {o : Oid} {d : Doc} {r : Option ℕ} :
    run (replaceOne k o d) w = .ok (r, w') ↔
      (w.stored k o = none ∧ some 0 = r ∧ w = w') ∨
      (∃ h, (w.stored k o).isSome ∧ some 1 = r ∧ w.setEnv (w.env.replace k o d h) = w') := by
  simp only [replaceOne, Lib.Command.run_call_iff, Database.serve, Lib.Conf.stored]
  cases w.env.get? k o with
  | none =>
    simp only [Except.ok.injEq, Prod.mk.injEq, true_and, Option.isSome_none, Bool.false_eq_true, false_and,
      exists_false, or_false]
    constructor
    · rintro ⟨_, ⟨rfl, rfl⟩, rfl⟩; exact ⟨rfl, rfl⟩
    · rintro ⟨rfl, rfl⟩; exact ⟨_, ⟨rfl, rfl⟩, rfl⟩
  | some d₀ =>
    by_cases h : d.get? "_id" = some (.oid o)
    · simp only [h, dif_pos, Except.ok.injEq, Prod.mk.injEq, reduceCtorEq, false_and, Option.isSome_some, true_and,
        false_or, exists_true_left]
      constructor
      · rintro ⟨_, ⟨rfl, rfl⟩, rfl⟩; exact ⟨rfl, rfl⟩
      · rintro ⟨rfl, rfl⟩; exact ⟨_, ⟨rfl, rfl⟩, rfl⟩
    · simp [h]

@[simp] theorem run_deleteOne_iff {k : Kind} {o : Oid} {r : Option ℕ} :
    run (deleteOne k o) w = .ok (r, w') ↔
      (w.stored k o = none ∧ some 0 = r ∧ w = w') ∨
      ((w.stored k o).isSome ∧ some 1 = r ∧ w.setEnv (w.env.erase k o) = w') := by
  simp only [deleteOne, Lib.Command.run_call_iff, Database.serve, Lib.Conf.stored]
  cases w.env.get? k o with
  | none =>
    simp only [Except.ok.injEq, Prod.mk.injEq, true_and, Option.isSome_none, Bool.false_eq_true, false_and, or_false]
    constructor
    · rintro ⟨_, ⟨rfl, rfl⟩, rfl⟩; exact ⟨rfl, rfl⟩
    · rintro ⟨rfl, rfl⟩; exact ⟨_, ⟨rfl, rfl⟩, rfl⟩
  | some d₀ =>
    simp only [Except.ok.injEq, Prod.mk.injEq, reduceCtorEq, false_and, Option.isSome_some, true_and, false_or]
    constructor
    · rintro ⟨_, ⟨rfl, rfl⟩, rfl⟩; exact ⟨rfl, rfl⟩
    · rintro ⟨rfl, rfl⟩; exact ⟨_, ⟨rfl, rfl⟩, rfl⟩

@[simp] theorem run_value_iff {α : Type} {x : Option α} {a : α} :
    run (value x) w = .ok (a, w') ↔ x = some a ∧ w = w' := by
  cases x <;> simp [value]

end Runs

end Cbt
