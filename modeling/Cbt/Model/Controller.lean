import Cbt.Model.Process

/-! The controller template: one cache of objects per collection. A look-up scans
the cache first, a listing reuses the cached objects, and a write goes through
the whole document an object describes. The template is one definition for all
four collections; the collection says which class its documents become. -/

namespace Cbt

open Lib.Command (fault ofExcept)

/-- `DBType` of the controller of a collection. -/
def Kind.dbClass : Kind → DBClass
  | .accounts => .accountDB
  | .groups => .groupDB
  | .infos => .additionalInfoDB
  | .schedules => .scheduleDB

/-- The controller whose parameter types a class has. -/
def Fields.kind : Fields → Kind
  | .account _ => .accounts
  | .group _ => .groups
  | .additionalInfo | .student _ | .teacher _ => .infos
  | .schedule _ => .schedules

namespace Controller

/-- `Cash.push_back`. -/
def pushBack (k : Kind) (p : ℕ) : Cmd Unit := do setCash k ((← cash k) ++ [p])

/-- `Cash.remove`: every element equal to the pointer goes. -/
def remove (k : Kind) (p : ℕ) : Cmd Unit := do setCash k ((← cash k).filter (· ≠ p))

/-- The loop of `IsAlredyInCash` from an element on. After the element under the iterator was
removed, the iterator cannot be advanced. -/
def scan (k : Kind) (oid : Oid) : List ℕ → Cmd (Option ℕ)
  | [] => return none
  | p :: rest => do
    let b ← fromDB p
    if b.isExist = false then
      own p (-1)
      if (← fromDB p).ownedCount = 0 then
        remove k p
        fault .erasedIterator
      else scan k oid rest
    else if b.id = oid then return some p
    else scan k oid rest

def isAlredyInCash (k : Kind) (oid : Oid) : Cmd (Option ℕ) := do scan k oid (← cash k)

/-- Both `GetFromDB`: the cached object, else none without a document, else what is built from it. -/
def lookUp (k : Kind) (oid : Oid) (build : Doc → Cmd (Option ℕ)) : Cmd (Option ℕ) := do
  match ← isAlredyInCash k oid with
  | some res => return some res
  | none =>
    match ← findOne k (Doc.byId oid) with
    | none => return none
    | some qeRes => build qeRes

def getFromDB (k : Kind) (oid : Oid) : Cmd (Option ℕ) :=
  lookUp k oid fun qeRes => do
    let acc ← construct k.dbClass qeRes
    pushBack k acc
    own acc 1
    return some acc

/-- The loop of the listings: a document that is admitted gives the cached object of its `_id`, or a
new one, which is cached and, in some listings, counted. -/
def collect (k : Kind) (keep : Doc → Except Fault Bool) (counted : Bool) : List Doc → Cmd (List ℕ)
  | [] => return []
  | doc :: docs => do
    if ← ofExcept (keep doc) then
      match ← isAlredyInCash k (← ofExcept (doc.getOid "_id")) with
      | some inst => return inst :: (← collect k keep counted docs)
      | none =>
        let inst ← construct k.dbClass doc
        pushBack k inst
        if counted then own inst 1
        return inst :: (← collect k keep counted docs)
    else collect k keep counted docs

/-- The documents `GetAll` lists: all of them, but for infos only those whose `Owner` is an id. -/
def admits : Kind → Doc → Except Fault Bool
  | .infos, doc => do return (← doc.elem "Owner").isOid
  | _, _ => .ok true

def getAll (k : Kind) : Cmd (List ℕ) := do
  if (← isChanged k) = false then cash k
  else
    let qres ← find k []
    let res ← collect k (admits k) false qres
    setChanged k false
    return res

/-- The document of a plain object of the controller's `WriteType`. -/
def elementDoc (k : Kind) (element : ℕ) : Cmd Doc := do
  let o ← obj element
  if o.fromDB.isSome ∨ o.fields.kind ≠ k then fault .badClass
  toDoc element

def add (k : Kind) (element : ℕ) : Cmd (Option ℕ) := do
  setChanged k true
  let queryRes ← insertOne k (← elementDoc k element)
  destroy element
  match queryRes with
  | none => return none
  | some id =>
    let doc ← value (← findOne k (Doc.byId id))
    let res ← construct k.dbClass doc
    own res 1
    pushBack k res
    return some res

/-- The search of `Delete`: the iterator of the first element with the id, or of the first element. -/
def iterForDelete (oid : Oid) (first : ℕ) : List ℕ → Cmd ℕ
  | [] => return first
  | p :: rest => do
    if (← fromDB p).id = oid then return p
    else iterForDelete oid first rest

def delete (k : Kind) (oid : Oid) : Cmd Bool := do
  setChanged k true
  let l ← cash k
  match l with
  | [] => fault .endIterator
  | first :: _ =>
    let p ← iterForDelete oid first l
    own p (-1)
    if (← fromDB p).ownedCount = 0 then destroy p
    else modifyFromDB p fun b => { b with isExist := false }
    remove k p
    return (← value (← deleteOne k oid)) = 1

/-- `Update`, with an object of the controller's `DBType`. -/
def update (k : Kind) (el : ℕ) : Cmd Bool := do
  let o ← obj el
  if o.fields.kind ≠ k then fault .badClass
  let d ← toDoc el
  let id := (← fromDB el).id
  let a ← replaceOne k id d
  let doc ← value (← findOne k (Doc.byId id))
  modifyFromDB el fun b => { b with doc := doc }
  return (← value a) = 1

end Controller

namespace AccountsController

def getAllTeachers : Cmd (List ℕ) := do
  Controller.collect .accounts (fun _ => .ok true) true (← find .accounts [("AccountType", .int32 1)])

def isAccountExist (passLog : LogPass) : Cmd Bool := do return (← findOne .accounts passLog.toDoc).isSome

def findFullAccount (passLog : LogPass) : Cmd ℕ := do
  let ac ← construct .accountDB (← value (← findOne .accounts passLog.toDoc))
  Controller.pushBack .accounts ac
  return ac

end AccountsController

namespace ScheduleController

def getAllSchedulesinDate (julianDate : Int32) (group : Pointer) : Cmd (List ℕ) := do
  let id := (← fromDB (← deref group)).id
  Controller.collect .schedules (fun _ => .ok true) true
    (← find .schedules [("Date", .int32 julianDate), ("Group", .oid id)])

end ScheduleController

namespace InfosController

/-- The class `GetFromDB` builds for an account type. -/
def classOf : AccountType → Option DBClass
  | .admin => none
  | .student => some .studentInfoDB
  | .teacher => some .teacherInfoDB

def getFromDB (oid : Oid) (type : AccountType) : Cmd (Option ℕ) :=
  Controller.lookUp .infos oid fun qeRes => do
    match classOf type with
    | none => return none
    | some c =>
      let acc ← construct c qeRes
      own acc 1
      Controller.pushBack .infos acc
      return some acc

end InfosController

end Cbt
