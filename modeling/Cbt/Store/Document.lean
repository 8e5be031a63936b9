import Cbt.Lib.Table

/-! Documents as the driver hands them over: keyed values in the order they were
appended. Reading a missing key, or a value under the wrong type, throws. The
program appends the C++ constant `NULL` where it has no reference, and that is
an integer. -/

namespace Cbt

/-- An object id. -/
abbrev Oid := ℕ

/-- What stops a command before it returns. -/
inductive Fault where
  | nullPointer | freedObject | uninitPointer | badClass | erasedIterator | endIterator
  | unsetElement | elementType | noValue | badEnum | server | outOfRange
  deriving DecidableEq, Repr

/-- The values the program puts into arrays. -/
inductive Element where
  | string (s : String)
  | oid (o : Oid)
  deriving DecidableEq, Repr

inductive Bson where
  | int32 (n : Int32)
  | int64 (n : Int64)
  | string (s : String)
  | oid (o : Oid)
  | array (vs : List Element)
  deriving DecidableEq, Repr

/-- The C++ constant `NULL`, appended as a value. -/
def nullValue : Bson := .int32 0

abbrev Doc := List (String × Bson)

namespace Bson

def isOid : Bson → Bool
  | .oid _ => true
  | _ => false

/-- The object id, where there is one. -/
def oid? : Bson → Option Oid
  | .oid o => some o
  | _ => none

/-- Equality in a filter: integers are compared by value, whatever their width. -/
def same : Bson → Bson → Bool
  | .int32 a, .int32 b => a = b
  | .int32 a, .int64 b => a.toInt = b.toInt
  | .int64 a, .int32 b => a.toInt = b.toInt
  | a, b => a = b

@[simp] theorem isOid_oid (o : Oid) : (Bson.oid o).isOid = true := rfl
@[simp] theorem oid?_oid (o : Oid) : (Bson.oid o).oid? = some o := rfl
@[simp] theorem isOid_nullValue : nullValue.isOid = false := rfl
@[simp] theorem oid?_nullValue : nullValue.oid? = none := rfl

theorem oid?_eq_some {v : Bson} {o : Oid} : v.oid? = some o ↔ v = .oid o := by
  cases v <;> simp [oid?]

theorem same_oid (v : Bson) (o : Oid) : v.same (.oid o) = true ↔ v = .oid o := by
  cases v <;> simp [same]

end Bson

/-- The object id of an array element. -/
def Element.getOid : Element → Except Fault Oid
  | .oid o => .ok o
  | .string _ => .error .elementType

def Element.getString : Element → Except Fault String
  | .string s => .ok s
  | .oid _ => .error .elementType

namespace Doc

def get? (d : Doc) (key : String) : Option Bson := Lib.Table.find d key

@[simp] theorem get?_nil (key : String) : get? [] key = none := rfl

@[simp] theorem get?_cons (k : String) (v : Bson) (d : Doc) (key : String) :
    get? ((k, v) :: d) key = if k = key then some v else get? d key := rfl

/-- Look-ups agree after fields that agree where they are looked for. -/
theorem get?_cons_congr {k key : String} {v v' : Bson} {d d' : Doc} (hv : k = key → v = v')
    (hd : get? d key = get? d' key) : get? ((k, v) :: d) key = get? ((k, v') :: d') key := by
  rw [get?_cons, get?_cons, hd]
  split_ifs with hk
  · rw [hv hk]
  · rfl

theorem get?_append (d d' : Doc) (key : String) : get? (d ++ d') key = (get? d key).or (get? d' key) :=
  Lib.Table.find_append d d' key

/-- `doc[key]`, for a use that throws when the element is not there. -/
def elem (d : Doc) (key : String) : Except Fault Bson :=
  match d.get? key with
  | some v => .ok v
  | none => .error .unsetElement

def getOid (d : Doc) (key : String) : Except Fault Oid :=
  match d.get? key with
  | some (.oid o) => .ok o
  | some _ => .error .elementType
  | none => .error .unsetElement

def getString (d : Doc) (key : String) : Except Fault String :=
  match d.get? key with
  | some (.string s) => .ok s
  | some _ => .error .elementType
  | none => .error .unsetElement

def getInt32 (d : Doc) (key : String) : Except Fault Int32 :=
  match d.get? key with
  | some (.int32 n) => .ok n
  | some _ => .error .elementType
  | none => .error .unsetElement

def getInt64 (d : Doc) (key : String) : Except Fault Int64 :=
  match d.get? key with
  | some (.int64 n) => .ok n
  | some _ => .error .elementType
  | none => .error .unsetElement

@[simp] theorem elem_eq_ok {d : Doc} {key : String} {v : Bson} : d.elem key = .ok v ↔ d.get? key = some v := by
  unfold elem
  cases d.get? key <;> simp

@[simp] theorem getOid_eq_ok {d : Doc} {key : String} {o : Oid} :
    d.getOid key = .ok o ↔ d.get? key = some (.oid o) := by
  unfold getOid
  rcases d.get? key with _ | (_ | _ | _ | _ | _) <;> simp

@[simp] theorem getString_eq_ok {d : Doc} {key s : String} :
    d.getString key = .ok s ↔ d.get? key = some (.string s) := by
  unfold getString
  rcases d.get? key with _ | (_ | _ | _ | _ | _) <;> simp

@[simp] theorem getInt32_eq_ok {d : Doc} {key : String} {n : Int32} :
    d.getInt32 key = .ok n ↔ d.get? key = some (.int32 n) := by
  unfold getInt32
  rcases d.get? key with _ | (_ | _ | _ | _ | _) <;> simp

@[simp] theorem getInt64_eq_ok {d : Doc} {key : String} {n : Int64} :
    d.getInt64 key = .ok n ↔ d.get? key = some (.int64 n) := by
  unfold getInt64
  rcases d.get? key with _ | (_ | _ | _ | _ | _) <;> simp

/-- Every field of the filter is there with the same value. No field the program filters on
holds an array. -/
def fits (filter d : Doc) : Bool :=
  filter.all fun kv => match d.get? kv.1 with
    | some v => v.same kv.2
    | none => false

/-- `make_document(kvp("_id", oid))`. -/
def byId (o : Oid) : Doc := [("_id", .oid o)]

theorem fits_byId {o : Oid} {d : Doc} : fits (byId o) d = true ↔ d.get? "_id" = some (.oid o) := by
  simp only [fits, byId, List.all_cons, List.all_nil, Bool.and_true]
  cases d.get? "_id" with
  | none => simp
  | some v => simp [Bson.same_oid]

@[simp] theorem fits_nil (d : Doc) : fits [] d = true := rfl

end Doc

end Cbt
