-- SUMMARY: JSON values as a parser hands them over, and reading lists, pairs and objects from them.
import IronPangu.Lib.SortedAssoc

/-!
# JSON values

An object keeps one member for each key, in the order of the keys.
-/

namespace Json

/-- A number keeps the form it was written in. -/
inductive Number where
  | natural (n : UInt64)
  | negative (n : Int64)
  | float (bits : UInt64)
  deriving DecidableEq, Repr

inductive Value where
  | null
  | bool (value : Bool)
  | number (value : Number)
  | string (value : String)
  | array (items : List Value)
  | object (members : List (String × Value))

namespace Value

def asStr : Value → Option String
  | .string s => some s
  | .null | .bool _ | .number _ | .array _ | .object _ => none

def asU64 : Value → Option Nat
  | .number (.natural n) => some n.toNat
  | .number (.negative _) | .number (.float _) | .null | .bool _ | .string _ | .array _ | .object _ => none

def asObject : Value → Option (List (String × Value))
  | .object members => some members
  | .null | .bool _ | .number _ | .string _ | .array _ => none

def get (v : Value) (key : String) : Option Value := v.asObject.bind (SortedAssoc.find key)

/-- A missing member is null. -/
def index (v : Value) (key : String) : Value := (v.get key).getD .null

/-! ## Typed reading -/

/-- A list of naturals. -/
def naturals : Value → Option (List Nat)
  | .array items => items.mapM asU64
  | .null | .bool _ | .number _ | .string _ | .object _ => none

/-- Exactly two naturals. -/
def pair : Value → Option (Nat × Nat)
  | .array [first, second] => return (← first.asU64, ← second.asU64)
  | .null | .bool _ | .number _ | .string _ | .array _ | .object _ => none

/-- A map from strings to strings. -/
def strings (v : Value) : Option (List (String × String)) := do
  let members ← v.asObject
  members.mapM fun (key, value) => return (key, ← value.asStr)

end Value

end Json
