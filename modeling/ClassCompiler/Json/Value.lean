/-!
# JSON values

A JSON value as it is written: the members of an object keep their order, and a member that occurs
twice is there twice.  Readers of a particular document decide what a repetition means.

Numbers keep one distinction of their spelling.  A number written with digits only is an integer;
one with a fraction or an exponent, and also minus zero, is a decimal, and is never taken for an
integer whatever its value.
-/

namespace ClassCompiler
namespace Json

/-- A number: digits only, or a decimal of value `± mantissa * 10 ^ exponent`. -/
inductive Number where
  | integer (value : Int)
  | decimal (negative : Bool) (mantissa : Nat) (exponent : Int)
  deriving DecidableEq, Repr

/-- A JSON value. -/
inductive Value where
  | null
  | bool (value : Bool)
  | number (value : Number)
  | string (value : String)
  | array (items : List Value)
  | object (members : List (String × Value))
  deriving Repr

namespace Value

/-- An integer as a value. -/
def int (n : Int) : Value :=
  .number (.integer n)

/-- A number of things as a value. -/
def nat (n : Nat) : Value :=
  .int n

/-- A value or `null`. -/
def ofOption {α : Type} (encode : α → Value) : Option α → Value
  | some a => encode a
  | none => .null

/-- The first member of that name, if the value is an object that has one. -/
def member? (name : String) : Value → Option Value
  | .object members => members.lookup name
  | _ => none

/-- The text of a string. -/
def string? : Value → Option String
  | .string s => some s
  | _ => none

/-- A truth value. -/
def bool? : Value → Option Bool
  | .bool b => some b
  | _ => none

/-- A number written with digits only. -/
def int? : Value → Option Int
  | .number (.integer n) => some n
  | _ => none

/-- A number written with digits only that is not negative. -/
def nat? (v : Value) : Option Nat := do
  let n ← v.int?
  if 0 ≤ n then some n.toNat else none

/-- The items of an array. -/
def items? : Value → Option (List Value)
  | .array items => some items
  | _ => none

/-- The members of an object. -/
def members? : Value → Option (List (String × Value))
  | .object members => some members
  | _ => none

end Value

end Json
end ClassCompiler
