import ClassCompiler.Error
import ClassCompiler.Text.Blank

/-!
# Settings

What a compilation is told beside the class: a typed view of a map from names to texts.

* `Settings.ofEntries`: the settings that the entries of a map describe.  Entries are read one after
  another in the order given, names that are none of the four are passed over, and the first value
  that does not fit ends the reading.
* `Settings.toEntries`: the entries that describe given settings.
-/

namespace ClassCompiler

/-- What a compilation is told beside the class. -/
structure Settings where
  /-- The name of what is compiled, usually a path. -/
  input : Option String := none
  /-- Fold and propagate constants before lowering. -/
  optimize : Bool := false
  /-- The number of local slots that a method announces; there is a default. -/
  slotBudget : Option UInt32 := none
  /-- Say more on the way. -/
  debug : Bool := false
  deriving DecidableEq, Repr

namespace Settings

/-- A character in lower case, if it is a letter of ASCII. -/
def lowerAscii (c : Char) : Char :=
  if 'A' ≤ c ∧ c ≤ 'Z' then Char.ofNat (c.toNat + 32) else c

/-- A truth value, by word or by digit. -/
def readBoolean (value : String) : Option Bool :=
  let word := String.ofList ((Text.trim value.toList).map lowerAscii)
  if word = "true" ∨ word = "1" then some true
  else if word = "false" ∨ word = "0" then some false
  else none

/-- At least one digit and nothing else. -/
def readNatural (cs : List Char) : Option Nat :=
  if cs.isEmpty ∨ !cs.all Char.isDigit then none else some (Nat.ofDigitChars 10 cs 0)

/-- An integer with or without a sign. -/
def readSigned : List Char → Option Int
  | '-' :: cs => (readNatural cs).map fun n => -(n : Int)
  | '+' :: cs => (readNatural cs).map fun n => (n : Int)
  | cs => (readNatural cs).map fun n => (n : Int)

/-- An integer of 64 bits. -/
def readInteger (value : String) : Option Int := do
  let n ← readSigned (Text.trim value.toList)
  if -9223372036854775808 ≤ n ∧ n ≤ 9223372036854775807 then some n else none

/-- A budget is a number of 32 bits.  Any other integer asks for the default. -/
def budgetOf (n : Int) : Option UInt32 :=
  if 0 ≤ n ∧ n ≤ 4294967295 then some (UInt32.ofNat n.toNat) else none

/-- The settings after one more entry. -/
def set (s : Settings) (key value : String) : Except Error Settings :=
  if key = "inputFile" then .ok { s with input := some value }
  else if key = "optimize" then
    match readBoolean value with
    | some b => .ok { s with optimize := b }
    | none => .error (.badSetting (.notBoolean key value))
  else if key = "debug" then
    match readBoolean value with
    | some b => .ok { s with debug := b }
    | none => .error (.badSetting (.notBoolean key value))
  else if key = "registerAllocation" then
    match readInteger value with
    | some n => .ok { s with slotBudget := budgetOf n }
    | none => .error (.badSetting (.notInteger key value))
  else .ok s

/-- The settings that entries describe, read in their order. -/
def ofEntries (entries : List (String × String)) : Except Error Settings :=
  entries.foldlM (fun s entry => s.set entry.1 entry.2) {}

/-- The text of a truth value. -/
def booleanText (b : Bool) : String :=
  if b then "true" else "false"

/-- The entries that describe the settings.  A missing budget is written as a negative number. -/
def toEntries (s : Settings) : List (String × String) :=
  let budget : Int := match s.slotBudget with
    | some n => n.toNat
    | none => -1
  (match s.input with
    | some input => [("inputFile", input)]
    | none => [])
    ++ [("optimize", booleanText s.optimize), ("debug", booleanText s.debug),
      ("registerAllocation", toString budget)]

end Settings
end ClassCompiler
