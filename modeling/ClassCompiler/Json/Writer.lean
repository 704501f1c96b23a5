import ClassCompiler.Json.Value

/-!
# Writing JSON

Two layouts of one value.  `Value.compact` writes no blank.  `Value.pretty` puts every item on a
line of its own, two blanks deeper than what holds it, with one blank after a colon; an empty array
or object stays on one line.

Strings escape the quote, the backslash and the control characters below the blank, and nothing
else.
-/

namespace ClassCompiler
namespace Json

/-- A control character by its four hexadecimal digits. -/
def escapeNumber (c : Char) : List Char :=
  let digits := Nat.toDigits 16 c.toNat
  ['\\', 'u'] ++ List.replicate (4 - digits.length) '0' ++ digits

/-- One character inside a string. -/
def escapeChar (c : Char) : List Char :=
  match c with
  | '"' => ['\\', '"']
  | '\\' => ['\\', '\\']
  | '\x08' => ['\\', 'b']
  | '\x0c' => ['\\', 'f']
  | '\n' => ['\\', 'n']
  | '\r' => ['\\', 'r']
  | '\t' => ['\\', 't']
  | c => if c.toNat < 0x20 then escapeNumber c else [c]

/-- A string between its quotes. -/
def writeString (s : String) : List Char :=
  '"' :: s.toList.flatMap escapeChar ++ ['"']

/-- An integer in base ten. -/
def writeInt : Int → List Char
  | .ofNat n => Nat.toDigits 10 n
  | .negSucc n => '-' :: Nat.toDigits 10 (n + 1)

/-- A number; a decimal is written with an exponent, so that it is read as a decimal again. -/
def writeNumber : Number → List Char
  | .integer n => writeInt n
  | .decimal negative mantissa exponent =>
    (if negative then ['-'] else []) ++ Nat.toDigits 10 mantissa ++ ['e'] ++ writeInt exponent

/-- The line break and the blanks before an item that is `level` deep. -/
def newline (level : Nat) : List Char :=
  '\n' :: List.replicate (2 * level) ' '

/-- Items between brackets, each on a line of its own. -/
def block (opening closing : Char) (level : Nat) : List (List Char) → List Char
  | [] => [opening, closing]
  | items =>
    [opening] ++ newline (level + 1) ++ List.intercalate (',' :: newline (level + 1)) items
      ++ newline level ++ [closing]

namespace Value

mutual

/-- The value without any blank. -/
def compact : Value → List Char
  | .null => "null".toList
  | .bool b => (if b then "true" else "false").toList
  | .number n => writeNumber n
  | .string s => writeString s
  | .array items => '[' :: List.intercalate [','] (compactItems items) ++ [']']
  | .object members => '\x7b' :: List.intercalate [','] (compactMembers members) ++ ['\x7d']

/-- The items of an array. -/
def compactItems : List Value → List (List Char)
  | [] => []
  | v :: vs => v.compact :: compactItems vs

/-- The members of an object. -/
def compactMembers : List (String × Value) → List (List Char)
  | [] => []
  | (name, v) :: rest => (writeString name ++ ':' :: v.compact) :: compactMembers rest

end

mutual

/-- The value with one item a line, when it stands `level` deep itself. -/
def pretty (level : Nat) : Value → List Char
  | .null => "null".toList
  | .bool b => (if b then "true" else "false").toList
  | .number n => writeNumber n
  | .string s => writeString s
  | .array items => block '[' ']' level (prettyItems (level + 1) items)
  | .object members => block '\x7b' '\x7d' level (prettyMembers (level + 1) members)

/-- The items of an array, each `level` deep. -/
def prettyItems (level : Nat) : List Value → List (List Char)
  | [] => []
  | v :: vs => v.pretty level :: prettyItems level vs

/-- The members of an object, each `level` deep. -/
def prettyMembers (level : Nat) : List (String × Value) → List (List Char)
  | [] => []
  | (name, v) :: rest =>
    (writeString name ++ [':', ' '] ++ v.pretty level) :: prettyMembers level rest

end

end Value

/-- The text of a value without any blank. -/
def compactText (v : Value) : String :=
  String.ofList v.compact

/-- The text of a value with one item a line. -/
def prettyText (v : Value) : String :=
  String.ofList (v.pretty 0)

end Json
end ClassCompiler
