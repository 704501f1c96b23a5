import ClassCompiler.Json.Value

/-!
# Reading JSON

A strict reader: one value with blanks, tabs and line ends around it and between its tokens, and
nothing more.  Each reader takes the characters that are left and returns what it read with the
characters after it.

Two limits belong to the format.  Arrays and objects nest at most as deep as the reader is told,
and a number that double precision cannot hold is refused wherever it stands.

* `readNumber`, `readString`: the tokens with a grammar of their own.
* `readValue`: a value, by recursion on the depth that is left.
* `read`: a whole text.
-/

namespace ClassCompiler
namespace Json

/-- The blanks, tabs and line ends between tokens, taken away. -/
def skipBlanks (cs : List Char) : List Char :=
  cs.dropWhile fun c => c == ' ' || c == '\t' || c == '\n' || c == '\r'

/-- The characters after a word that must stand there. -/
def dropWord : List Char → List Char → Option (List Char)
  | [], cs => some cs
  | w :: ws, c :: cs => if w = c then dropWord ws cs else none
  | _ :: _, [] => none

/-! ## Numbers -/

/-- The number that digits write in base ten. -/
def ofDigits (digits : List Char) : Nat :=
  Nat.ofDigitChars 10 digits 0

/-- A natural number rounded to 53 significant bits, ties to even. -/
def round53 (n : Nat) : Nat :=
  let shift := n.log2 - 52
  if n.log2 < 53 then n
  else
    let unit := Nat.pow 2 shift
    let low := n / unit
    let rest := n % unit
    if 2 * rest < unit ∨ (2 * rest = unit ∧ low % 2 = 0) then low * unit else (low + 1) * unit

/-- The leading digits that fit 64 bits after `start`, and how many they are. -/
def leadingDigits (start : Nat) : List Char → Nat × Nat
  | [] => (start, 0)
  | d :: ds =>
    let next := 10 * start + (d.toNat - '0'.toNat)
    if next < 18446744073709551616 then
      let (n, used) := leadingDigits next ds
      (n, used + 1)
    else (start, 0)

/-- Whether a number is too large for double precision.  Its leading digits and its power of ten
are each rounded to 53 bits and then multiplied. -/
def overflows (whole fraction : List Char) (exponent : Int) : Bool :=
  let (n, used) := leadingDigits 0 whole
  let (significand, more) := leadingDigits n fraction
  let scale : Int := exponent + ((whole.length - used : Nat) : Int) - (more : Int)
  if significand = 0 ∨ scale < 0 then false
  else if 308 < scale then true
  else
    Nat.pow 2 1024 - Nat.pow 2 970 ≤ round53 significand * round53 (Nat.pow 10 scale.toNat)

/-- The digits of a whole number: no zero before another digit. -/
def readWhole (cs : List Char) : Option (List Char × List Char) :=
  match cs with
  | [] => none
  | c :: rest =>
    if c = '0' then some (['0'], rest)
    else if c.isDigit then some (cs.takeWhile Char.isDigit, cs.dropWhile Char.isDigit)
    else none

/-- At least one digit. -/
def readDigits (cs : List Char) : Option (List Char × List Char) :=
  match cs.takeWhile Char.isDigit with
  | [] => none
  | digits => some (digits, cs.dropWhile Char.isDigit)

/-- The digits after a point, if there is one. -/
def readFraction : List Char → Option (Option (List Char) × List Char)
  | '.' :: rest => do
    let (digits, rest) ← readDigits rest
    some (some digits, rest)
  | cs => some (none, cs)

/-- The exponent, if there is one. -/
def readExponent : List Char → Option (Option Int × List Char)
  | [] => some (none, [])
  | c :: rest =>
    if c = 'e' ∨ c = 'E' then do
      let (negative, rest) := match rest with
        | '-' :: r => (true, r)
        | '+' :: r => (false, r)
        | r => (false, r)
      let (digits, rest) ← readDigits rest
      let n : Int := ofDigits digits
      some (some (if negative then -n else n), rest)
    else some (none, c :: rest)

/-- The sign in front of a number. -/
def readSign : List Char → Bool × List Char
  | '-' :: rest => (true, rest)
  | cs => (false, cs)

/-- A number that double precision can hold. -/
def readNumber (cs : List Char) : Option (Number × List Char) := do
  let (negative, cs) := readSign cs
  let (whole, cs) ← readWhole cs
  let (fraction, cs) ← readFraction cs
  let (exponent, cs) ← readExponent cs
  let digits := fraction.getD []
  let power := exponent.getD 0
  if overflows whole digits power then none
  else
    match fraction, exponent with
    | none, none =>
      let n := ofDigits whole
      if negative ∧ n = 0 then some (.decimal true 0 0, cs)
      else some (.integer (if negative then -(n : Int) else n), cs)
    | _, _ => some (.decimal negative (ofDigits (whole ++ digits)) (power - digits.length), cs)

/-! ## Strings -/

/-- The value of a hexadecimal digit. -/
def hexValue (c : Char) : Option Nat :=
  if c.isDigit then some (c.toNat - '0'.toNat)
  else if 'a' ≤ c ∧ c ≤ 'f' then some (c.toNat - 'a'.toNat + 10)
  else if 'A' ≤ c ∧ c ≤ 'F' then some (c.toNat - 'A'.toNat + 10)
  else none

/-- Four hexadecimal digits. -/
def readUnit : List Char → Option (Nat × List Char)
  | a :: b :: c :: d :: rest => do
    let a ← hexValue a
    let b ← hexValue b
    let c ← hexValue c
    let d ← hexValue d
    some (((a * 16 + b) * 16 + c) * 16 + d, rest)
  | _ => none

/-- A character by number.  A high surrogate takes the low one after it; one that stands alone is
refused. -/
def readNumbered (cs : List Char) : Option (Char × List Char) := do
  let (high, cs) ← readUnit cs
  if 0xdc00 ≤ high ∧ high ≤ 0xdfff then none
  else if 0xd800 ≤ high ∧ high ≤ 0xdbff then
    let (low, cs) ← readUnit (← dropWord ['\\', 'u'] cs)
    if 0xdc00 ≤ low ∧ low ≤ 0xdfff then
      some (Char.ofNat (0x10000 + (high - 0xd800) * 0x400 + (low - 0xdc00)), cs)
    else none
  else some (Char.ofNat high, cs)

/-- The character that an escape stands for, after its backslash. -/
def readEscape : List Char → Option (Char × List Char)
  | [] => none
  | c :: rest =>
    match c with
    | '"' => some ('"', rest)
    | '\\' => some ('\\', rest)
    | '/' => some ('/', rest)
    | 'b' => some ('\x08', rest)
    | 'f' => some ('\x0c', rest)
    | 'n' => some ('\n', rest)
    | 'r' => some ('\r', rest)
    | 't' => some ('\t', rest)
    | 'u' => readNumbered rest
    | _ => none

/-- The characters up to the closing quote, added to those read so far in reverse. -/
def readChars : Nat → List Char → List Char → Option (String × List Char)
  | 0, _, _ => none
  | _ + 1, _, [] => none
  | fuel + 1, soFar, c :: rest =>
    if c = '"' then some (String.ofList soFar.reverse, rest)
    else if c = '\\' then do
      let (c, rest) ← readEscape rest
      readChars fuel (c :: soFar) rest
    else if c.toNat < 0x20 then none
    else readChars fuel (c :: soFar) rest

/-- A string after its opening quote.  Every step takes a character, so `size` steps are enough for
a text of that many. -/
def readString (size : Nat) (cs : List Char) : Option (String × List Char) :=
  readChars size [] cs

/-! ## Values -/

/-- The items of an array after the first bracket or a comma. -/
def readItems (item : List Char → Option (Value × List Char)) :
    Nat → List Value → List Char → Option (List Value × List Char)
  | 0, _, _ => none
  | fuel + 1, soFar, cs => do
    let (v, rest) ← item cs
    match skipBlanks rest with
    | ',' :: rest => readItems item fuel (v :: soFar) rest
    | ']' :: rest => some ((v :: soFar).reverse, rest)
    | _ => none

/-- The name of a member with the colon after it. -/
def readName (size : Nat) (cs : List Char) : Option (String × List Char) :=
  match skipBlanks cs with
  | '"' :: rest => do
    let (name, rest) ← readString size rest
    match skipBlanks rest with
    | ':' :: rest => some (name, rest)
    | _ => none
  | _ => none

/-- The members of an object after the first brace or a comma. -/
def readMembers (size : Nat) (item : List Char → Option (Value × List Char)) :
    Nat → List (String × Value) → List Char → Option (List (String × Value) × List Char)
  | 0, _, _ => none
  | fuel + 1, soFar, cs => do
    let (name, rest) ← readName size cs
    let (v, rest) ← item rest
    match skipBlanks rest with
    | ',' :: rest => readMembers size item fuel ((name, v) :: soFar) rest
    | '\x7d' :: rest => some (((name, v) :: soFar).reverse, rest)
    | _ => none

/-- An array after its opening bracket. -/
def readArray (size : Nat) (item : List Char → Option (Value × List Char)) (cs : List Char) :
    Option (Value × List Char) :=
  match skipBlanks cs with
  | ']' :: rest => some (.array [], rest)
  | _ => do
    let (items, rest) ← readItems item size [] cs
    some (.array items, rest)

/-- An object after its opening brace. -/
def readObject (size : Nat) (item : List Char → Option (Value × List Char)) (cs : List Char) :
    Option (Value × List Char) :=
  match skipBlanks cs with
  | '\x7d' :: rest => some (.object [], rest)
  | _ => do
    let (members, rest) ← readMembers size item size [] cs
    some (.object members, rest)

/-- A value that is no array or object and starts with `c`. -/
def readScalar (size : Nat) (c : Char) (rest : List Char) : Option (Value × List Char) :=
  match c with
  | 'n' => do some (.null, ← dropWord ['u', 'l', 'l'] rest)
  | 't' => do some (.bool true, ← dropWord ['r', 'u', 'e'] rest)
  | 'f' => do some (.bool false, ← dropWord ['a', 'l', 's', 'e'] rest)
  | '"' => do
    let (s, rest) ← readString size rest
    some (.string s, rest)
  | c => do
    let (n, rest) ← readNumber (c :: rest)
    some (.number n, rest)

/-- A value with at most `depth` arrays and objects open at once, in a text of `size`
characters. -/
def readValue (size : Nat) : Nat → List Char → Option (Value × List Char)
  | 0, cs =>
    match skipBlanks cs with
    | [] => none
    | c :: rest => if c = '[' ∨ c = '\x7b' then none else readScalar size c rest
  | depth + 1, cs =>
    match skipBlanks cs with
    | [] => none
    | c :: rest =>
      if c = '[' then readArray size (readValue size depth) rest
      else if c = '\x7b' then readObject size (readValue size depth) rest
      else readScalar size c rest

/-- The value that a text consists of. -/
def read (depth : Nat) (text : String) : Option Value := do
  let cs := text.toList
  let (v, rest) ← readValue cs.length depth cs
  if (skipBlanks rest).isEmpty then some v else none

end Json
end ClassCompiler
