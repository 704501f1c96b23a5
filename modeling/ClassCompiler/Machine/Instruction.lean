import ClassCompiler.Machine.Descriptor
import ClassCompiler.Text.Utf16

/-!
# Instructions of the stack machine

An instruction is data; its text is what the assembler reads.  Where the machine has several
instructions for one purpose, the narrowest is chosen: a constant is pushed by an instruction of its
own, as a byte, as a short or from the pool, and the first four slots have short forms.

The assembler reads string constants in ASCII: a quote, a backslash and three control characters are
escaped by a letter, and everything else outside printable ASCII is written in UTF-16 units.
-/

namespace ClassCompiler
namespace Machine

open ThreeAddress (ValueType)

/-- Integers and truth values, or references. -/
inductive Family where
  | int
  | reference
  deriving DecidableEq, Repr

/-- How a method is found. -/
inductive InvokeKind where
  | static
  | virtual
  /-- A constructor. -/
  | special
  deriving DecidableEq, Repr

/-- An instruction. -/
inductive Op where
  /-- Pushes an integer from -1 to 5. -/
  | iconst (value : Int32)
  /-- Pushes an integer of 8 bits. -/
  | bipush (value : Int32)
  /-- Pushes an integer of 16 bits. -/
  | sipush (value : Int32)
  /-- Pushes an integer from the pool. -/
  | ldcInt (value : Int32)
  /-- Pushes a string from the pool. -/
  | ldcString (value : String)
  | load (family : Family) (slot : Nat)
  | store (family : Family) (slot : Nat)
  | iadd
  | isub
  | imul
  | idiv
  | iand
  | ior
  | ixor
  | ifIcmplt (target : String)
  | ifIcmpgt (target : String)
  | ifeq (target : String)
  | ifne (target : String)
  | goto (target : String)
  | iaload
  | iastore
  | arraylength
  /-- Allocates an array of integers. -/
  | newarray
  | new (path : String)
  | dup
  | pop
  | getfield (owner name : String) (type : Descriptor)
  | putfield (owner name : String) (type : Descriptor)
  | invoke (kind : InvokeKind) (owner method : String) (signature : Signature)
  | ret
  | ireturn
  | areturn
  deriving DecidableEq, Repr

/-! ## String constants -/

/-- A UTF-16 unit by its four hexadecimal digits. -/
def escapeUnit (unit : Nat) : List Char :=
  let digits := Nat.toDigits 16 unit
  ['\\', 'u'] ++ List.replicate (4 - digits.length) '0' ++ digits

/-- One character of a string constant. -/
def constantChar (c : Char) : List Char :=
  match c with
  | '"' => ['\\', '"']
  | '\\' => ['\\', '\\']
  | '\n' => ['\\', 'n']
  | '\r' => ['\\', 'r']
  | '\t' => ['\\', 't']
  | c => if ' ' ≤ c ∧ c ≤ '~' then [c] else (Text.units16 c).flatMap escapeUnit

/-- A string constant between its quotes. -/
def constantText (s : String) : String :=
  String.ofList ('"' :: s.toList.flatMap constantChar ++ ['"'])

/-! ## The text of instructions -/

/-- The letter of a family. -/
def Family.letter : Family → String
  | .int => "i"
  | .reference => "a"

/-- An access to a slot; the first four have a short form. -/
def slotText (family : Family) (verb : String) (slot : Nat) : String :=
  if slot ≤ 3 then s!"{family.letter}{verb}_{slot}" else s!"{family.letter}{verb} {slot}"

/-- The mnemonic of a kind of call. -/
def InvokeKind.text : InvokeKind → String
  | .static => "invokestatic"
  | .virtual => "invokevirtual"
  | .special => "invokespecial"

/-- The text of an instruction. -/
def Op.text : Op → String
  | .iconst value => if value.toInt = -1 then "iconst_m1" else s!"iconst_{value.toInt}"
  | .bipush value => s!"bipush {value.toInt}"
  | .sipush value => s!"sipush {value.toInt}"
  | .ldcInt value => s!"ldc {value.toInt}"
  | .ldcString value => "ldc " ++ constantText value
  | .load family slot => slotText family "load" slot
  | .store family slot => slotText family "store" slot
  | .iadd => "iadd"
  | .isub => "isub"
  | .imul => "imul"
  | .idiv => "idiv"
  | .iand => "iand"
  | .ior => "ior"
  | .ixor => "ixor"
  | .ifIcmplt target => "if_icmplt " ++ target
  | .ifIcmpgt target => "if_icmpgt " ++ target
  | .ifeq target => "ifeq " ++ target
  | .ifne target => "ifne " ++ target
  | .goto target => "goto " ++ target
  | .iaload => "iaload"
  | .iastore => "iastore"
  | .arraylength => "arraylength"
  | .newarray => "newarray int"
  | .new path => "new " ++ path
  | .dup => "dup"
  | .pop => "pop"
  | .getfield owner name type => s!"getfield {owner}/{name} {type.text}"
  | .putfield owner name type => s!"putfield {owner}/{name} {type.text}"
  | .invoke kind owner method signature => s!"{kind.text} {owner}/{method}{signature.text}"
  | .ret => "return"
  | .ireturn => "ireturn"
  | .areturn => "areturn"

/-! ## Choosing instructions -/

/-- The family that a type is handled by. -/
def familyOf (t : ValueType) : Family :=
  if t.isReference then .reference else .int

/-- Pushes an integer. -/
def pushInt (value : Int32) : Op :=
  let n := value.toInt
  if -1 ≤ n ∧ n ≤ 5 then .iconst value
  else if -128 ≤ n ∧ n ≤ 127 then .bipush value
  else if -32768 ≤ n ∧ n ≤ 32767 then .sipush value
  else .ldcInt value

/-- Pushes a truth value, as zero or one. -/
def pushBool (value : Bool) : Op :=
  pushInt (if value then 1 else 0)

/-- Reads a slot of a type. -/
def loadSlot (t : ValueType) (slot : Nat) : Op :=
  .load (familyOf t) slot

/-- Writes a slot of a type. -/
def storeSlot (t : ValueType) (slot : Nat) : Op :=
  .store (familyOf t) slot

/-- Returns a value of a type, or nothing. -/
def returnOf (t : ValueType) : Op :=
  match t with
  | .void => .ret
  | t => if t.isReference then .areturn else .ireturn

end Machine
end ClassCompiler
