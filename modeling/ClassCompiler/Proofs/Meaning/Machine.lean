import ClassCompiler.Machine.Instruction
import ClassCompiler.Machine.Listing
import ClassCompiler.Proofs.Meaning.Turn
import ClassCompiler.Proofs.Meaning.World

/-!
# What the stack machine does

The meaning of a listing.  A state is the line to be executed next, the operand stack with its top
first, and what the slots hold.  The machine is strict: an instruction that finds too few words on
the stack, words of the wrong family, a constant that it cannot encode or a label that is nowhere
has no meaning at all.  Nothing is known of the objects themselves.  What touches them is a
question, and goes with what the instruction says about whom it addresses: the class, the descriptor
of the field, the signature of the method.

There are no truth values.  An instruction that gives one pushes zero or one.

An object is made in two instructions.  Between them it is on the stack without being ready, and
nothing but a copy and the constructor can be applied to it; the constructor makes all copies ready.

* `Word`: what is on the stack.
* `MachineState.turn`: the turn of the machine at a line.
-/

namespace ClassCompiler
namespace Meaning

open Machine (Op Line Family Descriptor Signature InvokeKind)

/-- What is on the stack or in a slot. -/
inductive Word where
  | int (value : Int32)
  | ref (value : Reference)
  /-- An object that its constructor has not been called on, by the line where it was made. -/
  | unready (line : Nat) (path : String)
  deriving DecidableEq, Repr

/-- The family of a word.  An object that is not ready belongs to none. -/
def Word.family? : Word → Option Family
  | .int _ => some .int
  | .ref _ => some .reference
  | .unready _ _ => none

/-- The family of the values that a descriptor describes. -/
def familyOfDescriptor? : Descriptor → Option Family
  | .int | .boolean => some .int
  | .object _ | .array _ => some .reference
  | .void => none

/-- A word is of the family that a descriptor describes. -/
def Word.fits (w : Word) (d : Descriptor) : Bool :=
  match w.family?, familyOfDescriptor? d with
  | some f, some f' => f == f'
  | _, _ => false

/-- Words for parameters, one for each. -/
def fitsAll : List Word → List Descriptor → Bool
  | [], [] => true
  | w :: ws, d :: ds => w.fits d && fitsAll ws ds
  | _, _ => false

/-- What an instruction says about whom it addresses. -/
inductive Link where
  | none
  | field (owner : String) (type : Descriptor)
  | method (kind : InvokeKind) (owner : String) (signature : Signature)
  deriving DecidableEq, Repr

/-- A question of the machine. -/
structure Question where
  link : Link := .none
  request : Request Word
  deriving DecidableEq, Repr

/-- The machine at some moment. -/
structure MachineState where
  line : Nat
  /-- The top comes first. -/
  stack : List Word
  slots : Nat → Option Word

/-- The turns of the machine. -/
abbrev MachineTurn := Turn MachineState Question (Option Word)

/-- The label that a line sets. -/
def labelOfLine? : Line Op → Option String
  | .label name => some name
  | .op _ => none

/-- The line where a label is set. -/
def lineOf? (lines : List (Line Op)) (name : String) : Option Nat :=
  lines.findIdx? fun l => labelOfLine? l == some name

namespace MachineState

/-- On the next line, with another stack. -/
def next (s : MachineState) (stack : List Word) : MachineState :=
  { s with line := s.line + 1, stack }

/-- Pushes a word. -/
def push (s : MachineState) (w : Word) : MachineTurn :=
  .silent (s.next (w :: s.stack))

/-- Pushes an integer between bounds. -/
def pushBetween (s : MachineState) (low high : Int) (value : Int32) : MachineTurn :=
  if low ≤ value.toInt ∧ value.toInt ≤ high then s.push (.int value) else .stuck

/-- Goes to a label. -/
def goTo (s : MachineState) (lines : List (Line Op)) (name : String) (stack : List Word) :
    MachineTurn :=
  match lineOf? lines name with
  | some line => .silent { s with line, stack }
  | none => .stuck

/-- Goes to a label if a test holds, else to the next line. -/
def goToIf (s : MachineState) (lines : List (Line Op)) (test : Bool) (name : String)
    (stack : List Word) : MachineTurn :=
  if test then s.goTo lines name stack else .silent (s.next stack)

/-- Replaces two integers by one. -/
def combine (s : MachineState) (f : Int32 → Int32 → Int32) : MachineTurn :=
  match s.stack with
  | .int b :: .int a :: stack => .silent (s.next (.int (f a b) :: stack))
  | _ => .stuck

/-- Takes two integers and jumps if they compare. -/
def compare (s : MachineState) (lines : List (Line Op)) (test : Int32 → Int32 → Bool)
    (name : String) : MachineTurn :=
  match s.stack with
  | .int b :: .int a :: stack => s.goToIf lines (test a b) name stack
  | _ => .stuck

/-- Takes an integer and jumps if it passes a test. -/
def compareZero (s : MachineState) (lines : List (Line Op)) (test : Int32 → Bool)
    (name : String) : MachineTurn :=
  match s.stack with
  | .int a :: stack => s.goToIf lines (test a) name stack
  | _ => .stuck

/-- Takes an answer of a type and pushes it, or nothing if the type is void. -/
def receive (s : MachineState) (type : Descriptor) (stack : List Word) (answer : Option Word) :
    Option MachineState :=
  match answer with
  | some w => if w.fits type then some (s.next (w :: stack)) else none
  | none => if type = .void then some (s.next stack) else none

/-- The arguments on top of the stack, and what is below them. -/
def takeArgs (s : MachineState) (params : List Descriptor) : Option (List Word × List Word) :=
  let args := (s.stack.take params.length).reverse
  if fitsAll args params then some (args, s.stack.drop params.length) else none

/-- Makes the copies of an object ready. -/
def makeReady (object : Word) (r : Reference) (w : Word) : Word :=
  if w = object then .ref r else w

/-- Asks for an object, and makes the copies below the top of the stack and in the slots ready. -/
def construct (s : MachineState) (owner method : String) (signature : Signature) : MachineTurn :=
  match s.stack with
  | .unready line path :: stack =>
    if method = "<init>" ∧ signature = ⟨[], .void⟩ ∧ owner = path then
      .ask ⟨.method .special owner signature, .newObject owner⟩ fun
        | some (.ref r) =>
          some { s with
            line := s.line + 1
            stack := stack.map (makeReady (.unready line path) r)
            slots := fun i => (s.slots i).map (makeReady (.unready line path) r) }
        | _ => none
    else .stuck
  | _ => .stuck

/-- The call of a method. -/
def invoke (s : MachineState) (kind : InvokeKind) (owner method : String)
    (signature : Signature) : MachineTurn :=
  match kind, s.takeArgs signature.params with
  | .special, _ => s.construct owner method signature
  | .static, some (args, stack) =>
    .ask ⟨.method .static owner signature, .call (.ofClass owner) method args⟩
      (s.receive signature.result stack)
  | .virtual, some (args, .ref r :: stack) =>
    .ask ⟨.method .virtual owner signature, .call (.object r) method args⟩
      (s.receive signature.result stack)
  | _, _ => .stuck

/-- What an instruction does. -/
def execute (s : MachineState) (lines : List (Line Op)) : Op → MachineTurn
  | .iconst value => s.pushBetween (-1) 5 value
  | .bipush value => s.pushBetween (-128) 127 value
  | .sipush value => s.pushBetween (-32768) 32767 value
  | .ldcInt value => s.push (.int value)
  | .ldcString value => s.push (.ref (.string value))
  | .load family slot =>
    match s.slots slot with
    | some w => if w.family? = some family then s.push w else .stuck
    | none => .stuck
  | .store family slot =>
    match s.stack with
    | w :: stack =>
      if w.family? = some family then
        .silent ⟨s.line + 1, stack, fun i => if i = slot then some w else s.slots i⟩
      else .stuck
    | [] => .stuck
  | .iadd => s.combine (· + ·)
  | .isub => s.combine (· - ·)
  | .imul => s.combine (· * ·)
  | .idiv =>
    match s.stack with
    | .int b :: .int _ :: _ => if b = 0 then .trap else s.combine (· / ·)
    | _ => .stuck
  | .iand => s.combine (· &&& ·)
  | .ior => s.combine (· ||| ·)
  | .ixor => s.combine (· ^^^ ·)
  | .ifIcmplt target => s.compare lines (fun a b => a < b) target
  | .ifIcmpgt target => s.compare lines (fun a b => b < a) target
  | .ifeq target => s.compareZero lines (· == 0) target
  | .ifne target => s.compareZero lines (· != 0) target
  | .goto target => s.goTo lines target s.stack
  | .iaload =>
    match s.stack with
    | .int i :: .ref r :: stack => .ask { request := .arrayLoad r i } (s.receive .int stack)
    | _ => .stuck
  | .iastore =>
    match s.stack with
    | .int v :: .int i :: .ref r :: stack =>
      .ask { request := .arrayStore r i v } fun _ => some (s.next stack)
    | _ => .stuck
  | .arraylength =>
    match s.stack with
    | .ref r :: stack => .ask { request := .arrayLength r } (s.receive .int stack)
    | _ => .stuck
  | .newarray =>
    match s.stack with
    | .int n :: stack => .ask { request := .newArray n } (s.receive (.array .int) stack)
    | _ => .stuck
  | .new path => s.push (.unready s.line path)
  | .dup =>
    match s.stack with
    | w :: stack => .silent (s.next (w :: w :: stack))
    | [] => .stuck
  | .pop =>
    match s.stack with
    | _ :: stack => .silent (s.next stack)
    | [] => .stuck
  | .getfield owner name type =>
    match s.stack with
    | .ref r :: stack =>
      .ask ⟨.field owner type, .getField r name⟩ (s.receive type stack)
    | _ => .stuck
  | .putfield owner name type =>
    match s.stack with
    | w :: .ref r :: stack =>
      if w.fits type then
        .ask ⟨.field owner type, .putField r name w⟩ fun _ => some (s.next stack)
      else .stuck
    | _ => .stuck
  | .invoke kind owner method signature => s.invoke kind owner method signature
  | .ret => .stop none
  | .ireturn =>
    match s.stack with
    | .int a :: _ => .stop (some (.int a))
    | _ => .stuck
  | .areturn =>
    match s.stack with
    | .ref r :: _ => .stop (some (.ref r))
    | _ => .stuck

/-- The turn of the machine.  A label does nothing. -/
def turn (lines : List (Line Op)) (s : MachineState) : MachineTurn :=
  match lines[s.line]? with
  | none => .over
  | some (.label _) => .silent (s.next s.stack)
  | some (.op op) => s.execute lines op

end MachineState

end Meaning
end ClassCompiler
