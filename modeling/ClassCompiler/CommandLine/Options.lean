import ClassCompiler.Settings

/-!
# Options

What a command line asks for.  The words of the line are read from left to right:

* a word that starts with two dashes names an option in full, and its value may follow an equals
  sign;
* a word that starts with one dash is a row of one-letter options, of which the last may take the
  rest of the word as its value, after an equals sign or at once;
* the value of an option that has none yet is the next word, which must not look like an option;
* after a word of two dashes every word stands for itself;
* any other word is the path of the input.

A line that leaves out the input, repeats something, or holds a word or a value that has no meaning
is refused as a whole.
-/

namespace ClassCompiler
namespace CommandLine

/-- What is written. -/
inductive Emit where
  | ast
  | ir
  | jasmin
  | all
  deriving DecidableEq, Repr

namespace Emit

def ofWord? (word : String) : Option Emit :=
  if word = "ast" then some .ast
  else if word = "ir" then some .ir
  else if word = "jasmin" then some .jasmin
  else if word = "all" then some .all
  else none

/-- What is asked for includes a part. -/
def includes (e part : Emit) : Bool :=
  e == part || e == .all

end Emit

/-- What a command line asks for. -/
structure Options where
  /-- The path of the input. -/
  input : String
  /-- The directory that is written to. -/
  output : String := "."
  optimize : Bool := false
  debug : Bool := false
  slotBudget : Option UInt32 := none
  emit : Emit := .all
  deriving DecidableEq, Repr

/-- An option without a value. -/
inductive Flag where
  | optimize
  | debug
  deriving DecidableEq, Repr

/-- An option with a value. -/
inductive Param where
  | output
  | slotBudget
  | emit
  deriving DecidableEq, Repr

/-- What the words read so far ask for. -/
structure Draft where
  input : Option String := none
  output : Option String := none
  optimize : Bool := false
  debug : Bool := false
  slotBudget : Option UInt32 := none
  emit : Option Emit := none
  deriving DecidableEq, Repr

/-! ## Values -/

/-- A path is not empty. -/
def readPath (value : String) : Option String :=
  if value.isEmpty then none else some value

/-- A budget is a decimal number of 32 bits; it may have a sign. -/
def readBudget (value : String) : Option UInt32 := do
  Settings.budgetOf (← Settings.readSigned value.toList)

namespace Draft

/-- The draft with one more input. -/
def addInput (d : Draft) (word : String) : Option Draft := do
  guard d.input.isNone
  return { d with input := ← readPath word }

/-- The draft with one more input for every word. -/
def addInputs (d : Draft) (words : List String) : Option Draft :=
  words.foldlM addInput d

/-- The draft with a flag. -/
def setFlag (d : Draft) : Flag → Option Draft
  | .optimize => if d.optimize then none else some { d with optimize := true }
  | .debug => if d.debug then none else some { d with debug := true }

/-- The draft with the value of an option. -/
def setParam (d : Draft) (p : Param) (value : String) : Option Draft :=
  match p with
  | .output => do
    guard d.output.isNone
    return { d with output := ← readPath value }
  | .slotBudget => do
    guard d.slotBudget.isNone
    return { d with slotBudget := ← readBudget value }
  | .emit => do
    guard d.emit.isNone
    return { d with emit := ← Emit.ofWord? value }

/-- What the draft asks for. -/
def finish (d : Draft) : Option Options := do
  return {
    input := ← d.input
    output := d.output.getD "."
    optimize := d.optimize
    debug := d.debug
    slotBudget := d.slotBudget
    emit := d.emit.getD .all }

/-- A row of one-letter options.  The last may be left without a value. -/
def readLetters (d : Draft) : List Char → Option (Draft × Option Param)
  | [] => some (d, none)
  | 'd' :: cs => do (← d.setFlag .debug).readLetters cs
  | 'o' :: cs => attached d .output cs
  | 'r' :: cs => attached d .slotBudget cs
  | _ => none
where
  attached (d : Draft) (p : Param) : List Char → Option (Draft × Option Param)
    | [] => some (d, some p)
    | '=' :: value => do return (← d.setParam p (String.ofList value), none)
    | value => do return (← d.setParam p (String.ofList value), none)

/-- An option by its full name, perhaps with a value. -/
def readName (d : Draft) (name : String) (value : Option String) :
    Option (Draft × Option Param) :=
  if name = "optimize" then flag .optimize
  else if name = "debug" then flag .debug
  else if name = "output" then param .output
  else if name = "register-allocation" then param .slotBudget
  else if name = "emit" then param .emit
  else none
where
  flag (f : Flag) : Option (Draft × Option Param) := do
    guard value.isNone
    return (← d.setFlag f, none)
  param (p : Param) : Option (Draft × Option Param) :=
    match value with
    | some v => do return (← d.setParam p v, none)
    | none => some (d, some p)

end Draft

/-! ## Words -/

/-- A word of a command line. -/
inductive Word where
  /-- Two dashes: no options follow. -/
  | endOfOptions
  /-- An option by its name, perhaps with a value. -/
  | name (name : String) (value : Option String)
  /-- A row of one-letter options. -/
  | letters (letters : List Char)
  /-- Anything else, a lone dash included. -/
  | plain (word : String)
  deriving DecidableEq, Repr

/-- The option of a word without its dashes. -/
def Word.ofName (cs : List Char) : Word :=
  match cs.dropWhile (· ≠ '=') with
  | [] => .name (String.ofList cs) none
  | _ :: value => .name (String.ofList (cs.takeWhile (· ≠ '='))) (some (String.ofList value))

/-- What kind of word it is. -/
def Word.ofString (word : String) : Word :=
  match word.toList with
  | ['-', '-'] => .endOfOptions
  | '-' :: '-' :: cs => .ofName cs
  | '-' :: c :: cs => .letters (c :: cs)
  | _ => .plain word

/-- Reads words after a draft; the option that `pending` names still needs its value. -/
def readWords (d : Draft) (pending : Option Param) : List String → Option Draft
  | [] => if pending.isNone then some d else none
  | word :: words =>
    match pending, Word.ofString word with
    | some p, .plain value => do readWords (← d.setParam p value) none words
    | some _, _ => none
    | none, .endOfOptions => d.addInputs words
    | none, .plain path => do readWords (← d.addInput path) none words
    | none, .letters cs => do
      let (d, pending) ← d.readLetters cs
      readWords d pending words
    | none, .name name value => do
      let (d, pending) ← d.readName name value
      readWords d pending words

/-- What a command line asks for; none if it is refused. -/
def Options.ofArguments (args : List String) : Option Options := do
  (← readWords {} none args).finish

end CommandLine
end ClassCompiler
