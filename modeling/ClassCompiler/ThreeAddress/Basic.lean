import ClassCompiler.Tree.Kind

/-!
# Three-address code

The form between the tree and the machine: a method is a flat list of instructions over typed
operands.  Control structure survives only as labels, jumps and branches.  A value that an
expression needs on the way is held by a temporary, which is assigned once; the variables of the
program may be assigned again.
-/

namespace ClassCompiler
namespace ThreeAddress

/-- The types of values.  Arrays exist only of integers and strings. -/
inductive ValueType where
  | int
  | bool
  | intArray
  | stringArray
  | string
  | object (className : String)
  | void
  deriving DecidableEq, Repr

namespace ValueType

/-- Handled by reference. -/
def isReference : ValueType → Bool
  | intArray | stringArray | string | object _ => true
  | int | bool | void => false

end ValueType

/-- A named place with its type: a variable, a temporary, a parameter or a field. -/
structure Var where
  name : String
  type : ValueType
  deriving DecidableEq, Repr

/-- What an instruction reads. -/
inductive Operand where
  | int (value : Int32)
  | bool (value : Bool)
  | string (value : String)
  | var (var : Var)
  /-- The receiver, with the class it belongs to. -/
  | this (className : String)
  /-- A class that a static call names. -/
  | classRef (name : String)
  deriving DecidableEq, Repr

namespace Operand

/-- The type of an operand. -/
def type : Operand → ValueType
  | int _ => .int
  | bool _ => .bool
  | string _ => .string
  | var v => v.type
  | this className => .object className
  | classRef name => .object name

/-- The variable that an operand names. -/
def var? : Operand → Option Var
  | var v => some v
  | _ => none

/-- A constant written in the instruction. -/
def isLiteral : Operand → Bool
  | int _ | bool _ | string _ => true
  | _ => false

end Operand

/-- Whether a method is found through a class or through an object. -/
inductive CallKind where
  | static
  | virtual
  deriving DecidableEq, Repr

/-- A call with the signature it is made under. -/
structure Call where
  kind : CallKind
  target : Operand
  method : String
  args : List Operand
  /-- The types of the parameters, one for each argument. -/
  params : List ValueType
  result : ValueType
  deriving DecidableEq, Repr

/-- The right-hand side of an assignment. -/
inductive Rhs where
  | operand (value : Operand)
  | binary (op : BinaryOp) (left right : Operand)
  | not (value : Operand)
  | call (call : Call)
  | getField (object : Operand) (field : Var)
  | arrayLength (array : Operand)
  | arrayLoad (array : Var) (index : Operand)
  /-- Allocation and the constructor without arguments. -/
  | newObject (className : String)
  | newArray (length : Operand)
  deriving DecidableEq, Repr

/-- An instruction. -/
inductive Instr where
  | assign (dest : Var) (rhs : Rhs)
  | arrayStore (array : Var) (index value : Operand)
  | call (call : Call)
  | putField (object : Operand) (field : Var) (value : Operand)
  | ret (value : Option Operand)
  | jump (label : String)
  /-- Jumps when the condition is true, or when it is false if `negated`. -/
  | branch (cond : Operand) (negated : Bool) (label : String)
  | label (name : String)
  /-- Reads its operand and does nothing. -/
  | noop (value : Operand)
  deriving DecidableEq, Repr

namespace Instr

/-- Control never goes on to the instruction after this one. -/
def isTerminator : Instr → Bool
  | ret _ | jump _ => true
  | _ => false

/-- The label that an instruction jumps to. -/
def target? : Instr → Option String
  | jump name => some name
  | branch _ _ name => some name
  | _ => none

/-- The label that an instruction sets. -/
def label? : Instr → Option String
  | label name => some name
  | _ => none

/-- The variable that an instruction assigns. -/
def dest? : Instr → Option Var
  | assign dest _ => some dest
  | _ => none

end Instr

/-- A method. -/
structure Method where
  name : String
  isStatic : Bool
  params : List Var
  locals : List Var
  result : ValueType
  code : List Instr
  deriving DecidableEq, Repr

/-- A class. -/
structure ClassCode where
  name : String
  superclass : Option String
  imports : List String
  fields : List Var
  methods : List Method
  deriving DecidableEq, Repr

namespace ClassCode

/-- The first method of that name. -/
def method? (c : ClassCode) (name : String) : Option Method :=
  c.methods.find? fun m => m.name == name

end ClassCode

end ThreeAddress
end ClassCompiler
