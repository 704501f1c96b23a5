import ClassCompiler.Tree.Basic

/-!
# Building trees by hand

A function for each construct of the language, in the order of children that the passes expect.  A
node built here stands nowhere; `Source.placedAt` places it.
-/

namespace ClassCompiler

namespace TypeName

def int : TypeName := ⟨"int", false⟩

def intArray : TypeName := ⟨"int", true⟩

def boolean : TypeName := ⟨"boolean", false⟩

def void : TypeName := ⟨"void", false⟩

/-- The type of the objects of a class. -/
def ofClass (name : String) : TypeName := ⟨name, false⟩

end TypeName

namespace Source

/-- A node over its children. -/
def of (kind : Kind) (children : List Source) : Source :=
  .node { kind } children

/-- A node without children. -/
def leaf (kind : Kind) : Source :=
  of kind []

/-- The tree with its root at a place. -/
def placedAt (line column : Nat) : Source → Source
  | .node n ts => .node { n with position := ⟨line, column⟩ } ts

/-- The tree with an attribute set at its root. -/
def withAttribute (name value : String) : Source → Source
  | .node n ts => .node { n with attributes := n.attributes.insert name value } ts

/-! ## Declarations -/

def program (imports : List Source) (classTree : Source) : Source :=
  of .program (imports ++ [classTree])

/-- An import, by its path with points. -/
def importOf (path : String) : Source :=
  leaf (.importDeclaration (path.splitOn "."))

def classOf (name : String) (superclass : Option String) (members : List Source) : Source :=
  of (.classDeclaration name superclass) members

def field (type : TypeName) (name : String) : Source :=
  leaf (.classField name type)

/-- A public method; its body holds locals and then statements. -/
def method (result : TypeName) (name : String) (args body : List Source) : Source :=
  of (.method name true) (leaf (.returnType result) :: args ++ body)

def entry (body : List Source) : Source :=
  of (.entry "args") body

def argument (type : TypeName) (name : String) : Source :=
  leaf (.argument name type)

def localVar (type : TypeName) (name : String) : Source :=
  leaf (.localVar name type)

/-! ## Statements -/

def block (statements : List Source) : Source :=
  of .block statements

def ifElse (condition : Source) (thenPart elsePart : List Source) : Source :=
  of .conditional [of .condition [condition], of .thenBranch thenPart, of .elseBranch elsePart]

def loop (condition : Source) (body : List Source) : Source :=
  of .loop (of .condition [condition] :: body)

def expression (e : Source) : Source :=
  of .expression [e]

def assign (name : String) (value : Source) : Source :=
  of (.assignment name) [value]

def assignElement (name : String) (index value : Source) : Source :=
  of (.arrayAssignment name) [index, value]

def returnValue (value : Source) : Source :=
  of .ret [value]

def returnVoid : Source :=
  leaf .ret

/-! ## Expressions -/

def int (value : Int32) : Source :=
  leaf (.integer value)

def boolean (value : Bool) : Source :=
  leaf (.boolean value)

def string (value : String) : Source :=
  leaf (.string value)

def identifier (name : String) : Source :=
  leaf (.identifier name)

def this : Source :=
  leaf .this

def className (name : String) : Source :=
  leaf (.className name)

def binary (op : BinaryOp) (left right : Source) : Source :=
  of (.binary op) [left, right]

def negation (operand : Source) : Source :=
  of .negation [operand]

def parenthesis (inner : Source) : Source :=
  of .parenthesis [inner]

def element (array index : Source) : Source :=
  of .arrayAccess [array, index]

def length (array : Source) : Source :=
  of .arrayLength [array]

def invoke (target : Source) (method : String) (args : List Source) : Source :=
  of (.invocation method) (target :: args)

def newArray (length : Source) : Source :=
  of .newArray [length]

def newObject (name : String) : Source :=
  leaf (.newObject name)

end Source
end ClassCompiler
