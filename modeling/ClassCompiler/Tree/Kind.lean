import ClassCompiler.Text.Quoted

/-!
# Kinds of syntax nodes

The closed set of nodes of a parsed class.  A kind carries what the parser attached to the node
itself: a name, an operator, a literal, a declared type.  What the node is made of are its children,
in this order:

* a program: import declarations, then the class;
* a class: fields and methods;
* a method: its return type, arguments, locals and statements; the entry method has no return type;
* a conditional: a condition, a then branch and an else branch;
* a loop: a condition, then the body;
* an array assignment: the index, then the value;
* an invocation: the target, then the arguments.

Nothing forces a tree into this order.  The passes that read trees say what they miss.
-/

namespace ClassCompiler

/-- A type as a declaration writes it. -/
structure TypeName where
  name : String
  isArray : Bool := false
  deriving DecidableEq, Repr

namespace TypeName

/-- The text of a declared type. -/
def text (t : TypeName) : String :=
  if t.isArray then t.name ++ "[]" else t.name

end TypeName

/-- The binary operators. -/
inductive BinaryOp where
  | add | sub | mul | div | and | or | lt | gt
  deriving DecidableEq, Repr

namespace BinaryOp

/-- The operator as it is written. -/
def symbol : BinaryOp → String
  | add => "+"
  | sub => "-"
  | mul => "*"
  | div => "/"
  | and => "&&"
  | or => "||"
  | lt => "<"
  | gt => ">"

/-- All operators. -/
def all : List BinaryOp :=
  [add, sub, mul, div, and, or, lt, gt]

/-- The operator that a symbol writes. -/
def ofSymbol? (s : String) : Option BinaryOp :=
  all.find? fun op => op.symbol == s

/-- Takes integers to an integer. -/
def isArithmetic : BinaryOp → Bool
  | add | sub | mul | div => true
  | _ => false

/-- Takes truth values to a truth value. -/
def isLogical : BinaryOp → Bool
  | and | or => true
  | _ => false

/-- Takes integers to a truth value. -/
def isComparison : BinaryOp → Bool
  | lt | gt => true
  | _ => false

end BinaryOp

/-- What a node is. -/
inductive Kind where
  | program
  | importDeclaration (path : List String)
  | classDeclaration (name : String) (superclass : Option String)
  | classField (name : String) (type : TypeName)
  | method (name : String) (isPublic : Bool)
  | entry (argument : String)
  | argument (name : String) (type : TypeName)
  | localVar (name : String) (type : TypeName)
  | returnType (type : TypeName)
  | block
  | conditional
  | thenBranch
  | elseBranch
  | loop
  | condition
  | expression
  | assignment (name : String)
  | arrayAssignment (name : String)
  | ret
  | binary (op : BinaryOp)
  | negation
  | arrayAccess
  | arrayLength
  | invocation (method : String)
  | newArray
  | newObject (className : String)
  | parenthesis
  | integer (value : Int32)
  | boolean (value : Bool)
  | identifier (name : String)
  | this
  | string (value : String)
  | className (name : String)
  deriving DecidableEq, Repr

namespace Kind

/-- The name of a kind in documents and messages. -/
def name : Kind → String
  | program => "Program"
  | importDeclaration _ => "ImportDeclaration"
  | classDeclaration _ _ => "ClassDeclaration"
  | classField _ _ => "ClassField"
  | method _ _ => "Method"
  | entry _ => "Main"
  | argument _ _ => "Argument"
  | localVar _ _ => "VarDeclaration"
  | returnType _ => "ReturnType"
  | block => "CodeBlock"
  | conditional => "Conditional"
  | thenBranch => "IfStatement"
  | elseBranch => "ElseStatement"
  | loop => "While"
  | condition => "Condition"
  | expression => "ExprStmt"
  | assignment _ => "Assignment"
  | arrayAssignment _ => "ArrayAssignment"
  | ret => "ReturnStatement"
  | binary _ => "BinaryOp"
  | negation => "Negation"
  | arrayAccess => "ArrayAccess"
  | arrayLength => "ArrayLength"
  | invocation _ => "MethodInvocation"
  | newArray => "ArrayInstantiation"
  | newObject _ => "CustomInstantiation"
  | parenthesis => "Parenthesis"
  | integer _ => "Integer"
  | boolean true => "True"
  | boolean false => "False"
  | identifier _ => "Identifier"
  | this => "CurrentObject"
  | string _ => "Literal"
  | className _ => "CustomType"

/-- The line that an outline shows for a node of this kind. -/
def text (k : Kind) : String :=
  match k with
  | importDeclaration path => k.name ++ " " ++ ".".intercalate path
  | classDeclaration name (some superclass) => s!"{k.name} {name} extends {superclass}"
  | classDeclaration name none => s!"{k.name} {name}"
  | classField name type => s!"{k.name} {type.text} {name}"
  | method name true => s!"{k.name} public {name}"
  | method name false => s!"{k.name} {name}"
  | entry arg => s!"{k.name} ({arg})"
  | argument name type => s!"{k.name} {type.text} {name}"
  | localVar name type => s!"{k.name} {type.text} {name}"
  | returnType type => s!"{k.name} {type.text}"
  | assignment name => s!"{k.name} {name}"
  | arrayAssignment name => s!"{k.name} {name}"
  | binary op => s!"{k.name} {op.symbol}"
  | invocation callee => s!"{k.name} .{callee}"
  | newObject created => s!"{k.name} {created}"
  | integer value => s!"{k.name} {value.toInt}"
  | identifier name => s!"{k.name} {name}"
  | string value => s!"{k.name} {Text.quote value}"
  | className name => s!"{k.name} {name}"
  | k => k.name

/-- An integer or truth value. -/
def isLiteral : Kind → Bool
  | integer _ | boolean _ => true
  | _ => false

/-- A method, the entry method included. -/
def isMethod : Kind → Bool
  | method _ _ | entry _ => true
  | _ => false

/-- A node that only declares a name or a type and never runs. -/
def isDeclaration : Kind → Bool
  | returnType _ | argument _ _ | localVar _ _ => true
  | _ => false

/-- The name of the method that the platform starts. -/
def entryName : String :=
  "main"

/-- The name that a method is known by. -/
def methodName? : Kind → Option String
  | method name _ => some name
  | entry _ => some entryName
  | _ => none

end Kind
end ClassCompiler
