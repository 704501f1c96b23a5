import ClassCompiler.Error
import ClassCompiler.Json.Reader
import ClassCompiler.Json.Writer

/-!
# Trees as JSON documents

A node is an object: its `kind`, the members that belong to the kind, and, where they say something,
`children`, `line`, `col` and `attrs`.

Writing is uniform.  Reading is liberal where a document may have been written by someone else: the
order of members is free, members that a node does not know are passed over, defaults may be left
out, a kind may be given by its place in the list of kinds, a declared type as a list and an
operator as the name of an only member.  It is strict elsewhere: a member that a node does know
occurs once, numbers are integers of their range, and `null` stands for nothing but a missing
superclass.

* `Document.toValue`, `Document.write`: a tree as a value and as text.
* `Document.ofValue`, `Document.read`: the way back.
-/

namespace ClassCompiler
namespace Document

open Json (Value)

/-! ## Writing -/

/-- A declared type. -/
def typeValue (t : TypeName) : Value :=
  .object [("name", .string t.name), ("isArray", .bool t.isArray)]

/-- The members that belong to a kind. -/
def payload : Kind → List (String × Value)
  | .importDeclaration path => [("path", .array (path.map Value.string))]
  | .classDeclaration name superclass =>
    [("name", .string name), ("extends", Value.ofOption Value.string superclass)]
  | .classField name type => [("name", .string name), ("ty", typeValue type)]
  | .method name isPublic => [("name", .string name), ("isPublic", .bool isPublic)]
  | .entry argument => [("argName", .string argument)]
  | .argument name type => [("name", .string name), ("ty", typeValue type)]
  | .localVar name type => [("name", .string name), ("ty", typeValue type)]
  | .returnType type => [("ty", typeValue type)]
  | .assignment name => [("name", .string name)]
  | .arrayAssignment name => [("name", .string name)]
  | .binary op => [("op", .string op.symbol)]
  | .invocation method => [("method", .string method)]
  | .newObject className => [("class", .string className)]
  | .integer value => [("value", .int value.toInt)]
  | .identifier name => [("name", .string name)]
  | .string value => [("value", .string value)]
  | .className name => [("name", .string name)]
  | _ => []

/-- The members of a node over the values of its children. -/
def nodeMembers (n : Node) (children : List Value) : List (String × Value) :=
  ("kind", .string n.kind.name) :: payload n.kind
    ++ (if children.isEmpty then [] else [("children", .array children)])
    ++ [("line", .nat n.position.line), ("col", .nat n.position.column)]
    ++ (if n.attributes.isEmpty then []
        else [("attrs", .object (n.attributes.map fun a => (a.1, .string a.2)))])

mutual

/-- A tree as a value. -/
def toValue : Source → Value
  | .node n ts => .object (nodeMembers n (toValues ts))

/-- Trees that follow one another, as values. -/
def toValues : List Source → List Value
  | [] => []
  | t :: ts => toValue t :: toValues ts

end

/-- The text of a tree. -/
def write (t : Source) : String :=
  Json.prettyText (toValue t)

/-! ## Reading -/

/-- The names of the kinds, in the order that numbers them. -/
def kindNames : List String :=
  ["Program", "ImportDeclaration", "ClassDeclaration", "ClassField", "Method", "Main", "Argument",
    "VarDeclaration", "ReturnType", "CodeBlock", "Conditional", "IfStatement", "ElseStatement",
    "While", "Condition", "ExprStmt", "Assignment", "ArrayAssignment", "ReturnStatement",
    "BinaryOp", "Negation", "ArrayAccess", "ArrayLength", "MethodInvocation",
    "ArrayInstantiation", "CustomInstantiation", "Parenthesis", "Integer", "True", "False",
    "Identifier", "CurrentObject", "Literal", "CustomType"]

/-- The members of an object, in order. -/
abbrev Members := List (String × Value)

/-- The value of a member that may be missing; `none` if it is repeated. -/
def optional (members : Members) (name : String) : Option (Option Value) :=
  match members.filter fun m => m.1 == name with
  | [] => some none
  | [m] => some (some m.2)
  | _ => none

/-- The value of a member that must be there once. -/
def required (members : Members) (name : String) : Option Value := do
  ← optional members name

/-- A text that must be there. -/
def textOf (members : Members) (name : String) : Option String := do
  (← required members name).string?

/-- An integer from `low` to `high`. -/
def integerIn (low high : Int) (v : Value) : Option Int := do
  let n ← v.int?
  if low ≤ n ∧ n ≤ high then some n else none

/-- All values read, or none. -/
def readAll {α : Type} (read : Value → Option α) : List Value → Option (List α)
  | [] => some []
  | v :: vs => do
    let a ← read v
    let rest ← readAll read vs
    some (a :: rest)

/-- A declared type, as an object or as a list. -/
def readType : Value → Option TypeName
  | .object members => do
    let name ← textOf members "name"
    let isArray ← match ← optional members "isArray" with
      | none => some false
      | some v => v.bool?
    some ⟨name, isArray⟩
  | .array [.string name] => some ⟨name, false⟩
  | .array [.string name, .bool isArray] => some ⟨name, isArray⟩
  | _ => none

/-- A declared type that must be there. -/
def typeOf (members : Members) : Option TypeName := do
  readType (← required members "ty")

/-- An operator, by its symbol or as the name of an only member that says nothing. -/
def readOp : Value → Option BinaryOp
  | .string symbol => BinaryOp.ofSymbol? symbol
  | .object [(symbol, .null)] => BinaryOp.ofSymbol? symbol
  | .object [(symbol, .object [])] => BinaryOp.ofSymbol? symbol
  | _ => none

/-- The name of a kind, by itself or by its place among the kinds. -/
def readKindName : Value → Option String
  | .string name => some name
  | .number (.integer (.ofNat n)) => kindNames[n]?
  | _ => none

/-- The kind of that name with what its members say. -/
def readKind (name : String) (members : Members) : Option Kind :=
  match name with
  | "Program" => some .program
  | "ImportDeclaration" => do
    let items ← (← required members "path").items?
    some (.importDeclaration (← readAll Value.string? items))
  | "ClassDeclaration" => do
    let name ← textOf members "name"
    match ← optional members "extends" with
    | none => some (.classDeclaration name none)
    | some .null => some (.classDeclaration name none)
    | some (.string superclass) => some (.classDeclaration name (some superclass))
    | some _ => none
  | "ClassField" => do some (.classField (← textOf members "name") (← typeOf members))
  | "Method" => do
    let name ← textOf members "name"
    let isPublic ← match ← optional members "isPublic" with
      | none => some true
      | some v => v.bool?
    some (.method name isPublic)
  | "Main" => do
    let argument ← match ← optional members "argName" with
      | none => some "args"
      | some v => v.string?
    some (.entry argument)
  | "Argument" => do some (.argument (← textOf members "name") (← typeOf members))
  | "VarDeclaration" => do some (.localVar (← textOf members "name") (← typeOf members))
  | "ReturnType" => do some (.returnType (← typeOf members))
  | "CodeBlock" => some .block
  | "Conditional" => some .conditional
  | "IfStatement" => some .thenBranch
  | "ElseStatement" => some .elseBranch
  | "While" => some .loop
  | "Condition" => some .condition
  | "ExprStmt" => some .expression
  | "Assignment" => do some (.assignment (← textOf members "name"))
  | "ArrayAssignment" => do some (.arrayAssignment (← textOf members "name"))
  | "ReturnStatement" => some .ret
  | "BinaryOp" => do some (.binary (← readOp (← required members "op")))
  | "Negation" => some .negation
  | "ArrayAccess" => some .arrayAccess
  | "ArrayLength" => some .arrayLength
  | "MethodInvocation" => do some (.invocation (← textOf members "method"))
  | "ArrayInstantiation" => some .newArray
  | "CustomInstantiation" => do some (.newObject (← textOf members "class"))
  | "Parenthesis" => some .parenthesis
  | "Integer" => do
    let n ← integerIn (-2147483648) 2147483647 (← required members "value")
    some (.integer (Int32.ofInt n))
  | "True" => some (.boolean true)
  | "False" => some (.boolean false)
  | "Identifier" => do some (.identifier (← textOf members "name"))
  | "CurrentObject" => some .this
  | "Literal" => do some (.string (← textOf members "value"))
  | "CustomType" => do some (.className (← textOf members "name"))
  | _ => none

/-- A coordinate; zero if it is missing. -/
def coordinate (members : Members) (name : String) : Option Nat := do
  match ← optional members name with
  | none => some 0
  | some v => some (← integerIn 0 18446744073709551615 v).toNat

/-- Attributes, the last one of a name. -/
def readAttributes (soFar : Attributes) : Members → Option Attributes
  | [] => some soFar
  | (name, v) :: rest => do
    let value ← v.string?
    readAttributes (soFar.insert name value) rest

/-- The kind that the members of an object describe, whatever else they say. -/
def kindOf (members : Members) : Option Kind := do
  let name ← readKindName (← required members "kind")
  readKind name members

/-- A node by itself.  Its children are read elsewhere, but they too may be given only once. -/
def readNode (members : Members) : Option Node := do
  let kind ← kindOf members
  let _ ← optional members "children"
  let line ← coordinate members "line"
  let column ← coordinate members "col"
  let attributes ← match ← optional members "attrs" with
    | none => some []
    | some v => readAttributes [] (← v.members?)
  some { kind, position := ⟨line, column⟩, attributes }

mutual

/-- The tree that a value stands for. -/
def ofValue : Value → Option Source
  | .object members => do
    let node ← readNode members
    let children ← childrenOf members
    some (.node node children)
  | _ => none

/-- The children among the members of a node. -/
def childrenOf : List (String × Value) → Option (List Source)
  | [] => some []
  | (name, v) :: rest =>
    if name = "children" then
      match v with
      | .array items => ofValues items
      | _ => none
    else childrenOf rest

/-- The trees that values stand for. -/
def ofValues : List Value → Option (List Source)
  | [] => some []
  | v :: vs => do
    let t ← ofValue v
    let ts ← ofValues vs
    some (t :: ts)

end

/-- Arrays and objects of a document nest no deeper. -/
def maxDepth : Nat := 127

/-- The tree that a text stands for. -/
def read (text : String) : Except Error Source :=
  match (Json.read maxDepth text).bind ofValue with
  | some t => .ok t
  | none => .error .badDocument

/-- The tree that bytes stand for; they must be a text in UTF-8. -/
def readBytes (bytes : ByteArray) : Except Error Source :=
  match String.fromUTF8? bytes with
  | some text => read text
  | none => .error .unreadable

end Document
end ClassCompiler
