import ClassCompiler.ThreeAddress.Text
import ClassCompiler.Tree.Basic

/-!
# Errors

An error stops the work on a class: the tree or the code does not have the shape that a pass needs,
a type has no counterpart in the target, a setting cannot be read.  What is wrong with the program
itself is reported as a diagnostic instead, and the work goes on.

An error is its cause.  The wording of all causes stands in this file.
-/

namespace ClassCompiler

open ThreeAddress (Operand)

/-- What is wrong with a tree at a node. -/
inductive TreeFault where
  /-- A node of that kind needs a child at that index. -/
  | missingChild (kind : Kind) (expected : String) (index : Nat)
  | alreadyAttached
  | noChildToReplace (index : Nat)
  | noParent
  | notListed
  | noClass
  | unexpectedMember (kind : Kind)
  | noReturnType (method : String)
  | unknownMethod (method : String)
  | undeclaredTarget (name : String)
  | unresolvedIdentifier (name : String)
  | notAnExpression (kind : Kind)
  | notIndexable (operand : Operand)
  deriving DecidableEq, Repr

/-- What is wrong with the three-address code of a method. -/
inductive CodeFault where
  | repeatedLabel (label : String)
  | undefinedLabel (label : String)
  | noSlot (name : String)
  | staticCallThroughValue (target : Operand)
  | argumentCount (method : String) (args params : Nat)
  | thisInStaticMethod
  | classAsValue (name : String)
  deriving DecidableEq, Repr

/-- A setting with a value that does not fit it. -/
inductive SettingFault where
  | notBoolean (key value : String)
  | notInteger (key value : String)
  deriving DecidableEq, Repr

/-- Why the work on a class stopped. -/
inductive Error where
  /-- The file is missing or its bytes are no text. -/
  | unreadable
  /-- The text is no document of a tree. -/
  | badDocument
  | malformedTree (node : Nat) (fault : TreeFault)
  | malformedCode (method : String) (fault : CodeFault)
  | unknownType (name : String)
  | tooManySlots
  | badSetting (fault : SettingFault)
  /-- No node of a store has this number, or what is below it never ends. -/
  | noSuchNode (node : Nat)
  deriving DecidableEq, Repr

namespace TreeFault

/-- The wording of a fault of a tree. -/
def message : TreeFault → String
  | missingChild kind expected index =>
    s!"{kind.name} is missing its {expected} (child #{index})"
  | alreadyAttached => "node is already attached to the tree"
  | noChildToReplace index => s!"no child at position {index} to replace"
  | noParent => "cannot replace a node without a parent"
  | notListed => "node is not listed among its parent's children"
  | noClass => "program has no class declaration"
  | unexpectedMember kind => s!"unexpected {kind.name} in class body"
  | noReturnType method => s!"method '{method}' has no return type"
  | unknownMethod method => s!"method '{method}' is missing from the symbol table"
  | undeclaredTarget name => s!"assignment to undeclared variable '{name}'"
  | unresolvedIdentifier name => s!"unresolved identifier '{name}' reached IR generation"
  | notAnExpression kind => s!"{kind.name} cannot be lowered as an expression"
  | notIndexable operand => s!"cannot index into {operand.text}"

end TreeFault

namespace CodeFault

/-- The wording of a fault of code. -/
def message : CodeFault → String
  | repeatedLabel label => s!"label {label} defined twice"
  | undefinedLabel label => s!"jump to undefined label {label}"
  | noSlot name => s!"variable {name} has no slot"
  | staticCallThroughValue target => s!"static call through a value {target.text}"
  | argumentCount method args params =>
    s!"call to {method} passes {args} argument(s) for {params} parameter(s)"
  | thisInStaticMethod => "'this' used in a static method"
  | classAsValue name => s!"class {name} used as a value"

end CodeFault

namespace SettingFault

/-- The wording of a fault of a setting. -/
def message : SettingFault → String
  | notBoolean key value => s!"'{key}' expects a boolean, found '{value}'"
  | notInteger key value => s!"'{key}' expects an integer, found '{value}'"

end SettingFault

namespace Error

/-- The wording of an error. -/
def message : Error → String
  | unreadable => "the file cannot be read as text"
  | badDocument => "the text is no document of a tree"
  | malformedTree node fault => s!"Malformed AST at node {node}: {fault.message}"
  | malformedCode method fault => s!"Malformed IR in method {method}: {fault.message}"
  | unknownType name => s!"Unknown type '{name}' cannot be mapped to a descriptor"
  | tooManySlots => "Unsupported construct: more than 65535 local variable slots"
  | badSetting fault => "Configuration error: " ++ fault.message
  | noSuchNode node => s!"there is no tree at node {node}"

/-- A node lacks the child at an index. -/
def missing (n : Numbered) (index : Nat) (expected : String) : Error :=
  .malformedTree n.id (.missingChild n.kind expected index)

end Error
end ClassCompiler
