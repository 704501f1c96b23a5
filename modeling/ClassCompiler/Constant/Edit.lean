import ClassCompiler.Constant.Value

/-!
# Replacing expressions by literals

Optimizing a tree means one thing only: an expression is replaced by a literal.  The literal is a
new node with the next free number, at the place of the expression and with its position; the
expression keeps its number and is no longer part of the tree.

A pass is a function on trees that keeps a log of what it replaced, in order.  The log is
enough to redo the replacements in another representation of the tree.
-/

namespace ClassCompiler
namespace Constant

/-- A node that was replaced, and the constant in its place. -/
structure Edit where
  node : Nat
  value : Constant
  deriving DecidableEq, Repr

/-- The replacements so far, the first one first, and the number that the next new node gets. -/
structure Log where
  next : Nat
  edits : List Edit := []
  deriving DecidableEq, Repr

/-- A computation that replaces nodes. -/
abbrev Replacing := StateM Log

/-- The literal that takes the place of a node. -/
def literal (id : Nat) (n : Numbered) (value : Constant) : Ast :=
  .node { kind := value.kind, position := n.position, id } []

/-- Replaces a node by a constant. -/
def replaceBy (n : Numbered) (value : Constant) : Replacing Ast := fun log =>
  (literal log.next n value, { next := log.next + 1, edits := log.edits ++ [⟨n.id, value⟩] })

end Constant
end ClassCompiler
