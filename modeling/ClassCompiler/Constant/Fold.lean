import ClassCompiler.Constant.Edit
import ClassCompiler.Diagnostic

/-!
# Folding

A binary operation of two literals, the negation of a literal and a literal in parentheses are each
replaced by one literal.  A pass goes from the leaves up and from right to left, so an operand has
been folded before the operation that holds it is looked at.  The root of the tree that is folded
stays.

A division by a literal zero has no value and is left as it is, with a warning.  A node is warned
about once, however often folding comes by; that is why the numbers of the nodes warned about are
kept.
-/

namespace ClassCompiler
namespace Constant

/-- What folding keeps from one pass to the next. -/
structure FoldState where
  log : Log
  /-- The nodes that were warned about. -/
  warned : List Nat := []
  diagnostics : List Diagnostic := []

/-- A computation that folds. -/
abbrev Folding := StateM FoldState

namespace FoldState

/-- The number of replacements so far. -/
def count (s : FoldState) : Nat :=
  s.log.edits.length

/-- A warning about a division by zero, unless there was one. -/
def warn (n : Numbered) (s : FoldState) : FoldState :=
  if s.warned.contains n.id then s
  else
    { s with
      warned := n.id :: s.warned
      diagnostics := s.diagnostics ++ [⟨n.position, .constantDivisionByZero⟩] }

end FoldState

/-- Replacing as part of folding. -/
def Replacing.lift {α : Type} (r : Replacing α) : Folding α := fun s =>
  let (a, log) := r s.log
  (a, { s with log })

/-- A division of literals whose divisor is zero. -/
def dividesByZero (op : BinaryOp) (ts : List Ast) : Bool :=
  match op, ts with
  | .div, l :: r :: _ => (ofKind? l.kind).isSome && ofKind? r.kind == some (.int 0)
  | _, _ => false

/-- The constant that a node folds to when its children are folded. -/
def foldedValue? (kind : Kind) (ts : List Ast) : Option Constant :=
  match kind, ts with
  | .binary op, l :: r :: _ => do
    let a ← ofKind? l.kind
    let b ← ofKind? r.kind
    binary? op a b
  | .negation, t :: _ => (ofKind? t.kind).bind negate?
  | .parenthesis, [t] => ofKind? t.kind
  | _, _ => none

/-- Warns if the node divides by zero. -/
def warnDivision (n : Numbered) (ts : List Ast) : Folding Unit :=
  match n.kind with
  | .binary op => if dividesByZero op ts then modify (FoldState.warn n) else pure ()
  | _ => pure ()

mutual

/-- Folds a tree that may be replaced itself. -/
def foldSlot : Ast → Folding Ast
  | .node n ts => do
    let ts ← foldSlots ts
    warnDivision n ts
    match foldedValue? n.kind ts with
    | some value => (replaceBy n value).lift
    | none => return .node n ts

/-- Folds trees that follow one another, the last one first. -/
def foldSlots : List Ast → Folding (List Ast)
  | [] => return []
  | t :: ts => do
    let ts ← foldSlots ts
    let t ← foldSlot t
    return t :: ts

end

/-- One pass over a tree whose root stays. -/
def foldPass : Ast → Folding Ast
  | .node n ts => do
    let ts ← foldSlots ts
    warnDivision n ts
    return .node n ts

/-- Passes until one replaces nothing. -/
def foldPasses : Nat → Ast → Folding Ast
  | 0, t => return t
  | fuel + 1, t => do
    let before := (← get).count
    let t ← foldPass t
    if (← get).count = before then return t else foldPasses fuel t

/-- Folds a tree.  Every replacement makes the tree smaller, so there are no more passes than
nodes. -/
def fold (t : Ast) : Folding Ast :=
  foldPasses t.size t

end Constant
end ClassCompiler
