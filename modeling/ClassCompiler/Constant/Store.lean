import ClassCompiler.Constant.Optimize
import ClassCompiler.Tree.Store

/-!
# Constants in a store

The value of a node is that of the tree below it, as deep as it can matter.

The passes on trees keep a log of what they replaced, in order and with the numbers that the new
nodes get.  Here the log is redone in a store: each replacement adds a literal and puts it in the
place of the node.
-/

namespace ClassCompiler
namespace Store

open Constant (Edit FoldState Known)

/-- The value of the expression at a node, if the known variables give it one.  A value that does
not depend on itself is found no deeper than the store has nodes. -/
def eval (s : Store) (ρ : Known) (id : Nat) : Except Error (Option Constant) := do
  return Constant.eval ρ (← s.treeUpTo s.size id)

/-- Replaces a node by a literal at its position. -/
def replaceByLiteral (s : Store) (e : Edit) : Except Error Store := do
  let c ← s.cell e.node
  let (s, new) := s.add { kind := e.value.kind, position := c.node.position }
  s.replaceNode e.node new

/-- Redoes replacements.  One that is not possible is passed over; in the store that the log was
made from all are possible. -/
def redo (s : Store) (edits : List Edit) : Store :=
  edits.foldl (fun s e => (s.replaceByLiteral e).toOption.getD s) s

/-- Folds the tree below a node.  `warned` are the nodes that were warned about before. -/
def fold (s : Store) (id : Nat) (warned : List Nat) : Except Error (Store × FoldState) := do
  let t ← s.treeAt id
  let (_, state) := (Constant.fold t).run { log := { next := s.size }, warned }
  return (s.redo state.log.edits, state)

/-- Propagates constants through the class; gives the number of replacements. -/
def propagate (s : Store) (T : ClassTable) : Store × Except Error Nat :=
  match s.treeAt root with
  | .error e => (s, .error e)
  | .ok t =>
    let ((_, outcome), log) := (Constant.propagate T t).run { next := s.size }
    (s.redo log.edits, outcome.map fun _ => log.edits.length)

/-- Optimizes the tree; gives the warnings and the number of replacements. -/
def optimize (s : Store) (T : ClassTable) : Store × List Diagnostic × Except Error Nat :=
  match s.treeAt root with
  | .error e => (s, [], .error e)
  | .ok t =>
    let result := Constant.optimize T s.size t
    (s.redo result.log.edits, result.diagnostics, result.outcome)

end Store
end ClassCompiler
