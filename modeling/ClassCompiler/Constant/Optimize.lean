import ClassCompiler.Constant.Fold
import ClassCompiler.Constant.Propagate

/-!
# Optimizing

Folding makes literals for propagation to carry, and propagation makes operations for folding to
compute.  The two alternate until a round replaces nothing, for a bounded number of rounds.
-/

namespace ClassCompiler
namespace Constant

/-- The number of rounds at most. -/
def roundLimit : Nat := 32

/-- Rounds of folding and propagation. -/
def rounds (T : ClassTable) : Nat → Ast → Folding (Ast × Except Error Unit)
  | 0, t => return (t, .ok ())
  | left + 1, t => do
    let before := (← get).count
    let t ← fold t
    let (t, outcome) ← (propagate T t).lift
    match outcome with
    | .error e => return (t, .error e)
    | .ok () =>
      if (← get).count = before then return (t, .ok ()) else rounds T left t

/-- A tree after optimizing: what was replaced, what was reported, and the number of replacements
unless an error ended the work. -/
structure Optimized where
  tree : Ast
  log : Log
  diagnostics : List Diagnostic
  outcome : Except Error Nat

/-- Optimizes a tree whose new nodes are numbered from `next` on. -/
def optimize (T : ClassTable) (next : Nat) (t : Ast) : Optimized :=
  let ((tree, outcome), state) := (rounds T roundLimit t).run { log := { next } }
  { tree, log := state.log, diagnostics := state.diagnostics,
    outcome := outcome.map fun _ => state.count }

end Constant
end ClassCompiler
