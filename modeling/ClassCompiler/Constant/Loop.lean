import ClassCompiler.Constant.Value

/-!
# Running loops on constants

What a loop leaves behind can be computed when its body does nothing but assign values that the
known constants determine.  The loop is then run on the constants.  If its guard becomes false soon
enough, the constants it ends with are exact; in every other case nothing is said about the
variables that the loop assigns.
-/

namespace ClassCompiler
namespace Constant

/-- A loop is run at most this many times. -/
def iterationLimit : Nat := 1000

/-- The names that are assigned anywhere in a tree. -/
def assignedNames (t : Ast) : List String :=
  t.preorder.filterMap fun n =>
    match n.kind with
    | .assignment name => some name
    | _ => none

mutual

/-- The assignments that a statement consists of, if it consists of assignments. -/
def straightLine : Ast → Option (List (String × Ast))
  | .node n ts =>
    match n.kind with
    | .assignment name =>
      match ts with
      | [] => none
      | v :: _ => some [(name, v)]
    | .block => straightLines ts
    | .localVar _ _ => some []
    | _ => none

/-- The assignments that statements consist of, one after another. -/
def straightLines : List Ast → Option (List (String × Ast))
  | [] => some []
  | t :: ts => do
    let steps ← straightLine t
    let rest ← straightLines ts
    some (steps ++ rest)

end

/-- The constants after assignments, if all their values are known. -/
def assignAll (ρ : Known) : List (String × Ast) → Option Known
  | [] => some ρ
  | (name, v) :: steps => do
    let value ← eval ρ v
    assignAll (ρ.set name value) steps

/-- Runs a loop: the guard is tested at most `tests` times. -/
def iterate (guard : Ast) (steps : List (String × Ast)) : Nat → Known → Option Known
  | 0, _ => none
  | tests + 1, ρ =>
    match eval ρ guard with
    | some (.bool false) => some ρ
    | some (.bool true) => (assignAll ρ steps).bind (iterate guard steps tests)
    | _ => none

/-- The expression that a loop tests. -/
def guardOf? : Ast → Option Ast
  | .node n ts =>
    match n.kind with
    | .condition => ts.head?
    | _ => some (.node n ts)

/-- The constants after a loop that assigns `written`, if it can be run on the known ones. -/
def simulate (tracked : String → Bool) (condition : Ast) (body : List Ast) (written : List String)
    (ρ : Known) : Option Known :=
  if written.all tracked then do
    let guard ← guardOf? condition
    let steps ← straightLines body
    iterate guard steps (iterationLimit + 1) ρ
  else none

end Constant
end ClassCompiler
