import ClassCompiler.Tree.Basic

/-!
# Constants

The values that a compiler can compute with: integers of 32 bits, whose arithmetic wraps around and
whose division rounds toward zero, and truth values.  A division by zero has no value.

* `Constant.binary?`: the value of a binary operation.
* `Constant.Known`: the constants that variables are known to hold.
* `Constant.eval`: the value of an expression over known variables.
-/

namespace ClassCompiler

/-- An integer or a truth value. -/
inductive Constant where
  | int (value : Int32)
  | bool (value : Bool)
  deriving DecidableEq, Repr

namespace Constant

/-- The constant that a literal node holds. -/
def ofKind? : Kind → Option Constant
  | .integer value => some (.int value)
  | .boolean value => some (.bool value)
  | _ => none

/-- The literal node that holds a constant. -/
def kind : Constant → Kind
  | .int value => .integer value
  | .bool value => .boolean value

/-- The value of a binary operation, where it has one. -/
def binary? : BinaryOp → Constant → Constant → Option Constant
  | .add, .int a, .int b => some (.int (a + b))
  | .sub, .int a, .int b => some (.int (a - b))
  | .mul, .int a, .int b => some (.int (a * b))
  | .div, .int a, .int b => if b = 0 then none else some (.int (a / b))
  | .and, .bool a, .bool b => some (.bool (a && b))
  | .or, .bool a, .bool b => some (.bool (a || b))
  | .lt, .int a, .int b => some (.bool (a < b))
  | .gt, .int a, .int b => some (.bool (b < a))
  | _, _, _ => none

/-- The negation of a truth value. -/
def negate? : Constant → Option Constant
  | .bool b => some (.bool !b)
  | .int _ => none

/-! ## Known variables -/

/-- The constants that variables are known to hold, each name once. -/
abbrev Known := List (String × Constant)

namespace Known

/-- The constant that a variable holds, if it is known. -/
def get? (ρ : Known) (name : String) : Option Constant :=
  ρ.lookup name

/-- Nothing is known about a variable any more. -/
def forget (ρ : Known) (name : String) : Known :=
  ρ.filter fun entry => entry.1 != name

/-- Nothing is known about some variables any more. -/
def forgetAll (ρ : Known) (names : List String) : Known :=
  ρ.filter fun entry => !names.contains entry.1

/-- A variable holds a constant now. -/
def set (ρ : Known) (name : String) (value : Constant) : Known :=
  (name, value) :: ρ.forget name

/-- What is known either way. -/
def agree (ρ σ : Known) : Known :=
  ρ.filter fun entry => σ.get? entry.1 == some entry.2

end Known

/-! ## Evaluation -/

/-- The value of an expression without operands: a known variable, or a literal. -/
def evalLeaf (ρ : Known) : Kind → Option Constant
  | .identifier name => ρ.get? name
  | kind => ofKind? kind

/-- The value of an expression, if the known variables give it one. -/
def eval (ρ : Known) : Ast → Option Constant
  | .node n ts =>
    match n.kind with
    | .parenthesis =>
      match ts with
      | [] => none
      | t :: _ => eval ρ t
    | .negation =>
      match ts with
      | [] => none
      | t :: _ => (eval ρ t).bind negate?
    | .binary op =>
      match ts with
      | l :: r :: _ => do
        let a ← eval ρ l
        let b ← eval ρ r
        binary? op a b
      | _ => none
    | kind => evalLeaf ρ kind

end Constant
end ClassCompiler
