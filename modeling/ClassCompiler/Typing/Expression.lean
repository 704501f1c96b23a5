import ClassCompiler.Typing.Context

/-!
# The types of expressions

`infer` gives an expression its type.  It gives none once a rule is broken somewhere in the
expression; what was broken is reported by then, so that the expressions around it stay quiet and
checking goes on.  Only a tree that lacks a child stops it.
-/

namespace ClassCompiler
namespace Typing

/-- The operands that a binary operator takes and the type that it gives. -/
def inferBinary (n : Numbered) (op : BinaryOp) : Option Ty → Option Ty → Checked (Option Ty)
  | some left, some right =>
    let fits :=
      if op.isLogical then left.isBoolean && right.isBoolean else left.isInt && right.isInt
    if fits then return some (if op.isArithmetic then .int else .boolean)
    else do
      Checked.report n (.wrongOperands op left right)
      return none
  | _, _ => return none

/-- An operand that must satisfy a test for the expression to have its type. -/
def inferUnary (n : Numbered) (fits : Ty → Bool) (result : Ty) (problem : Ty → Problem) :
    Option Ty → Checked (Option Ty)
  | some type =>
    if fits type then return some result
    else do
      Checked.report n (problem type)
      return none
  | none => return none

/-- The element of an array.  A wrong array is reported before a wrong index. -/
def inferAccess (n : Numbered) (base index : Option Ty) : Checked (Option Ty) :=
  match base, index with
  | some base, index =>
    if !base.isIntArray then do
      Checked.report n (.accessToNonArray base)
      return none
    else
      match index with
      | some index =>
        if index.isInt then return some .int
        else do
          Checked.report n (.indexNotInt index)
          return none
      | none => return none
  | none, some index =>
    if index.isInt then return none
    else do
      Checked.report n (.indexNotInt index)
      return none
  | none, none => return none

/-- A class name in the place of a value or behind `new`. -/
def inferClass (Γ : Context) (n : Numbered) (name : String) (problem : Problem) :
    Checked (Option Ty) :=
  match Γ.table.classReference? name with
  | some type => return some type
  | none => do
    Checked.report n problem
    return none

/-- The call of a method of the class itself. -/
def inferOwnCall (Γ : Context) (n : Numbered) (method : String) (throughName : Bool)
    (argCount : Nat) : Checked (Option Ty) :=
  match Γ.table.method? method with
  | some info => do
    if !info.isStatic && throughName then
      Checked.report n (.instanceMethodOfClass method)
    if info.parameters.length ≠ argCount then
      Checked.report n (.argumentCount method info.parameters.length argCount)
    return some { info.returnType with origin := .method }
  | none =>
    match Γ.table.superclass with
    | some superclass => return some ⟨superclass, false, .extension⟩
    | none => do
      Checked.report n (.undeclaredMethod method Γ.table.className)
      return none

/-- A call on a target of a known type.  A method of a class that cannot be seen is taken to give a
value of that class. -/
def inferCall (Γ : Context) (n : Numbered) (method : String) (target : Ty) (throughName : Bool)
    (argCount : Nat) : Checked (Option Ty) :=
  if target.origin = .this ∨ (!target.isArray ∧ target.name = Γ.table.className) then
    inferOwnCall Γ n method throughName argCount
  else if target.isArray ∨ target.name = "int" ∨ target.name = "boolean" ∨
      target.name = "void" then do
    Checked.report n (.notInvocable method target)
    return none
  else return some target

/-- The type of an expression without operands, if it has one. -/
def inferLeaf (Γ : Context) (n : Numbered) : Kind → Checked (Option Ty)
  | .integer _ => return some .int
  | .boolean _ => return some .boolean
  | .string _ => return some .string
  | .identifier name => Γ.identifier? n name
  | .className name => inferClass Γ n name (.unknownClass name)
  | .this =>
    if Γ.inStaticMethod then do
      Checked.report n .thisInStaticMethod
      return none
    else return some (.this Γ.table.className)
  | .newObject name => inferClass Γ n name (.unknownInstance name)
  | kind => do
    Checked.report n (.notAnExpression kind)
    return none

mutual

/-- The type of an expression, if it has one. -/
def infer (Γ : Context) : Ast → Checked (Option Ty)
  | .node n ts =>
    match n.kind with
    | .parenthesis =>
      match ts with
      | [] => Checked.fail (.missing n 0 "inner expression")
      | t :: _ => infer Γ t
    | .binary op =>
      match ts with
      | [] => Checked.fail (.missing n 0 "left operand")
      | l :: rest => do
        let left ← infer Γ l
        match rest with
        | [] => Checked.fail (.missing n 1 "right operand")
        | r :: _ =>
          let right ← infer Γ r
          inferBinary n op left right
    | .negation =>
      match ts with
      | [] => Checked.fail (.missing n 0 "operand")
      | t :: _ => do inferUnary n Ty.isBoolean .boolean .negatedNonBoolean (← infer Γ t)
    | .arrayAccess =>
      match ts with
      | [] => Checked.fail (.missing n 0 "array")
      | a :: rest => do
        let base ← infer Γ a
        match rest with
        | [] => Checked.fail (.missing n 1 "index")
        | i :: _ =>
          let index ← infer Γ i
          inferAccess n base index
    | .arrayLength =>
      match ts with
      | [] => Checked.fail (.missing n 0 "array")
      | t :: _ => do inferUnary n Ty.isArray .int .lengthOfNonArray (← infer Γ t)
    | .newArray =>
      match ts with
      | [] => Checked.fail (.missing n 0 "length")
      | t :: _ => do inferUnary n Ty.isInt .intArray .sizeNotInt (← infer Γ t)
    | .invocation method =>
      match ts with
      | [] => Checked.fail (.missing n 0 "invocation target")
      | t :: args => do
        let target ← infer Γ t
        inferArgs Γ args
        match target with
        | none => return none
        | some target => inferCall Γ n method target (namesOwnClass Γ t) args.length
    | kind => inferLeaf Γ n kind

/-- Checks the arguments of a call.  Their types are compared with nothing. -/
def inferArgs (Γ : Context) : List Ast → Checked Unit
  | [] => return ()
  | t :: ts => do
    let _ ← infer Γ t
    inferArgs Γ ts

end

end Typing
end ClassCompiler
