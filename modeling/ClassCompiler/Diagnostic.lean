import ClassCompiler.Class.Type
import ClassCompiler.Error

/-!
# Diagnostics

What is wrong with a program is collected and not thrown: checking goes on, so that one run reports
every problem it can see.  A diagnostic is a problem at a place.  Its severity, the stage that
reports it and its wording are functions of the problem.

`Checked` is the type of a computation that reports on its way.  Diagnostics are only ever added at
the end, and an error that stops the computation keeps those reported before it.
-/

namespace ClassCompiler

/-- What a diagnostic is about. -/
inductive Problem where
  | repeatedField (name : String)
  | repeatedMethod (name className : String)
  | repeatedParameter (name method : String)
  | repeatedLocal (name method : String)
  | localNamedLikeParameter (name method : String)
  | unknownClass (name : String)
  | unsupportedArray (name : String)
  | unassignable (value : Ty) (name : String) (target : Ty)
  | notAnIntArray (name : String) (type : Ty)
  | indexNotInt (type : Ty)
  | elementNotInt (type : Ty)
  | conditionNotBoolean (type : Ty)
  | valueFromVoid (method : String)
  | wrongReturn (expected found : Ty)
  | missingReturnValue (method : String) (expected : Ty)
  | thisInStaticMethod
  | wrongOperands (op : BinaryOp) (left right : Ty)
  | negatedNonBoolean (type : Ty)
  | accessToNonArray (type : Ty)
  | lengthOfNonArray (type : Ty)
  | sizeNotInt (type : Ty)
  | unknownInstance (className : String)
  | notAnExpression (kind : Kind)
  | instanceMethodOfClass (method : String)
  | argumentCount (method : String) (expected found : Nat)
  | undeclaredMethod (method className : String)
  | notInvocable (method : String) (type : Ty)
  | unknownSymbol (name : String)
  | unknownVariable (name : String)
  | instanceFieldInStaticMethod (name : String)
  | constantDivisionByZero
  deriving DecidableEq, Repr

/-- How serious a problem is. -/
inductive Severity where
  | warning
  | error
  deriving DecidableEq, Repr

/-- The stage that finds a problem. -/
inductive Stage where
  | semantic
  | optimization
  deriving DecidableEq, Repr

namespace Problem

/-- Every problem is an error but one: a division by zero among constants may never be reached. -/
def severity : Problem → Severity
  | constantDivisionByZero => .warning
  | _ => .error

def stage : Problem → Stage
  | constantDivisionByZero => .optimization
  | _ => .semantic

/-- The wording of a problem. -/
def message : Problem → String
  | repeatedField name => s!"field '{name}' is already defined"
  | repeatedMethod name className =>
    s!"method '{name}' is already defined in class '{className}'"
  | repeatedParameter name method => s!"duplicate parameter '{name}' in method '{method}'"
  | repeatedLocal name method => s!"variable '{name}' is already defined in method '{method}'"
  | localNamedLikeParameter name method =>
    s!"variable '{name}' is already defined as a parameter of '{method}'"
  | unknownClass name => s!"cannot find class '{name}'"
  | unsupportedArray name => s!"arrays of {name} are not supported"
  | unassignable value name target =>
    s!"incompatible types: cannot assign {value.text} to '{name}' of type {target.text}"
  | notAnIntArray name type => s!"'{name}' of type {type.text} is not an int array"
  | indexNotInt type => s!"array index must be int, found {type.text}"
  | elementNotInt type => s!"array element must be int, found {type.text}"
  | conditionNotBoolean type => s!"condition must be boolean, found {type.text}"
  | valueFromVoid method => s!"method '{method}' returns void and cannot return a value"
  | wrongReturn expected found =>
    s!"incompatible return type: expected {expected.text}, found {found.text}"
  | missingReturnValue method expected =>
    s!"method '{method}' must return a value of type {expected.text}"
  | thisInStaticMethod => "'this' cannot be used in a static method"
  | wrongOperands op left right =>
    let expected := if op.isLogical then "boolean" else "int"
    s!"operator {op.symbol} requires {expected} operands, found {left.text} and {right.text}"
  | negatedNonBoolean type => s!"operator ! requires boolean, found {type.text}"
  | accessToNonArray type => s!"array access requires int[], found {type.text}"
  | lengthOfNonArray type => s!"length requires an array, found {type.text}"
  | sizeNotInt type => s!"array size must be int, found {type.text}"
  | unknownInstance className => s!"cannot instantiate unknown class '{className}'"
  | notAnExpression kind => s!"{kind.name} is not an expression"
  | instanceMethodOfClass method =>
    s!"non-static method '{method}' cannot be referenced from a static context"
  | argumentCount method expected found =>
    s!"method '{method}' expects {expected} argument(s), found {found}"
  | undeclaredMethod method className =>
    s!"method '{method}' is not declared in class '{className}'"
  | notInvocable method type => s!"cannot invoke '{method}' on a value of type {type.text}"
  | unknownSymbol name => s!"cannot find symbol '{name}'"
  | unknownVariable name => s!"cannot find variable '{name}'"
  | instanceFieldInStaticMethod name =>
    s!"non-static field '{name}' cannot be referenced from a static context"
  | constantDivisionByZero => "division by zero in constant expression; left unfolded"

end Problem

/-- A problem at a place. -/
structure Diagnostic where
  position : Position
  problem : Problem
  deriving DecidableEq, Repr

namespace Diagnostic

def isError (d : Diagnostic) : Bool :=
  d.problem.severity == .error

/-- The line that shows a diagnostic. -/
def text (d : Diagnostic) : String :=
  let severity := match d.problem.severity with
    | .warning => "warning"
    | .error => "error"
  let stage := match d.problem.stage with
    | .semantic => "semantic"
    | .optimization => "optimization"
  s!"{severity}[{stage}] {d.position.line}:{d.position.column}: {d.problem.message}"

/-- No diagnostic of the list is an error. -/
def accepted (ds : List Diagnostic) : Bool :=
  !ds.any isError

end Diagnostic

/-! ## Computations that report -/

/-- The diagnostics of a computation, and its value or the error that stopped it. -/
structure Checked (α : Type) where
  diagnostics : List Diagnostic
  outcome : Except Error α

namespace Checked

/-- A value, and nothing to report. -/
protected def pure {α : Type} (a : α) : Checked α :=
  ⟨[], .ok a⟩

/-- One computation after another.  The second is not run after an error. -/
protected def bind {α β : Type} (x : Checked α) (f : α → Checked β) : Checked β :=
  match x.outcome with
  | .ok a =>
    let y := f a
    ⟨x.diagnostics ++ y.diagnostics, y.outcome⟩
  | .error e => ⟨x.diagnostics, .error e⟩

instance : Monad Checked where
  pure := Checked.pure
  bind := Checked.bind

/-- Stops with an error. -/
def fail {α : Type} (e : Error) : Checked α :=
  ⟨[], .error e⟩

/-- Reports a problem at a node and goes on. -/
def report (n : Numbered) (p : Problem) : Checked Unit :=
  ⟨[⟨n.position, p⟩], .ok ()⟩

/-- A result that has nothing to report. -/
def ofExcept {α : Type} (outcome : Except Error α) : Checked α :=
  ⟨[], outcome⟩

end Checked
end ClassCompiler
