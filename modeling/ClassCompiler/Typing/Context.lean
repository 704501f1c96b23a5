import ClassCompiler.Class.Declarations

/-!
# What a method body is checked against

The symbol table of the class together with the method that is being checked.  The questions here
are the ones that checking asks of both: what a name means at this place, and which values a place
takes.

The members of imported classes and of the superclass are not known.  A place or a value whose type
comes from the superclass is therefore compatible with anything, and a call of an imported method
may give whatever built-in type its place wants.
-/

namespace ClassCompiler
namespace Typing

/-- The method that is being checked. -/
structure MethodContext where
  name : String
  isStatic : Bool
  returnType : Ty
  deriving DecidableEq, Repr

/-- The table, and the method if checking is inside one. -/
structure Context where
  table : ClassTable
  method : Option MethodContext := none

namespace Context

/-- The name of the method; no name outside any method. -/
def methodName (Γ : Context) : String :=
  match Γ.method with
  | some m => m.name
  | none => ""

def inStaticMethod (Γ : Context) : Bool :=
  match Γ.method with
  | some m => m.isStatic
  | none => false

/-- The type of a variable.  A field is out of reach in a static method. -/
def variableType? (Γ : Context) (n : Numbered) (name : String) : Checked (Option Ty) :=
  match Γ.table.resolve? Γ.methodName name with
  | none => pure none
  | some (scope, symbol) =>
    if scope = .field ∧ Γ.inStaticMethod then do
      Checked.report n (.instanceFieldInStaticMethod name)
      return none
    else return some (Γ.table.tagOrigin symbol.type)

/-- The type of a name that is read: a variable, else a class. -/
def identifier? (Γ : Context) (n : Numbered) (name : String) : Checked (Option Ty) := do
  match ← Γ.variableType? n name with
  | some type => return some type
  | none =>
    match Γ.table.classReference? name with
    | some type => return some type
    | none =>
      Checked.report n (.unknownSymbol name)
      return none

/-- The type of a name that is assigned.  A field out of reach has been reported already. -/
def target? (Γ : Context) (n : Numbered) (name : String) : Checked (Option Ty) := do
  match ← Γ.variableType? n name with
  | some type => return some type
  | none =>
    if Γ.inStaticMethod ∧ (Γ.table.field? name).isSome then return none
    else
      Checked.report n (.unknownVariable name)
      return none

/-- Whether a place of type `target` takes a value of type `value`. -/
def assignable (Γ : Context) (target value : Ty) (isCall : Bool) : Bool :=
  let own := Γ.table.className
  if target.origin = .extension ∨ value.origin = .extension then true
  else if target.origin = .imported then
    value.origin == .imported || (!value.isArray && Γ.table.isImport value.name)
  else if target.origin = .this ∨ (!target.isArray ∧ target.name = own) then
    value.origin == .this || (!value.isArray && value.name == own)
  else if target.isBuiltin then
    target.same value || (isCall && value.origin == .imported)
  else target.same value

/-- Reports a declared type that is neither built in nor a visible class. -/
def checkDeclared (Γ : Context) (n : Numbered) (t : TypeName) : Checked Unit :=
  if t.name = "int" ∨ t.name = "String" then pure ()
  else if t.isArray then Checked.report n (.unsupportedArray t.name)
  else if t.name = "boolean" ∨ t.name = "void" then pure ()
  else if (Γ.table.classReference? t.name).isSome then pure ()
  else Checked.report n (.unknownClass t.name)

end Context

/-- A call, however many parentheses stand around it. -/
def isCall : Ast → Bool
  | .node n ts =>
    match n.kind with
    | .invocation _ => true
    | .parenthesis =>
      match ts with
      | [] => false
      | t :: _ => isCall t
    | _ => false

/-- The bare name of the class itself, not a value of its type. -/
def namesOwnClass (Γ : Context) : Ast → Bool
  | .node n ts =>
    match n.kind with
    | .className name => name == Γ.table.className
    | .identifier name =>
      (Γ.table.resolve? Γ.methodName name).isNone && name == Γ.table.className
    | .parenthesis =>
      match ts with
      | [] => false
      | t :: _ => namesOwnClass Γ t
    | _ => false

end Typing
end ClassCompiler
