import ClassCompiler.Typing.Expression

/-!
# Checking statements and classes

Every statement of a method is checked against the table and the method; an expression in the place
of a statement is checked like any expression.  The declared types of fields are checked before the
methods.  A method that was dropped from the table is checked under the entry that its name has.
-/

namespace ClassCompiler
namespace Typing

/-- A condition must be a truth value. -/
def checkGuard (Γ : Context) (t : Ast) : Checked Unit := do
  match ← infer Γ t with
  | some type =>
    if type.isBoolean then return ()
    else Checked.report t.label (.conditionNotBoolean type)
  | none => return ()

/-- A condition, or an expression in its place. -/
def checkCondition (Γ : Context) : Ast → Checked Unit
  | .node n ts =>
    match n.kind with
    | .condition =>
      match ts with
      | [] => Checked.fail (.missing n 0 "guard expression")
      | t :: _ => checkGuard Γ t
    | _ => checkGuard Γ (.node n ts)

/-- The value is checked before the place it goes to. -/
def checkAssignment (Γ : Context) (n : Numbered) (name : String) : List Ast → Checked Unit
  | [] => Checked.fail (.missing n 0 "value")
  | v :: _ => do
    let value ← infer Γ v
    match ← Γ.target? n name, value with
    | some target, some value =>
      if Γ.assignable target value (isCall v) then return ()
      else Checked.report n (.unassignable value name target)
    | _, _ => return ()

/-- An index or element that must be an integer. -/
def checkInt (n : Numbered) (problem : Ty → Problem) : Option Ty → Checked Unit
  | some type => if type.isInt then return () else Checked.report n (problem type)
  | none => return ()

/-- Index and value are checked before the array. -/
def checkArrayAssignment (Γ : Context) (n : Numbered) (name : String) : List Ast → Checked Unit
  | [] => Checked.fail (.missing n 0 "index")
  | i :: rest => do
    let index ← infer Γ i
    match rest with
    | [] => Checked.fail (.missing n 1 "value")
    | v :: _ =>
      let value ← infer Γ v
      match ← Γ.target? n name with
      | some target =>
        if !target.isIntArray then Checked.report n (.notAnIntArray name target)
      | none => pure ()
      checkInt n .indexNotInt index
      checkInt n .elementNotInt value

/-- A method gives back what it declares.  Outside any method nothing is asked. -/
def checkReturn (Γ : Context) (n : Numbered) (ts : List Ast) : Checked Unit :=
  match Γ.method with
  | none => return ()
  | some m =>
    match ts with
    | [] =>
      if m.returnType.isVoid then return ()
      else Checked.report n (.missingReturnValue m.name m.returnType)
    | v :: _ => do
      let value ← infer Γ v
      if m.returnType.isVoid then Checked.report n (.valueFromVoid m.name)
      else
        match value with
        | some value =>
          if Γ.assignable m.returnType value (isCall v) then return ()
          else Checked.report n (.wrongReturn m.returnType value)
        | none => return ()

mutual

/-- Checks a statement. -/
def checkStatement (Γ : Context) : Ast → Checked Unit
  | .node n ts =>
    match n.kind with
    | .returnType type => Γ.checkDeclared n type
    | .argument _ type => Γ.checkDeclared n type
    | .localVar _ type => Γ.checkDeclared n type
    | .block => checkStatements Γ ts
    | .thenBranch => checkStatements Γ ts
    | .elseBranch => checkStatements Γ ts
    | .conditional =>
      match ts with
      | [] => Checked.fail (.missing n 0 "condition")
      | c :: rest => do
        checkCondition Γ c
        match rest with
        | [] => Checked.fail (.missing n 1 "then branch")
        | t :: rest =>
          checkStatement Γ t
          match rest with
          | [] => return ()
          | e :: _ => checkStatement Γ e
    | .loop =>
      match ts with
      | [] => Checked.fail (.missing n 0 "condition")
      | c :: body => do
        checkCondition Γ c
        checkStatements Γ body
    | .condition => checkCondition Γ (.node n ts)
    | .expression =>
      match ts with
      | [] => Checked.fail (.missing n 0 "expression")
      | e :: _ => do
        let _ ← infer Γ e
    | .assignment name => checkAssignment Γ n name ts
    | .arrayAssignment name => checkArrayAssignment Γ n name ts
    | .ret => checkReturn Γ n ts
    | _ => do
      let _ ← infer Γ (.node n ts)

/-- Checks statements one after another. -/
def checkStatements (Γ : Context) : List Ast → Checked Unit
  | [] => return ()
  | t :: ts => do
    checkStatement Γ t
    checkStatements Γ ts

end

/-- Checks the declared types of the fields among the members of a class. -/
def checkFields (T : ClassTable) : List Ast → Checked Unit
  | [] => return ()
  | member :: members => do
    match member.kind with
    | .classField _ type => ({ table := T } : Context).checkDeclared member.label type
    | _ => pure ()
    checkFields T members

/-- What the body of a method is checked against. -/
def contextOf (T : ClassTable) (name : String) (info : MethodInfo) : Context :=
  { table := T, method := some ⟨name, info.isStatic, T.tagOrigin info.returnType⟩ }

/-- Checks the methods among the members of a class. -/
def checkMethods (T : ClassTable) : List Ast → Checked Unit
  | [] => return ()
  | member :: members => do
    match member.kind.methodName? with
    | none => pure ()
    | some name =>
      match T.method? name with
      | none => pure ()
      | some info => checkStatements (contextOf T name info) member.children
    checkMethods T members

/-- Checks the class of a tree. -/
def checkClass (T : ClassTable) (t : Ast) : Checked Unit := do
  let c ← Checked.ofExcept t.classTree
  checkFields T c.children
  checkMethods T c.children

end Typing
end ClassCompiler
