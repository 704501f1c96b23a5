import ClassCompiler.Class.Declarations
import ClassCompiler.ThreeAddress.Fresh

/-!
# Lowering

A method body becomes a list of instructions.  An expression becomes the code that runs first and
the operand that holds its value afterwards: the code of its parts from left to right, then one
instruction of its own that assigns a new temporary.  A value that is assigned to a variable goes
there directly instead of through its temporary.

A call is typed by the signature that the table has for it.  Where the table has none, the place of
the call types its result and the arguments type its parameters.

The tree is expected to have been checked.  What cannot be given a meaning is an error and never
left out silently.
-/

namespace ClassCompiler
namespace ThreeAddress

/-- The type of values that a static type stands for. -/
def ValueType.ofType (t : Ty) : Except Error ValueType :=
  if t.isArray then
    if t.name = "int" then .ok .intArray
    else if t.name = "String" then .ok .stringArray
    else .error (.unknownType t.text)
  else if t.name = "int" then .ok .int
  else if t.name = "boolean" then .ok .bool
  else if t.name = "void" then .ok .void
  else if t.name = "String" then .ok .string
  else .ok (.object t.name)

/-- A computation that hands out fresh names and may fail. -/
abbrev Lowering := StateT Fresh (Except Error)

/-- The class and the method that are lowered. -/
structure Site where
  table : ClassTable
  info : MethodInfo

/-- The code of an expression and the operand that holds its value. -/
structure Lowered where
  code : List Instr
  value : Operand

namespace Lowered

/-- An operand that needs no code. -/
def ofOperand (value : Operand) : Lowered :=
  ⟨[], value⟩

/-- The code that leaves the value in a variable. -/
def storeIn (dest : Var) (v : Lowered) : List Instr :=
  match v.value, v.code.getLast? with
  | .var result, some (.assign last rhs) =>
    if last = result ∧ result.type = dest.type then v.code.dropLast ++ [.assign dest rhs]
    else v.code ++ [.assign dest (.operand v.value)]
  | _, _ => v.code ++ [.assign dest (.operand v.value)]

end Lowered

/-- A new temporary. -/
def newTemp (type : ValueType) : Lowering Var := fun f =>
  .ok (f.temp type)

/-- A new number for labels. -/
def newLabel : Lowering Nat := fun f =>
  .ok f.label

/-- A result that hands out nothing. -/
def liftExcept {α : Type} (x : Except Error α) : Lowering α :=
  StateT.lift x

/-- Code followed by the assignment of a right-hand side to a new temporary. -/
def assignTemp (code : List Instr) (type : ValueType) (rhs : Rhs) : Lowering Lowered := do
  let dest ← newTemp type
  return ⟨code ++ [.assign dest rhs], .var dest⟩

namespace Site

/-- The receiver. -/
def this (Γ : Site) : Operand :=
  .this Γ.table.className

/-- The variable that is assigned. -/
def target (Γ : Site) (n : Numbered) (name : String) : Except Error (Scope × Var) :=
  match Γ.table.resolve? Γ.info.name name with
  | none => .error (.malformedTree n.id (.undeclaredTarget name))
  | some (scope, symbol) => do
    return (scope, ⟨name, ← ValueType.ofType symbol.type⟩)

/-- A call whose target is the class itself or one of its objects. -/
def isOwn (Γ : Site) (target : Operand) : Bool :=
  match target with
  | .classRef name => name == Γ.table.className
  | other => other.type == .object Γ.table.className

/-- The declaration that a call refers to, if it is known. -/
def callee? (Γ : Site) (target : Operand) (method : String) : Option MethodInfo :=
  if Γ.isOwn target then Γ.table.method? method else none

end Site

/-- The name of a class, if it is visible. -/
def lowerClassName (Γ : Site) (n : Numbered) (name : String) : Lowering Lowered :=
  if (Γ.table.classReference? name).isSome then return .ofOperand (.classRef name)
  else throw (.malformedTree n.id (.unresolvedIdentifier name))

/-- A name that is read: a variable of the frame, a field of the receiver, else a class. -/
def lowerIdentifier (Γ : Site) (n : Numbered) (name : String) : Lowering Lowered :=
  match Γ.table.resolve? Γ.info.name name with
  | some (scope, symbol) => do
    let type ← liftExcept (ValueType.ofType symbol.type)
    match scope with
    | .field =>
      if Γ.info.isStatic then lowerClassName Γ n name
      else assignTemp [] type (.getField Γ.this ⟨name, type⟩)
    | _ => return .ofOperand (.var ⟨name, type⟩)
  | none => lowerClassName Γ n name

/-- The type that the operands of an operator have. -/
def operandType (op : BinaryOp) : ValueType :=
  if op.isLogical then .bool else .int

/-- The declared type of the next argument, if the callee is known. -/
def nextParam : List Symbol → Except Error (Option ValueType)
  | [] => .ok none
  | p :: _ => do return some (← ValueType.ofType p.type)

/-- The arguments of a call: their code, the operands and the types of the parameters. -/
structure LoweredArgs where
  code : List Instr := []
  args : List Operand := []
  params : List ValueType := []

/-- Static if a class is named. -/
def callKind : Operand → CallKind
  | .classRef _ => .static
  | _ => .virtual

/-- The type that a call gives: that of the callee, else the one its place expects. -/
def callResult (callee : Option MethodInfo) (expected : Option ValueType) :
    Except Error ValueType :=
  match callee with
  | some info => ValueType.ofType info.returnType
  | none => .ok (expected.getD .void)

/-- Lowers an expression without operands. -/
def lowerLeaf (Γ : Site) (n : Numbered) : Kind → Lowering Lowered
  | .integer value => return .ofOperand (.int value)
  | .boolean value => return .ofOperand (.bool value)
  | .string value => return .ofOperand (.string value)
  | .this => return .ofOperand Γ.this
  | .className name => return .ofOperand (.classRef name)
  | .identifier name => lowerIdentifier Γ n name
  | .newObject name => assignTemp [] (.object name) (.newObject name)
  | kind => throw (.malformedTree n.id (.notAnExpression kind))

mutual

/-- Lowers an expression whose value is used.  `expected` is the type that its place wants. -/
def lowerExpr (Γ : Site) (expected : Option ValueType) : Ast → Lowering Lowered
  | .node n ts =>
    match n.kind with
    | .parenthesis =>
      match ts with
      | [] => throw (.missing n 0 "inner expression")
      | t :: _ => lowerExpr Γ expected t
    | .binary op =>
      match ts with
      | [] => throw (.missing n 0 "left operand")
      | l :: rest => do
        let left ← lowerExpr Γ (some (operandType op)) l
        match rest with
        | [] => throw (.missing n 1 "right operand")
        | r :: _ =>
          let right ← lowerExpr Γ (some (operandType op)) r
          assignTemp (left.code ++ right.code) (resultType op) (.binary op left.value right.value)
    | .negation =>
      match ts with
      | [] => throw (.missing n 0 "operand")
      | t :: _ => do
        let inner ← lowerExpr Γ (some .bool) t
        assignTemp inner.code .bool (.not inner.value)
    | .arrayAccess =>
      match ts with
      | [] => throw (.missing n 0 "array")
      | a :: rest => do
        let base ← lowerExpr Γ (some .intArray) a
        match rest with
        | [] => throw (.missing n 1 "index")
        | i :: _ =>
          let index ← lowerExpr Γ (some .int) i
          match base.value.var? with
          | none => throw (.malformedTree n.id (.notIndexable base.value))
          | some array =>
            assignTemp (base.code ++ index.code) .int (.arrayLoad array index.value)
    | .arrayLength =>
      match ts with
      | [] => throw (.missing n 0 "array")
      | t :: _ => do
        let base ← lowerExpr Γ none t
        assignTemp base.code .int (.arrayLength base.value)
    | .newArray =>
      match ts with
      | [] => throw (.missing n 0 "length")
      | t :: _ => do
        let length ← lowerExpr Γ (some .int) t
        assignTemp length.code .intArray (.newArray length.value)
    | .invocation method => do
      -- the value of a call that nothing types is an integer
      let (code, call) ← lowerCall Γ n method (some (expected.getD .int)) ts
      assignTemp code call.result (.call call)
    | kind => lowerLeaf Γ n kind

/-- Lowers the target and the arguments of a call.  Without an expected type the result is thrown
away. -/
def lowerCall (Γ : Site) (n : Numbered) (method : String) (expected : Option ValueType) :
    List Ast → Lowering (List Instr × Call)
  | [] => throw (.missing n 0 "invocation target")
  | t :: ts => do
    let target ← lowerExpr Γ none t
    let callee := Γ.callee? target.value method
    let rest ← lowerArgs Γ (match callee with | some info => info.parameters | none => []) ts
    let result ← liftExcept (callResult callee expected)
    return (target.code ++ rest.code,
      { kind := callKind target.value, target := target.value, method, args := rest.args,
        params := rest.params, result })

/-- Lowers arguments, given what is known of the parameters from here on. -/
def lowerArgs (Γ : Site) (declared : List Symbol) : List Ast → Lowering LoweredArgs
  | [] => return {}
  | t :: ts => do
    let param ← liftExcept (nextParam declared)
    let arg ← lowerExpr Γ param t
    let rest ← lowerArgs Γ declared.tail ts
    return { code := arg.code ++ rest.code, args := arg.value :: rest.args,
             params := param.getD arg.value.type :: rest.params }

end

/-- Lowers a condition, or an expression in its place. -/
def lowerCondition (Γ : Site) : Ast → Lowering Lowered
  | .node n ts =>
    match n.kind with
    | .condition =>
      match ts with
      | [] => throw (.missing n 0 "guard expression")
      | t :: _ => lowerExpr Γ (some .bool) t
    | _ => lowerExpr Γ (some .bool) (.node n ts)

/-- Lowers an expression that is run for its effect.  The result of a call is thrown away. -/
def lowerEffect (Γ : Site) : Ast → Lowering (List Instr)
  | .node n ts =>
    match n.kind with
    | .parenthesis =>
      match ts with
      | [] => throw (.missing n 0 "inner expression")
      | t :: _ => lowerEffect Γ t
    | .invocation method => do
      let (code, call) ← lowerCall Γ n method none ts
      return code ++ [.call call]
    | _ => do
      let v ← lowerExpr Γ none (.node n ts)
      return v.code ++ [.noop v.value]

/-- Lowers an assignment to a variable or a field. -/
def lowerAssignment (Γ : Site) (n : Numbered) (name : String) (ts : List Ast) :
    Lowering (List Instr) := do
  let (scope, dest) ← liftExcept (Γ.target n name)
  match ts with
  | [] => throw (.missing n 0 "value")
  | t :: _ =>
    let v ← lowerExpr Γ (some dest.type) t
    match scope with
    | .field => return v.code ++ [.putField Γ.this dest v.value]
    | _ => return v.storeIn dest

/-- The array that an element is assigned to; a field is read first. -/
def lowerArray (Γ : Site) (scope : Scope) (array : Var) : Lowering (List Instr × Var) :=
  match scope with
  | .field => do
    let temp ← newTemp array.type
    return ([.assign temp (.getField Γ.this array)], temp)
  | _ => return ([], array)

/-- Lowers an assignment to an element of an array. -/
def lowerArrayAssignment (Γ : Site) (n : Numbered) (name : String) (ts : List Ast) :
    Lowering (List Instr) := do
  let (scope, place) ← liftExcept (Γ.target n name)
  let (code, array) ← lowerArray Γ scope place
  match ts with
  | [] => throw (.missing n 0 "index")
  | i :: rest =>
    let index ← lowerExpr Γ (some .int) i
    match rest with
    | [] => throw (.missing n 1 "value")
    | v :: _ =>
      let value ← lowerExpr Γ (some .int) v
      return code ++ index.code ++ value.code ++ [.arrayStore array index.value value.value]

/-- Lowers a return. -/
def lowerReturn (Γ : Site) : List Ast → Lowering (List Instr)
  | [] => return [.ret none]
  | t :: _ => do
    let type ← liftExcept (ValueType.ofType Γ.info.returnType)
    let v ← lowerExpr Γ (some type) t
    return v.code ++ [.ret (some v.value)]

mutual

/-- Lowers a statement. -/
def lowerStatement (Γ : Site) : Ast → Lowering (List Instr)
  | .node n ts =>
    match n.kind with
    | .returnType _ => return []
    | .argument _ _ => return []
    | .localVar _ _ => return []
    | .block => lowerStatements Γ ts
    | .thenBranch => lowerStatements Γ ts
    | .elseBranch => lowerStatements Γ ts
    | .conditional => do
      let k ← newLabel
      match ts with
      | [] => throw (.missing n 0 "condition")
      | c :: rest =>
        let cond ← lowerCondition Γ c
        match rest with
        | [] => throw (.missing n 1 "then branch")
        | t :: rest =>
          let thenCode ← lowerStatement Γ t
          let elseCode ← match rest with
            | [] => pure []
            | e :: _ => lowerStatement Γ e
          return cond.code ++ [.branch cond.value true s!"Else_{k}"] ++ thenCode
            ++ [.jump s!"EndIf_{k}", .label s!"Else_{k}"] ++ elseCode ++ [.label s!"EndIf_{k}"]
    | .loop => do
      let k ← newLabel
      match ts with
      | [] => throw (.missing n 0 "condition")
      | c :: body =>
        let first ← lowerCondition Γ c
        let bodyCode ← lowerStatements Γ body
        -- the test at the end has temporaries of its own, so each is still assigned once
        let again ← lowerCondition Γ c
        return first.code ++ [.branch first.value true s!"EndLoop_{k}", .label s!"Loop_{k}"]
          ++ bodyCode ++ again.code
          ++ [.branch again.value false s!"Loop_{k}", .label s!"EndLoop_{k}"]
    | .expression =>
      match ts with
      | [] => throw (.missing n 0 "expression")
      | e :: _ => lowerEffect Γ e
    | .assignment name => lowerAssignment Γ n name ts
    | .arrayAssignment name => lowerArrayAssignment Γ n name ts
    | .ret => lowerReturn Γ ts
    | .condition => do
      let cond ← lowerCondition Γ (.node n ts)
      return cond.code ++ [.noop cond.value]
    | _ => lowerEffect Γ (.node n ts)

/-- Lowers statements one after another. -/
def lowerStatements (Γ : Site) : List Ast → Lowering (List Instr)
  | [] => return []
  | t :: ts => do
    let code ← lowerStatement Γ t
    let rest ← lowerStatements Γ ts
    return code ++ rest

end

/-- Declared names as variables. -/
def varsOf : List Symbol → Except Error (List Var)
  | [] => .ok []
  | s :: ss => do
    let type ← ValueType.ofType s.type
    let rest ← varsOf ss
    return ⟨s.name, type⟩ :: rest

/-- A method without a result ends in a return, even if it was not written. -/
def closeBody (result : ValueType) (code : List Instr) : List Instr :=
  match result, code.getLast? with
  | .void, some (.ret _) => code
  | .void, _ => code ++ [.ret none]
  | _, _ => code

/-- Names that no temporary of a method may have. -/
def reservedNames (T : ClassTable) (info : MethodInfo) : List String :=
  (info.parameters ++ info.locals ++ T.fields).map Symbol.name

/-- Lowers a method with the given children. -/
def lowerMethod (T : ClassTable) (info : MethodInfo) (ts : List Ast) : Except Error Method := do
  let (code, _) ← (lowerStatements ⟨T, info⟩ ts).run { reserved := reservedNames T info }
  let result ← ValueType.ofType info.returnType
  let params ← varsOf info.parameters
  let locals ← varsOf info.locals
  return { name := info.name, isStatic := info.isStatic, params, locals, result,
           code := closeBody result code }

/-- Lowers the methods among the members of a class. -/
def lowerMethods (T : ClassTable) : List Ast → Except Error (List Method)
  | [] => .ok []
  | member :: members =>
    match member.kind.methodName? with
    | none => lowerMethods T members
    | some name =>
      match T.method? name with
      | none => .error (.malformedTree member.id (.unknownMethod name))
      | some info => do
        let m ← lowerMethod T info member.children
        let rest ← lowerMethods T members
        return m :: rest

/-- Lowers the class of a tree. -/
def lowerClass (T : ClassTable) (t : Ast) : Except Error ClassCode := do
  let c ← t.classTree
  let fields ← varsOf T.fields
  let methods ← lowerMethods T c.children
  return { name := T.className, superclass := T.superclass, imports := T.imports, fields, methods }

end ThreeAddress
end ClassCompiler
