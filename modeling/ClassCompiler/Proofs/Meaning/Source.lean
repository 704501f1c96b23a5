import ClassCompiler.Class.Declarations
import ClassCompiler.Proofs.Meaning.World

/-!
# What a method body does

The reference meaning of trees.  Operands are evaluated from left to right, and both operands of a
logical operator always are.  An assignment to an element reads its array, then the index, then the
value.  A loop tests its condition before every round.

Expressions change nothing but the world: the variables are an argument of `evalExpr` and not part
of what it gives back.

An execution may go on for ever.  Every loop is therefore given a number of tests that it may make,
and one that wants to make more leaves the execution *unfinished*.  A body runs for ever if it is
unfinished for every such limit.

* `evalExpr`, `evalCondition`, `evalEffect`: expressions for their value, as a condition, and for
  their effect only.
* `execStatement`: statements.
* `runBody`: the body of a method, with what happens at its end.
* `meanings`: the methods of a class, each with all its executions.
-/

namespace ClassCompiler
namespace Meaning

/-- A method at work: the table it is resolved in, its name, and the object it was called on.  In a
static method that object is never looked at. -/
structure Activation where
  table : ClassTable
  method : String
  isStatic : Bool
  receiver : Reference

/-- What a variable holds; one that holds nothing cannot be read. -/
def Vars.read (vars : Vars) (name : String) : Except Fault Value :=
  match vars name with
  | some v => .ok v
  | none => .error .stuck

namespace Activation

/-- A class that is visible. -/
def readClass (A : Activation) (name : String) : Except Fault Value :=
  if (A.table.classReference? name).isSome then .ok (.classRef name) else .error .stuck

/-- A name that is read: a variable of the method, a field of the receiver, else a class. -/
def readName {σ : Type} (A : Activation) (w : World σ) (vars : Vars) (name : String) :
    Effect σ Value :=
  match A.table.resolve? A.method name with
  | some (.field, _) =>
    if A.isStatic then .ofExcept (A.readClass name)
    else w.demand (.ok (.getField A.receiver name))
  | some _ => .ofExcept (vars.read name)
  | none => .ofExcept (A.readClass name)

/-- The array that an element is assigned to: a variable of the method or a field. -/
def readArray {σ : Type} (A : Activation) (w : World σ) (vars : Vars) (name : String) :
    Effect σ Value :=
  match A.table.resolve? A.method name with
  | some (.field, _) => w.demand (.ok (.getField A.receiver name))
  | some _ => .ofExcept (vars.read name)
  | none => .ofExcept (.error .stuck)

end Activation

/-! ## Expressions -/

section Expressions

variable {σ : Type} (w : World σ) (A : Activation) (vars : Vars)

/-- The value of an expression without operands. -/
def leafValue : Kind → Effect σ Value
  | .integer value => pure (.int value)
  | .boolean value => pure (.bool value)
  | .string value => pure (.ref (.string value))
  | .this => pure (.ref A.receiver)
  | .className name => pure (.classRef name)
  | .identifier name => A.readName w vars name
  | .newObject name => w.demand (.ok (.newObject name))
  | _ => .ofExcept (.error .stuck)

mutual

/-- The value of an expression. -/
def evalExpr : Ast → Effect σ Value
  | .node n ts =>
    match n.kind with
    | .parenthesis =>
      match ts with
      | [] => .ofExcept (.error .stuck)
      | t :: _ => evalExpr t
    | .binary op =>
      match ts with
      | l :: r :: _ => do
        let a ← evalExpr l
        let b ← evalExpr r
        .ofExcept (Value.binary op a b)
      | _ => .ofExcept (.error .stuck)
    | .negation =>
      match ts with
      | [] => .ofExcept (.error .stuck)
      | t :: _ => do
        let a ← evalExpr t
        .ofExcept a.negate
    | .arrayAccess =>
      match ts with
      | a :: i :: _ => do
        let a ← evalExpr a
        let i ← evalExpr i
        w.demand (Request.loadFrom a i)
      | _ => .ofExcept (.error .stuck)
    | .arrayLength =>
      match ts with
      | [] => .ofExcept (.error .stuck)
      | t :: _ => do
        let a ← evalExpr t
        w.demand (Request.lengthOf a)
    | .newArray =>
      match ts with
      | [] => .ofExcept (.error .stuck)
      | t :: _ => do
        let a ← evalExpr t
        w.demand (Request.arrayOf a)
    | .invocation method => do
      let r ← evalCall method ts
      w.demand (.ok r)
    | kind => leafValue w A vars kind

/-- The call that an invocation makes: its target, then the arguments. -/
def evalCall (method : String) : List Ast → Effect σ (Request Value)
  | [] => .ofExcept (.error .stuck)
  | t :: ts => do
    let target ← evalExpr t
    let args ← evalAll ts
    .ofExcept (Request.callOn method args target)

/-- The values of expressions, one after another. -/
def evalAll : List Ast → Effect σ (List Value)
  | [] => pure []
  | t :: ts => do
    let v ← evalExpr t
    let vs ← evalAll ts
    return v :: vs

end

/-- The value of a condition, or of an expression in its place. -/
def evalCondition : Ast → Effect σ Value
  | .node n ts =>
    match n.kind with
    | .condition =>
      match ts with
      | [] => .ofExcept (.error .stuck)
      | t :: _ => evalExpr w A vars t
    | _ => evalExpr w A vars (.node n ts)

/-- Evaluates an expression for its effect.  A call need not give a value here. -/
def evalEffect : Ast → Effect σ Unit
  | .node n ts =>
    match n.kind with
    | .parenthesis =>
      match ts with
      | [] => .ofExcept (.error .stuck)
      | t :: _ => evalEffect t
    | .invocation method => do
      let r ← evalCall w A vars method ts
      let _ ← w.ask r
    | _ => do
      let _ ← evalExpr w A vars (.node n ts)

/-- Assigns to an element of an array. -/
def evalElement (name : String) : List Ast → Effect σ Unit
  | i :: v :: _ => do
    let array ← A.readArray w vars name
    let index ← evalExpr w A vars i
    let value ← evalExpr w A vars v
    let r ← Effect.ofExcept (Request.storeTo array index value)
    let _ ← w.ask r
  | _ => .ofExcept (.error .stuck)

/-! The value of a node with all its parts. -/

section Equations

variable {w A vars} {n : Numbered} {ts : List Ast}

theorem evalExpr_identifier {name : String} (hk : n.kind = .identifier name) :
    evalExpr w A vars (.node n ts) = A.readName w vars name := by
  rw [evalExpr.eq_def]
  simp only [hk]
  rfl

theorem evalExpr_newObject {name : String} (hk : n.kind = .newObject name) :
    evalExpr w A vars (.node n ts) = w.demand (.ok (.newObject name)) := by
  rw [evalExpr.eq_def]
  simp only [hk]
  rfl

theorem evalExpr_parenthesis (hk : n.kind = .parenthesis) (t : Ast) :
    evalExpr w A vars (.node n (t :: ts)) = evalExpr w A vars t := by
  rw [evalExpr.eq_def]
  simp only [hk]

theorem evalExpr_binary {op : BinaryOp} (hk : n.kind = .binary op) (l r : Ast) :
    evalExpr w A vars (.node n (l :: r :: ts)) = evalExpr w A vars l >>= fun a =>
      evalExpr w A vars r >>= fun b => .ofExcept (Value.binary op a b) := by
  rw [evalExpr.eq_def]
  simp only [hk]

theorem evalExpr_negation (hk : n.kind = .negation) (t : Ast) :
    evalExpr w A vars (.node n (t :: ts)) =
      evalExpr w A vars t >>= fun a => .ofExcept a.negate := by
  rw [evalExpr.eq_def]
  simp only [hk]

theorem evalExpr_arrayAccess (hk : n.kind = .arrayAccess) (t i : Ast) :
    evalExpr w A vars (.node n (t :: i :: ts)) = evalExpr w A vars t >>= fun a =>
      evalExpr w A vars i >>= fun b => w.demand (Request.loadFrom a b) := by
  rw [evalExpr.eq_def]
  simp only [hk]

theorem evalExpr_arrayLength (hk : n.kind = .arrayLength) (t : Ast) :
    evalExpr w A vars (.node n (t :: ts)) =
      evalExpr w A vars t >>= fun a => w.demand (Request.lengthOf a) := by
  rw [evalExpr.eq_def]
  simp only [hk]

theorem evalExpr_newArray (hk : n.kind = .newArray) (t : Ast) :
    evalExpr w A vars (.node n (t :: ts)) =
      evalExpr w A vars t >>= fun a => w.demand (Request.arrayOf a) := by
  rw [evalExpr.eq_def]
  simp only [hk]

theorem evalExpr_invocation {method : String} (hk : n.kind = .invocation method) :
    evalExpr w A vars (.node n ts) =
      evalCall w A vars method ts >>= fun r => w.demand (.ok r) := by
  rw [evalExpr.eq_def]
  simp only [hk]

end Equations

end Expressions

/-! ## Statements -/

/-- How the execution of a statement ended. -/
inductive Completion where
  | normal
  | returned (value : Option Value)
  | faulted (fault : Fault)
  /-- A loop had made all the tests that it may make. -/
  | unfinished
  deriving DecidableEq, Repr

/-- The variables of the method, and the world. -/
structure State (σ : Type) where
  vars : Vars
  outside : Outside σ

/-- The execution of a statement. -/
abbrev Exec (σ : Type) := State σ → Completion × State σ

namespace Exec

variable {σ α : Type}

/-- Ends at once. -/
def stop (c : Completion) : Exec σ := fun s =>
  (c, s)

/-- One execution after another, if the first comes to its end. -/
def andThen (x y : Exec σ) : Exec σ := fun s =>
  match x s with
  | (.normal, s) => y s
  | (c, s) => (c, s)

/-- Evaluates something and goes on with its value. -/
def evaluating (e : Vars → Effect σ α) (k : α → Exec σ) : Exec σ := fun s =>
  match e s.vars s.outside with
  | (.ok a, o) => k a { s with outside := o }
  | (.error f, o) => (.faulted f, { s with outside := o })

/-- A choice by a truth value. -/
def branch (value : Value) (yes no : Exec σ) : Exec σ :=
  match value with
  | .bool true => yes
  | .bool false => no
  | _ => stop (.faulted .stuck)

/-- A loop that makes a number of tests at most. -/
def loop (guard : Vars → Effect σ Value) (body : Exec σ) : Nat → Exec σ
  | 0 => stop .unfinished
  | tests + 1 => evaluating guard fun value =>
    branch value (andThen body (loop guard body tests)) (stop .normal)

/-- An assignment to a variable of the method or to a field. -/
def assign (w : World σ) (A : Activation) (name : String) (value : Value) : Exec σ :=
  match A.table.resolve? A.method name with
  | some (.field, _) =>
    evaluating (fun _ => w.ask (.putField A.receiver name value)) fun _ => stop .normal
  | some _ => fun s => (.normal, { s with vars := s.vars.set name value })
  | none => stop (.faulted .stuck)

end Exec

section Statements

variable {σ : Type} (w : World σ) (A : Activation) (limit : Nat)

open Exec

mutual

/-- Executes a statement whose loops make `limit` tests at most, each time they are come to. -/
def execStatement : Ast → Exec σ
  | .node n ts =>
    match n.kind with
    | .returnType _ => stop .normal
    | .argument _ _ => stop .normal
    | .localVar _ _ => stop .normal
    | .block => execStatements ts
    | .thenBranch => execStatements ts
    | .elseBranch => execStatements ts
    | .conditional =>
      match ts with
      | c :: t :: rest =>
        evaluating (evalCondition w A · c) fun value =>
          branch value (execStatement t)
            (match rest with
              | [] => stop .normal
              | e :: _ => execStatement e)
      | _ => stop (.faulted .stuck)
    | .loop =>
      match ts with
      | [] => stop (.faulted .stuck)
      | c :: body => loop (evalCondition w A · c) (execStatements body) limit
    | .expression =>
      match ts with
      | [] => stop (.faulted .stuck)
      | e :: _ => evaluating (evalEffect w A · e) fun _ => stop .normal
    | .assignment name =>
      match ts with
      | [] => stop (.faulted .stuck)
      | v :: _ => evaluating (evalExpr w A · v) fun value => assign w A name value
    | .arrayAssignment name =>
      evaluating (evalElement w A · name ts) fun _ => stop .normal
    | .ret =>
      match ts with
      | [] => stop (.returned none)
      | v :: _ => evaluating (evalExpr w A · v) fun value => stop (.returned (some value))
    | .condition => evaluating (evalCondition w A · (.node n ts)) fun _ => stop .normal
    | _ => evaluating (evalEffect w A · (.node n ts)) fun _ => stop .normal

/-- Executes statements one after another. -/
def execStatements : List Ast → Exec σ
  | [] => stop .normal
  | t :: ts => andThen (execStatement t) (execStatements ts)

end

/-- The branch that is taken if the condition is false. -/
def execElse : List Ast → Exec σ
  | [] => stop .normal
  | e :: _ => execStatement w A limit e

variable {w A limit}

theorem execStatement_conditional {n : Numbered} (hk : n.kind = .conditional) (c t : Ast)
    (rest : List Ast) :
    execStatement w A limit (.node n (c :: t :: rest)) =
      evaluating (evalCondition w A · c) fun value =>
        branch value (execStatement w A limit t) (execElse w A limit rest) := by
  rw [execStatement.eq_def]
  simp only [hk]
  cases rest <;> rfl

/-- A conditional needs a branch. -/
theorem execStatement_conditional_short {n : Numbered} (hk : n.kind = .conditional) (c : Ast) :
    execStatement w A limit (.node n [c]) = stop (.faulted .stuck) := by
  rw [execStatement.eq_def]
  simp only [hk]

theorem execStatement_loop {n : Numbered} (hk : n.kind = .loop) (c : Ast) (body : List Ast) :
    execStatement w A limit (.node n (c :: body)) =
      loop (evalCondition w A · c) (execStatements w A limit body) limit := by
  rw [execStatement.eq_def]
  simp only [hk]

variable (w A limit)

/-! An expression may stand where a condition or a statement is expected. -/

/-- The kinds of expressions. -/
def isExpression : Kind → Bool
  | .integer _ | .boolean _ | .string _ | .this | .className _ | .identifier _ => true
  | .parenthesis | .binary _ | .negation | .arrayAccess | .arrayLength => true
  | .newArray | .newObject _ | .invocation _ => true
  | _ => false

theorem evalCondition_of_isExpression {t : Ast} (h : isExpression t.kind) (vars : Vars) :
    evalCondition w A vars t = evalExpr w A vars t := by
  obtain ⟨n, ts⟩ := t
  rw [Tree.kind, Tree.label] at h
  unfold evalCondition
  dsimp only
  cases hk : n.kind with
  | condition =>
    rw [hk] at h
    cases h
  | _ => rfl

theorem execStatement_of_isExpression {t : Ast} (h : isExpression t.kind) :
    execStatement w A limit t = evaluating (evalEffect w A · t) fun _ => stop .normal := by
  obtain ⟨n, ts⟩ := t
  rw [Tree.kind, Tree.label] at h
  rw [execStatement.eq_def]
  cases hk : n.kind <;> rw [hk] at h <;> cases h <;> simp only [hk]

/-- What it means for a method to come to the end of its body: a method without a result returns,
any other has failed to. -/
def Completion.atEnd (isVoid : Bool) : Completion → Completion
  | normal => if isVoid then returned none else faulted .noReturn
  | c => c

/-- Executes the body of a method. -/
def runBody (isVoid : Bool) (body : List Ast) : Exec σ := fun s =>
  let (c, s) := execStatements w A limit body s
  (c.atEnd isVoid, s)

end Statements

/-! ## The methods of a class -/

/-- What a method does, in any world, on any object, from any variables.  The execution is given for
every number of tests that loops may make; so two methods with one meaning end in the same way after
the same events, or run for ever both. -/
abbrev MethodMeaning :=
  (σ : Type) → World σ → (isStatic : Bool) → (receiver : Reference) → (limit : Nat) →
    (isVoid : Bool) → Exec σ

/-- The meaning of a method of a class, by its name and its children. -/
def meaningOf (T : ClassTable) (name : String) (body : List Ast) : MethodMeaning :=
  fun _ w isStatic receiver limit isVoid =>
    runBody w { table := T, method := name, isStatic, receiver } limit isVoid body

/-- The name and the meaning of a member of a class that is a method. -/
def memberMeaning? (T : ClassTable) (member : Ast) : Option (String × MethodMeaning) :=
  member.kind.methodName?.map fun name => (name, meaningOf T name member.children)

/-- The methods of a class with their meanings, in order. -/
def classMeanings (T : ClassTable) (c : Ast) : List (String × MethodMeaning) :=
  c.children.filterMap (memberMeaning? T)

/-- The methods of the class of a tree with their meanings; none if there is no class. -/
def meanings (T : ClassTable) (t : Ast) : List (String × MethodMeaning) :=
  match t.classTree with
  | .ok c => classMeanings T c
  | .error _ => []

end Meaning
end ClassCompiler
