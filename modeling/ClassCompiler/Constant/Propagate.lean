import ClassCompiler.Class.Declarations
import ClassCompiler.Constant.Edit
import ClassCompiler.Constant.Loop

/-!
# Propagation

One walk through each method remembers the constant that was assigned last to every local and
parameter, and replaces later reads of that variable by the constant.  Fields are never remembered,
since any call may change them.

After a conditional only what both branches agree on is known.  Inside a loop nothing is known about
the variables that it assigns; after it, what running the loop on constants tells.

A tree that lacks a child stops the walk.  What was replaced before stays replaced, so every step
gives back its tree, changed as far as it got, together with what is known after it.
-/

namespace ClassCompiler
namespace Constant

mutual

/-- Replaces the known variables in an expression. -/
def substitute (ρ : Known) : Ast → Replacing Ast
  | .node n ts =>
    match n.kind with
    | .identifier name =>
      match ρ.get? name with
      | some value => replaceBy n value
      | none => return .node n ts
    | .binary _ => return .node n (← substituteAll ρ ts)
    | .negation => return .node n (← substituteAll ρ ts)
    | .parenthesis => return .node n (← substituteAll ρ ts)
    | .arrayAccess => return .node n (← substituteAll ρ ts)
    | .arrayLength => return .node n (← substituteAll ρ ts)
    | .newArray => return .node n (← substituteAll ρ ts)
    | .invocation _ => return .node n (← substituteAll ρ ts)
    | _ => return .node n ts

/-- Replaces the known variables in expressions, one after another. -/
def substituteAll (ρ : Known) : List Ast → Replacing (List Ast)
  | [] => return []
  | t :: ts => do
    let t ← substitute ρ t
    let ts ← substituteAll ρ ts
    return t :: ts

end

/-- What is known after a variable was assigned the value of a tree. -/
def Known.assign (tracked : String → Bool) (ρ : Known) (name : String) (value : Ast) : Known :=
  match ofKind? value.kind with
  | some c => if tracked name then ρ.set name c else ρ.forget name
  | none => ρ.forget name

/-- What a step gives back: the changed tree, and what is known after it unless it failed. -/
abbrev Walked (α : Type) := α × Except Error Known

mutual

/-- Walks through a statement. -/
def walk (tracked : String → Bool) (ρ : Known) : Ast → Replacing (Walked Ast)
  | .node n ts =>
    match n.kind with
    | .returnType _ => return (.node n ts, .ok ρ)
    | .argument _ _ => return (.node n ts, .ok ρ)
    | .localVar _ _ => return (.node n ts, .ok ρ)
    | .block => do
      let (ts, known) ← walkAll tracked ρ ts
      return (.node n ts, known)
    | .thenBranch => do
      let (ts, known) ← walkAll tracked ρ ts
      return (.node n ts, known)
    | .elseBranch => do
      let (ts, known) ← walkAll tracked ρ ts
      return (.node n ts, known)
    | .assignment name =>
      match ts with
      | [] => return (.node n [], .error (.missing n 0 "value"))
      | v :: rest => do
        let v ← substitute ρ v
        return (.node n (v :: rest), .ok (ρ.assign tracked name v))
    | .conditional =>
      match ts with
      | [] => return (.node n [], .error (.missing n 0 "condition"))
      | c :: branches => do
        let (c, known) ← walk tracked ρ c
        match known with
        | .error e => return (.node n (c :: branches), .error e)
        | .ok ρ =>
          match branches with
          | [] => return (.node n [c], .error (.missing n 1 "then branch"))
          | t :: rest =>
            let (t, afterThen) ← walk tracked ρ t
            match afterThen with
            | .error e => return (.node n (c :: t :: rest), .error e)
            | .ok afterThen =>
              match rest with
              | [] => return (.node n [c, t], .ok (ρ.agree afterThen))
              | e :: rest =>
                let (e, afterElse) ← walk tracked ρ e
                return (.node n (c :: t :: e :: rest),
                  afterElse.map fun known => known.agree afterThen)
    | .loop =>
      match ts with
      | [] => return (.node n [], .error (.missing n 0 "condition"))
      | c :: body => do
        let written := assignedNames (.node n (c :: body))
        let exit := simulate tracked c body written ρ
        let head := ρ.forgetAll written
        let (c, known) ← walk tracked head c
        match known with
        | .error e => return (.node n (c :: body), .error e)
        | .ok known =>
          let (body, known) ← walkAll tracked known body
          return (.node n (c :: body), known.map fun _ => exit.getD head)
    | .condition =>
      match ts with
      | [] => return (.node n [], .error (.missing n 0 "guard expression"))
      | e :: rest => do
        let e ← substitute ρ e
        return (.node n (e :: rest), .ok ρ)
    | .arrayAssignment _ => return (.node n (← substituteAll ρ ts), .ok ρ)
    | .expression => return (.node n (← substituteAll ρ ts), .ok ρ)
    | .ret => return (.node n (← substituteAll ρ ts), .ok ρ)
    | _ => return (← substitute ρ (.node n ts), .ok ρ)

/-- Walks through statements, one after another. -/
def walkAll (tracked : String → Bool) (ρ : Known) : List Ast → Replacing (Walked (List Ast))
  | [] => return ([], .ok ρ)
  | t :: ts => do
    let (t, known) ← walk tracked ρ t
    match known with
    | .error e => return (t :: ts, .error e)
    | .ok ρ =>
      let (ts, known) ← walkAll tracked ρ ts
      return (t :: ts, known)

end

/-- A local or parameter of a method. -/
def isTracked (T : ClassTable) (method name : String) : Bool :=
  match T.resolve? method name with
  | some (.local, _) => true
  | some (.parameter, _) => true
  | _ => false

/-- Walks through the methods among the members of a class. -/
def walkMembers (T : ClassTable) : List Ast → Replacing (List Ast × Except Error Unit)
  | [] => return ([], .ok ())
  | .node n ts :: members =>
    match n.kind.methodName? with
    | none => do
      let (members, outcome) ← walkMembers T members
      return (.node n ts :: members, outcome)
    | some method => do
      let (ts, known) ← walkAll (isTracked T method) [] ts
      match known with
      | .error e => return (.node n ts :: members, .error e)
      | .ok _ =>
        let (members, outcome) ← walkMembers T members
        return (.node n ts :: members, outcome)

/-- Walks through the first class of a list of trees. -/
def walkFirstClass (T : ClassTable) (root : Numbered) :
    List Ast → Replacing (List Ast × Except Error Unit)
  | [] => return ([], .error (.malformedTree root.id .noClass))
  | .node n ts :: rest =>
    if (Tree.node n ts : Ast).isClass then do
      let (ts, outcome) ← walkMembers T ts
      return (.node n ts :: rest, outcome)
    else do
      let (rest, outcome) ← walkFirstClass T root rest
      return (.node n ts :: rest, outcome)

/-- Propagates constants through every method of the class of a tree. -/
def propagate (T : ClassTable) : Ast → Replacing (Ast × Except Error Unit)
  | .node n ts =>
    if (Tree.node n ts : Ast).isClass then do
      let (ts, outcome) ← walkMembers T ts
      return (.node n ts, outcome)
    else do
      let (ts, outcome) ← walkFirstClass T n ts
      return (.node n ts, outcome)

end Constant
end ClassCompiler
