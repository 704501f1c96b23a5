import ClassCompiler.Proofs.Meaning.Source
import ClassCompiler.Proofs.Tree.Induction
import Mathlib.Data.List.Forall2

/-!
# Trees that mean the same

A tree is looked at in four ways: for its value, as a condition, for its effect, and as a statement.
Two trees mean the same if they agree in all four.  Meaning is compositional: to exchange the
children of a node for children that mean the same changes nothing.

For expressions the variables are fixed, since an expression may be replaced by one that means the
same only for what the variables hold at that place.

* `ExprAlike`, `ExprAlike.node`: expressions, for given variables.
* `Alike`, `Alike.node`: trees, whatever the variables hold.
-/

namespace ClassCompiler
namespace Meaning

open List (Forall₂)

variable {σ : Type} {w : World σ} {A : Activation} {vars : Vars}

/-! ## Expressions -/

/-- Two trees agree as expressions, as long as the variables hold what they hold. -/
structure ExprAlike (w : World σ) (A : Activation) (vars : Vars) (t t' : Ast) : Prop where
  value : evalExpr w A vars t' = evalExpr w A vars t
  condition : evalCondition w A vars t' = evalCondition w A vars t
  effect : evalEffect w A vars t' = evalEffect w A vars t

namespace ExprAlike

theorem refl (t : Ast) : ExprAlike w A vars t t :=
  ⟨rfl, rfl, rfl⟩

theorem trans {t t' t'' : Ast} (h : ExprAlike w A vars t t') (h' : ExprAlike w A vars t' t'') :
    ExprAlike w A vars t t'' :=
  ⟨h'.value.trans h.value, h'.condition.trans h.condition, h'.effect.trans h.effect⟩

theorem evalAll_eq {ts ts' : List Ast} (h : Forall₂ (ExprAlike w A vars) ts ts') :
    evalAll w A vars ts' = evalAll w A vars ts := by
  induction h with
  | nil => rfl
  | cons h _ ih => rw [evalAll, evalAll, h.value, ih]

theorem evalCall_eq {ts ts' : List Ast} (method : String)
    (h : Forall₂ (ExprAlike w A vars) ts ts') :
    evalCall w A vars method ts' = evalCall w A vars method ts := by
  cases h with
  | nil => rfl
  | cons h hs => rw [evalCall, evalCall, h.value, evalAll_eq hs]

theorem evalElement_eq {ts ts' : List Ast} (name : String)
    (h : Forall₂ (ExprAlike w A vars) ts ts') :
    evalElement w A vars name ts' = evalElement w A vars name ts := by
  cases h with
  | nil => rfl
  | cons hi hs =>
    cases hs with
    | nil => rfl
    | cons hv _ => simp only [evalElement, hi.value, hv.value]

/-- The value of a node is made from the values of its children. -/
theorem evalExpr_node {ts ts' : List Ast} (n : Numbered) (h : Forall₂ (ExprAlike w A vars) ts ts') :
    evalExpr w A vars (.node n ts') = evalExpr w A vars (.node n ts) := by
  unfold evalExpr
  cases n.kind with
  | invocation method => simp only [evalCall_eq method h]
  | parenthesis | negation | arrayLength | newArray =>
    cases h with
    | nil => rfl
    | cons h _ => simp only [h.value]
  | binary _ | arrayAccess =>
    cases h with
    | nil => rfl
    | cons hl hs =>
      cases hs with
      | nil => rfl
      | cons hr _ => simp only [hl.value, hr.value]
  | _ => rfl

/-- **Expressions are compositional.** -/
theorem node {ts ts' : List Ast} (n : Numbered) (h : Forall₂ (ExprAlike w A vars) ts ts') :
    ExprAlike w A vars (.node n ts) (.node n ts') := by
  have hvalue := evalExpr_node n h
  refine ⟨hvalue, ?_, ?_⟩
  · unfold evalCondition
    dsimp only
    cases n.kind with
    | condition =>
      cases h with
      | nil => rfl
      | cons h _ => exact h.value
    | _ => exact hvalue
  · unfold evalEffect
    cases n.kind with
    | parenthesis =>
      cases h with
      | nil => rfl
      | cons h _ => exact h.effect
    | invocation method => simp only [evalCall_eq method h]
    | _ => simp only [hvalue]

end ExprAlike

/-! ## Statements -/

/-- Two trees mean the same, whatever the variables hold. -/
structure Alike (w : World σ) (A : Activation) (t t' : Ast) : Prop where
  expr : ∀ vars, ExprAlike w A vars t t'
  statement : ∀ limit, execStatement w A limit t' = execStatement w A limit t

namespace Alike

theorem trans {t t' t'' : Ast} (h : Alike w A t t') (h' : Alike w A t' t'') : Alike w A t t'' :=
  ⟨fun vars => (h.expr vars).trans (h'.expr vars),
    fun limit => (h'.statement limit).trans (h.statement limit)⟩

theorem exprs {ts ts' : List Ast} (h : Forall₂ (Alike w A) ts ts') (vars : Vars) :
    Forall₂ (ExprAlike w A vars) ts ts' :=
  h.imp fun _ _ h => h.expr vars

theorem evalCondition_eq {t t' : Ast} (h : Alike w A t t') :
    (evalCondition w A · t') = (evalCondition w A · t) :=
  funext fun vars => (h.expr vars).condition

theorem evalEffect_eq {t t' : Ast} (h : Alike w A t t') :
    (evalEffect w A · t') = (evalEffect w A · t) :=
  funext fun vars => (h.expr vars).effect

theorem evalExpr_eq {t t' : Ast} (h : Alike w A t t') :
    (evalExpr w A · t') = (evalExpr w A · t) :=
  funext fun vars => (h.expr vars).value

theorem execStatements_eq {ts ts' : List Ast} (h : Forall₂ (Alike w A) ts ts') (limit : Nat) :
    execStatements w A limit ts' = execStatements w A limit ts := by
  induction h with
  | nil => rfl
  | cons h _ ih => rw [execStatements, execStatements, h.statement limit, ih]

/-- **Statements are compositional.** -/
theorem node {ts ts' : List Ast} (n : Numbered) (h : Forall₂ (Alike w A) ts ts') :
    Alike w A (.node n ts) (.node n ts') := by
  have hexpr : ∀ vars, ExprAlike w A vars (.node n ts) (.node n ts') :=
    fun vars => .node n (exprs h vars)
  have hcondition : (evalCondition w A · (.node n ts')) = (evalCondition w A · (.node n ts)) :=
    funext fun vars => (hexpr vars).condition
  have heffect : (evalEffect w A · (.node n ts')) = (evalEffect w A · (.node n ts)) :=
    funext fun vars => (hexpr vars).effect
  refine ⟨hexpr, fun limit => ?_⟩
  unfold execStatement
  cases n.kind with
  | block | thenBranch | elseBranch => exact execStatements_eq h limit
  | conditional =>
    cases h with
    | nil => rfl
    | cons hc hs =>
      cases hs with
      | nil => rfl
      | cons ht hs =>
        cases hs with
        | nil => simp only [hc.evalCondition_eq, ht.statement limit]
        | cons he _ => simp only [hc.evalCondition_eq, ht.statement limit, he.statement limit]
  | loop =>
    cases h with
    | nil => rfl
    | cons hc hs => simp only [hc.evalCondition_eq, execStatements_eq hs limit]
  | expression =>
    cases h with
    | nil => rfl
    | cons h _ => simp only [h.evalEffect_eq]
  | assignment _ | ret =>
    cases h with
    | nil => rfl
    | cons h _ => simp only [h.evalExpr_eq]
  | arrayAssignment name =>
    have helement : (evalElement w A · name ts') = (evalElement w A · name ts) :=
      funext fun vars => ExprAlike.evalElement_eq name (exprs h vars)
    simp only [helement]
  | condition => simp only [hcondition]
  | returnType _ | argument _ _ | localVar _ _ => rfl
  | _ => simp only [heffect]

end Alike

end Meaning
end ClassCompiler
