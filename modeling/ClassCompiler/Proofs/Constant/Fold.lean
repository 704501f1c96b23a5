import ClassCompiler.Constant.Fold
import ClassCompiler.Proofs.Meaning.Congruence

/-!
# Folding keeps the meaning

Every replacement of a fold puts a literal in the place of an operation on literals, and the two
mean the same wherever they stand: as a value, as a condition, for the effect and as a statement.
The rest is compositionality.

* `Value.ofConstant`: the value of a constant, and what the operators make of such values.
* `alike_literal`: a literal in the place of what folds to it.
* `foldSlot_alike`, `foldSlots_alike`: what a pass makes of trees that it may replace.
-/

namespace ClassCompiler

open List (Forall₂)

theorem Constant.forall₂_mem_right {α β : Type} {R : α → β → Prop} {as : List α} {bs : List β}
    (h : Forall₂ R as bs) {b : β} (hb : b ∈ bs) : ∃ a ∈ as, R a b := by
  induction h with
  | nil => exact absurd hb List.not_mem_nil
  | cons hab _ ih =>
    rcases List.mem_cons.mp hb with rfl | hb
    · exact ⟨_, List.mem_cons_self, hab⟩
    · obtain ⟨a, ha, hR⟩ := ih hb
      exact ⟨a, List.mem_cons_of_mem _ ha, hR⟩

namespace Meaning

open Constant

/-! ## Constants are values -/

/-- The value that a constant is. -/
def Value.ofConstant : Constant → Value
  | .int value => .int value
  | .bool value => .bool value

namespace Value

/-- Where the compiler computes an operation on constants, it computes what the operation gives. -/
theorem binary_ofConstant {op : BinaryOp} {a b c : Constant} (h : binary? op a b = some c) :
    Value.binary op (ofConstant a) (ofConstant b) = .ok (ofConstant c) := by
  cases op <;> cases a <;> cases b <;> simp only [binary?, reduceCtorEq] at h
  case div.int.int x y =>
    split at h
    · exact absurd h (by simp)
    · rename_i hy
      rw [← Option.some.inj h, ofConstant, ofConstant, ofConstant, binary_div, if_neg hy]
  all_goals rw [← Option.some.inj h]; simp only [ofConstant, binary_add, binary_sub, binary_mul,
    binary_and, binary_or, binary_lt, binary_gt]

theorem negate_ofConstant {a c : Constant} (h : negate? a = some c) :
    (ofConstant a).negate = .ok (ofConstant c) := by
  cases a with
  | int _ => exact absurd h (by simp [negate?])
  | bool b =>
    rw [← Option.some.inj h]
    rfl

end Value

/-! ## Literals -/

variable {σ : Type} {w : World σ} {A : Activation}

theorem evalExpr_of_ofKind? {t : Ast} {c : Constant} (h : ofKind? t.kind = some c) (vars : Vars) :
    evalExpr w A vars t = pure (Value.ofConstant c) := by
  obtain ⟨n, ts⟩ := t
  rw [Tree.kind, Tree.label] at h
  unfold evalExpr
  cases hk : n.kind <;> rw [hk] at h <;> simp only [ofKind?, reduceCtorEq] at h
  all_goals rw [← Option.some.inj h]; rfl

theorem evalEffect_of_ofKind? {t : Ast} {c : Constant} (h : ofKind? t.kind = some c) (vars : Vars) :
    evalEffect w A vars t = pure () := by
  have hvalue := evalExpr_of_ofKind? (w := w) (A := A) h vars
  obtain ⟨n, ts⟩ := t
  rw [Tree.kind, Tree.label] at h
  unfold evalEffect
  cases hk : n.kind <;> rw [hk] at h <;> simp only [ofKind?, reduceCtorEq] at h
  all_goals rw [hvalue]; rfl

@[simp] theorem ofKind?_literal (id : Nat) (n : Numbered) (c : Constant) :
    ofKind? (literal id n c).kind = some c := by
  cases c <;> rfl

theorem isExpression_node {n : Numbered} {k : Kind} (hk : n.kind = k) (h : isExpression k)
    {ts : List Ast} : isExpression (Tree.node n ts).kind := by
  rw [Tree.kind, Tree.label, hk, h]

theorem isExpression_of_ofKind? {k : Kind} {c : Constant} (h : ofKind? k = some c) :
    isExpression k := by
  cases k <;> simp only [ofKind?, reduceCtorEq] at h <;> rfl

/-- An expression that is a constant for what the variables hold may be exchanged for a literal. -/
theorem exprAlike_of_value {vars : Vars} {t t' : Ast} {c : Constant} (hkind : isExpression t.kind)
    (hvalue : evalExpr w A vars t = pure (Value.ofConstant c))
    (heffect : evalEffect w A vars t = pure ()) (h' : ofKind? t'.kind = some c) :
    ExprAlike w A vars t t' := by
  have hkind' := isExpression_of_ofKind? h'
  refine ⟨?_, ?_, ?_⟩
  · rw [evalExpr_of_ofKind? h', hvalue]
  · rw [evalCondition_of_isExpression w A hkind', evalCondition_of_isExpression w A hkind,
      evalExpr_of_ofKind? h', hvalue]
  · rw [evalEffect_of_ofKind? h', heffect]

/-- The same for an expression that is a constant whatever the variables hold. -/
theorem alike_of_value {t t' : Ast} {c : Constant} (hkind : isExpression t.kind)
    (hvalue : ∀ vars, evalExpr w A vars t = pure (Value.ofConstant c))
    (heffect : ∀ vars, evalEffect w A vars t = pure ()) (h' : ofKind? t'.kind = some c) :
    Alike w A t t' := by
  refine ⟨fun vars => exprAlike_of_value hkind (hvalue vars) (heffect vars) h', fun limit => ?_⟩
  rw [execStatement_of_isExpression w A limit (isExpression_of_ofKind? h'),
    execStatement_of_isExpression w A limit hkind, funext (evalEffect_of_ofKind? h'),
    funext heffect]

/-- **A literal in the place of what folds to it.** -/
theorem alike_literal {n : Numbered} {ts : List Ast} {c : Constant}
    (h : foldedValue? n.kind ts = some c) (id : Nat) :
    Alike w A (.node n ts) (literal id n c) := by
  unfold foldedValue? at h
  split at h
  · rename_i op l r rest hk
    obtain ⟨a, ha, h⟩ := Option.bind_eq_some_iff.mp h
    obtain ⟨b, hb, h⟩ := Option.bind_eq_some_iff.mp h
    have hvalue : ∀ vars, evalExpr w A vars (.node n (l :: r :: rest)) =
        pure (Value.ofConstant c) := by
      intro vars
      simp only [evalExpr_binary hk, evalExpr_of_ofKind? ha, evalExpr_of_ofKind? hb,
        Effect.pure_bind, Value.binary_ofConstant h, Effect.ofExcept_ok]
    have heffect : ∀ vars, evalEffect w A vars (.node n (l :: r :: rest)) = pure () := by
      intro vars
      unfold evalEffect
      simp only [hk, hvalue, Effect.pure_bind]
    exact alike_of_value (isExpression_node hk rfl) hvalue heffect
      (ofKind?_literal id n c)
  · rename_i t rest hk
    obtain ⟨a, ha, h⟩ := Option.bind_eq_some_iff.mp h
    have hvalue : ∀ vars, evalExpr w A vars (.node n (t :: rest)) = pure (Value.ofConstant c) := by
      intro vars
      simp only [evalExpr_negation hk, evalExpr_of_ofKind? ha, Effect.pure_bind,
        Value.negate_ofConstant h, Effect.ofExcept_ok]
    have heffect : ∀ vars, evalEffect w A vars (.node n (t :: rest)) = pure () := by
      intro vars
      unfold evalEffect
      simp only [hk, hvalue, Effect.pure_bind]
    exact alike_of_value (isExpression_node hk rfl) hvalue heffect
      (ofKind?_literal id n c)
  · rename_i t hk
    have hvalue : ∀ vars, evalExpr w A vars (.node n [t]) = pure (Value.ofConstant c) := by
      intro vars
      rw [evalExpr_parenthesis hk, evalExpr_of_ofKind? h]
    have heffect : ∀ vars, evalEffect w A vars (.node n [t]) = pure () := by
      intro vars
      simp only [evalEffect, hk, evalEffect_of_ofKind? h]
    exact alike_of_value (isExpression_node hk rfl) hvalue heffect
      (ofKind?_literal id n c)
  · exact absurd h (by simp)

/-! ## Passes -/

/-- What a pass does to a node: its children first, then the node if it folds by then. -/
theorem foldSlot_run (n : Numbered) (ts : List Ast) (s : FoldState) :
    ∃ id, ((foldSlot (.node n ts)).run s).1 =
      match foldedValue? n.kind ((foldSlots ts).run s).1 with
      | some value => literal id n value
      | none => .node n ((foldSlots ts).run s).1 := by
  have hrun : (foldSlot (.node n ts)).run s =
      (match foldedValue? n.kind ((foldSlots ts).run s).1 with
        | some value => (replaceBy n value).lift
        | none => return .node n ((foldSlots ts).run s).1 : Folding Ast).run
        ((warnDivision n ((foldSlots ts).run s).1).run ((foldSlots ts).run s).2).2 := by
    rw [foldSlot]
    rfl
  rw [hrun]
  cases foldedValue? n.kind ((foldSlots ts).run s).1 with
  | none => exact ⟨0, rfl⟩
  | some value => exact ⟨_, rfl⟩

theorem foldSlots_cons_run (t : Ast) (ts : List Ast) (s : FoldState) :
    (foldSlots (t :: ts)).run s =
      (((foldSlot t).run ((foldSlots ts).run s).2).1 :: ((foldSlots ts).run s).1,
        ((foldSlot t).run ((foldSlots ts).run s).2).2) := by
  rw [foldSlots]
  rfl

/-- The trees of a list are folded each by itself. -/
theorem foldSlots_forall₂ {R : Ast → Ast → Prop} {ts : List Ast}
    (h : ∀ t ∈ ts, ∀ s, R t ((foldSlot t).run s).1) (s : FoldState) :
    Forall₂ R ts ((foldSlots ts).run s).1 := by
  induction ts generalizing s with
  | nil =>
    rw [foldSlots]
    exact .nil
  | cons t ts ih =>
    rw [foldSlots_cons_run]
    exact .cons (h t List.mem_cons_self _) (ih (fun u hu => h u (List.mem_cons_of_mem t hu)) s)

/-- **Folding a tree keeps its meaning.** -/
theorem foldSlot_alike (t : Ast) (s : FoldState) : Alike w A t ((foldSlot t).run s).1 := by
  induction t using Tree.induction generalizing s with
  | node n ts ih =>
    have hnode : Alike w A (.node n ts) (.node n ((foldSlots ts).run s).1) :=
      .node n (foldSlots_forall₂ ih s)
    obtain ⟨id, hrun⟩ := foldSlot_run n ts s
    rw [hrun]
    cases hfold : foldedValue? n.kind ((foldSlots ts).run s).1 with
    | none => exact hnode
    | some value => exact hnode.trans (alike_literal hfold id)

theorem foldSlots_alike (ts : List Ast) (s : FoldState) :
    Forall₂ (Alike w A) ts ((foldSlots ts).run s).1 :=
  foldSlots_forall₂ (fun t _ s => foldSlot_alike t s) s

end Meaning
end ClassCompiler
