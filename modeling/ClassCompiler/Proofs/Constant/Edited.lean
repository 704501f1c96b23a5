import ClassCompiler.Proofs.Constant.Optimize
import ClassCompiler.Proofs.Typing.Accepted

/-!
# What optimizing does to a tree

Whatever the passes find out about values, all they do to a tree is to put a literal in the place of
an expression.  Such an expression is built from literals and variables of the method by operators.
What can be said of its value without running anything can be said of the literal too: if it is an
integer by the types of its variables, the literal is one.

To say this once for everything that can be said, an expression is computed in a *domain*: a set
with operators of its own, in which every constant has an element and every variable may have one.
An edit puts a literal in the place of an expression with the same element.  Edits compose, and an
expression has the element after them that it had before.

* `Domain`, `Domain.eval?`: domains, and expressions in them.
* `Domain.types`: the domain of types.
* `Domain.untyped`: the domain in which all constants are the same.
* `Edited`: a tree in which literals have taken the place of expressions.
* `Edited.trans`, `Edited.eval?`: edits one after another.
* `foldSlot_edited`: folding.
-/

namespace ClassCompiler

open List (Forall₂)
open Typing (resultOf)

/-- The types of constants; none for any other type. -/
def Ty.scalar? (t : Ty) : Option Ty :=
  if t.isInt then some .int else if t.isBoolean then some .boolean else none

theorem Ty.scalar?_eq_some {t τ : Ty} (h : t.scalar? = some τ) :
    t.isArray = false ∧ t.name = τ.name ∧ (τ = .int ∨ τ = .boolean) := by
  unfold scalar? at h
  split at h
  · rename_i hint
    cases Option.some.inj h
    simp only [isInt, Bool.and_eq_true, Bool.not_eq_true', beq_iff_eq] at hint
    exact ⟨hint.1, hint.2, .inl rfl⟩
  · split at h
    · rename_i hboolean
      cases Option.some.inj h
      simp only [isBoolean, Bool.and_eq_true, Bool.not_eq_true', beq_iff_eq] at hboolean
      exact ⟨hboolean.1, hboolean.2, .inr rfl⟩
    · cases h

theorem Ty.scalar?_of_name {t τ : Ty} (harray : t.isArray = false) (hname : t.name = τ.name)
    (hτ : τ = .int ∨ τ = .boolean) : t.scalar? = some τ := by
  obtain ⟨name, isArray, origin⟩ := t
  dsimp only at harray hname
  subst harray hname
  rcases hτ with rfl | rfl <;> rfl

namespace Constant

/-! ## Domains -/

/-- A set to compute in instead of the constants, with an element for every constant and for some of
the variables. -/
structure Domain (κ : Type) where
  ofConstant : Constant → κ
  ofName? : String → Option κ
  negate? : κ → Option κ
  binary? : BinaryOp → κ → κ → Option κ
  negate?_ofConstant : ∀ a c, Constant.negate? a = some c →
    negate? (ofConstant a) = some (ofConstant c)
  binary?_ofConstant : ∀ op a b c, Constant.binary? op a b = some c →
    binary? op (ofConstant a) (ofConstant b) = some (ofConstant c)

namespace Domain

variable {κ : Type} (D : Domain κ)

/-- The element of an expression over literals and variables, if there is one. -/
def eval? : Ast → Option κ
  | .node n ts =>
    match n.kind with
    | .identifier name => D.ofName? name
    | .parenthesis =>
      match ts with
      | [] => none
      | t :: _ => eval? t
    | .negation =>
      match ts with
      | [] => none
      | t :: _ => (eval? t).bind D.negate?
    | .binary op =>
      match ts with
      | l :: r :: _ => (eval? l).bind fun a => (eval? r).bind fun b => D.binary? op a b
      | _ => none
    | kind => (ofKind? kind).map D.ofConstant

variable {D}

theorem eval?_identifier {n : Numbered} {name : String} (hk : n.kind = .identifier name)
    (ts : List Ast) : D.eval? (.node n ts) = D.ofName? name := by
  rw [eval?.eq_def]
  simp only [hk]

theorem eval?_parenthesis {n : Numbered} (hk : n.kind = .parenthesis) (t : Ast) (ts : List Ast) :
    D.eval? (.node n (t :: ts)) = D.eval? t := by
  rw [eval?.eq_def]
  simp only [hk]

theorem eval?_negation {n : Numbered} (hk : n.kind = .negation) {t : Ast} {ts : List Ast} {a x : κ}
    (h : D.eval? t = some a) (hx : D.negate? a = some x) :
    D.eval? (.node n (t :: ts)) = some x := by
  rw [eval?.eq_def]
  simp only [hk, h, Option.bind_some, hx]

theorem eval?_binary {n : Numbered} {op : BinaryOp} (hk : n.kind = .binary op) {l r : Ast}
    {ts : List Ast} {a b x : κ} (hl : D.eval? l = some a) (hr : D.eval? r = some b)
    (hx : D.binary? op a b = some x) : D.eval? (.node n (l :: r :: ts)) = some x := by
  rw [eval?.eq_def]
  simp only [hk, hl, hr, Option.bind_some, hx]

/-- A literal has the element of its constant. -/
theorem eval?_of_ofKind? {t : Ast} {c : Constant} (h : ofKind? t.kind = some c) :
    D.eval? t = some (D.ofConstant c) := by
  obtain ⟨n, ts⟩ := t
  have h : ofKind? n.kind = some c := h
  rw [eval?.eq_def]
  cases hk : n.kind <;> rw [hk] at h <;> simp only [ofKind?, reduceCtorEq] at h
  all_goals
    cases Option.some.inj h
    simp only [hk]
    rfl

/-- The ways in which an expression has an element. -/
theorem eval?_cases {n : Numbered} {ts : List Ast} {x : κ} (h : D.eval? (.node n ts) = some x) :
    (∃ c, ofKind? n.kind = some c ∧ x = D.ofConstant c) ∨
    (∃ name, n.kind = .identifier name ∧ D.ofName? name = some x) ∨
    (∃ t rest, n.kind = .parenthesis ∧ ts = t :: rest ∧ D.eval? t = some x) ∨
    (∃ t rest a, n.kind = .negation ∧ ts = t :: rest ∧ D.eval? t = some a ∧
      D.negate? a = some x) ∨
    (∃ op l r rest a b, n.kind = .binary op ∧ ts = l :: r :: rest ∧ D.eval? l = some a ∧
      D.eval? r = some b ∧ D.binary? op a b = some x) := by
  rw [eval?.eq_def] at h
  cases hk : n.kind <;> simp only [hk, ofKind?, Option.map_none, Option.map_some, reduceCtorEq] at h
  case integer v => exact .inl ⟨.int v, rfl, (Option.some.inj h).symm⟩
  case boolean v => exact .inl ⟨.bool v, rfl, (Option.some.inj h).symm⟩
  case identifier name => exact .inr (.inl ⟨name, rfl, h⟩)
  case parenthesis =>
    cases ts with
    | nil => cases h
    | cons t rest => exact .inr (.inr (.inl ⟨t, rest, rfl, rfl, h⟩))
  case negation =>
    cases ts with
    | nil => cases h
    | cons t rest =>
      obtain ⟨a, ha, h⟩ := Option.bind_eq_some_iff.mp h
      exact .inr (.inr (.inr (.inl ⟨t, rest, a, rfl, rfl, ha, h⟩)))
  case binary op =>
    rcases ts with - | ⟨l, - | ⟨r, rest⟩⟩
    · cases h
    · cases h
    · obtain ⟨a, ha, h⟩ := Option.bind_eq_some_iff.mp h
      obtain ⟨b, hb, h⟩ := Option.bind_eq_some_iff.mp h
      exact .inr (.inr (.inr (.inr ⟨op, l, r, rest, a, b, rfl, rfl, ha, hb, h⟩)))

/-- A condition is no expression. -/
theorem eval?_condition {n : Numbered} (hk : n.kind = .condition) (ts : List Ast) :
    D.eval? (.node n ts) = none := by
  rw [eval?.eq_def]
  simp only [hk]
  rfl

end Domain

/-! ### Types -/

/-- The type of a constant. -/
def type : Constant → Ty
  | .int _ => .int
  | .bool _ => .boolean

/-- The type of the operands that an operator takes. -/
def operandTy (op : BinaryOp) : Ty :=
  if op.isLogical then .boolean else .int

theorem type_of_binary? {op : BinaryOp} {a b c : Constant} (h : binary? op a b = some c) :
    a.type = operandTy op ∧ b.type = operandTy op ∧ c.type = resultOf op := by
  cases op <;> cases a <;> cases b <;> simp only [binary?, reduceCtorEq] at h
  case div.int.int x y =>
    split at h
    · cases h
    · cases Option.some.inj h
      exact ⟨rfl, rfl, rfl⟩
  all_goals
    cases Option.some.inj h
    exact ⟨rfl, rfl, rfl⟩

theorem type_of_negate? {a c : Constant} (h : negate? a = some c) :
    a.type = .boolean ∧ c.type = .boolean := by
  cases a with
  | int _ => cases h
  | bool b =>
    cases Option.some.inj h
    exact ⟨rfl, rfl⟩

/-- The type of a local or parameter that holds integers or truth values. -/
def variableScalar? (T : ClassTable) (method name : String) : Option Ty :=
  match T.resolve? method name with
  | some (.local, s) => s.type.scalar?
  | some (.parameter, s) => s.type.scalar?
  | _ => none

theorem variableScalar?_eq_some {T : ClassTable} {method name : String} {τ : Ty} :
    variableScalar? T method name = some τ ↔ ∃ scope symbol,
      T.resolve? method name = some (scope, symbol) ∧ scope ≠ .field ∧
        symbol.type.scalar? = some τ := by
  unfold variableScalar?
  split
  · rename_i s hres
    simp [hres]
  · rename_i s hres
    simp [hres]
  · rename_i hlocal hparameter
    constructor
    · exact fun h => absurd h (by simp)
    · rintro ⟨scope, symbol, hres, hscope, -⟩
      cases scope with
      | «local» => exact absurd hres (hlocal symbol)
      | parameter => exact absurd hres (hparameter symbol)
      | field => exact absurd rfl hscope

theorem isTracked_eq_true {T : ClassTable} {method name : String} :
    isTracked T method name = true ↔ ∃ scope symbol,
      T.resolve? method name = some (scope, symbol) ∧ scope ≠ .field := by
  unfold isTracked
  split
  · rename_i s hres
    simp [hres]
  · rename_i s hres
    simp [hres]
  · rename_i hlocal hparameter
    constructor
    · exact fun h => absurd h (by simp)
    · rintro ⟨scope, symbol, hres, hscope⟩
      cases scope with
      | «local» => exact absurd hres (hlocal symbol)
      | parameter => exact absurd hres (hparameter symbol)
      | field => exact absurd rfl hscope

/-- The domain of types: a variable has the type it was declared with, if constants are of that
type. -/
def Domain.types (T : ClassTable) (method : String) : Domain Ty where
  ofConstant := type
  ofName? := variableScalar? T method
  negate? τ := if τ = .boolean then some .boolean else none
  binary? op τ τ' :=
    if τ = operandTy op ∧ τ' = operandTy op then some (resultOf op) else none
  negate?_ofConstant a c h := by
    obtain ⟨ha, hc⟩ := type_of_negate? h
    rw [ha, hc, if_pos rfl]
  binary?_ofConstant op a b c h := by
    obtain ⟨ha, hb, hc⟩ := type_of_binary? h
    rw [ha, hb, hc, if_pos ⟨rfl, rfl⟩]

namespace Domain

variable {T : ClassTable} {method : String} {τ τ' x : Ty}

theorem types_negate? (h : (types T method).negate? τ = some x) : τ = .boolean ∧ x = .boolean := by
  change (if τ = .boolean then some .boolean else none) = some x at h
  split at h
  · exact ⟨‹_›, (Option.some.inj h).symm⟩
  · cases h

theorem types_binary? {op : BinaryOp} (h : (types T method).binary? op τ τ' = some x) :
    τ = operandTy op ∧ τ' = operandTy op ∧ x = resultOf op := by
  change (if τ = operandTy op ∧ τ' = operandTy op then some (resultOf op) else none) = some x at h
  split at h
  · rename_i hfits
    exact ⟨hfits.1, hfits.2, (Option.some.inj h).symm⟩
  · cases h

/-- The types of constants are two. -/
theorem types_eval? {t : Ast} (h : (types T method).eval? t = some τ) :
    τ = .int ∨ τ = .boolean := by
  induction t using Tree.induction generalizing τ with
  | node n ts ih =>
    rcases eval?_cases h with ⟨c, -, rfl⟩ | ⟨name, -, hname⟩ | ⟨t, rest, -, rfl, ht⟩ |
      ⟨t, rest, a, -, -, -, hx⟩ | ⟨op, l, r, rest, a, b, -, -, -, -, hx⟩
    · cases c with
      | int _ => exact .inl rfl
      | bool _ => exact .inr rfl
    · obtain ⟨_, symbol, -, -, hscalar⟩ := variableScalar?_eq_some.mp hname
      exact (Ty.scalar?_eq_some hscalar).2.2
    · exact ih t List.mem_cons_self ht
    · exact .inr (types_negate? hx).2
    · rw [(types_binary? hx).2.2]
      unfold resultOf
      split
      · exact .inl rfl
      · exact .inr rfl

end Domain

/-- The domain in which all constants are the same, and every local and parameter may hold one. -/
def Domain.untyped (T : ClassTable) (method : String) : Domain Unit where
  ofConstant _ := ()
  ofName? name := if isTracked T method name then some () else none
  negate? _ := some ()
  binary? _ _ _ := some ()
  negate?_ofConstant _ _ _ := rfl
  binary?_ofConstant _ _ _ _ _ := rfl

theorem Domain.untyped_ofName? {T : ClassTable} {method name : String} {x : Unit} :
    (untyped T method).ofName? name = some x ↔ isTracked T method name = true := by
  show (if isTracked T method name then some () else none) = some x ↔ _
  split
  · rename_i htracked
    simp [htracked]
  · rename_i htracked
    simp [htracked]

/-! ## Edited trees -/

/-- Relations between trees of two lists follow one another if those between the trees do. -/
theorem forall₂_trans_of_mem {R : Ast → Ast → Prop} {ts ts' ts'' : List Ast}
    (htrans : ∀ t ∈ ts, ∀ t' t'', R t t' → R t' t'' → R t t'') (h : Forall₂ R ts ts')
    (h' : Forall₂ R ts' ts'') : Forall₂ R ts ts'' := by
  induction h generalizing ts'' with
  | nil =>
    cases h'
    exact .nil
  | cons ht _ ih =>
    cases h' with
    | cons ht' hts' =>
      refine .cons (htrans _ List.mem_cons_self _ _ ht ht') (ih ?_ hts')
      exact fun u hu => htrans u (List.mem_cons_of_mem _ hu)

variable {κ : Type} {D : Domain κ}

/-- A tree in which literals have taken the place of expressions with the same elements. -/
inductive Edited (D : Domain κ) : Ast → Ast → Prop
  | node (n : Numbered) {ts ts' : List Ast} (h : Forall₂ (Edited D) ts ts') :
    Edited D (.node n ts) (.node n ts')
  | literal {t : Ast} {n : Numbered} {c : Constant} (heval : D.eval? t = some (D.ofConstant c))
    (hk : ofKind? n.kind = some c) : Edited D t (.node n [])

namespace Edited

theorem refl (t : Ast) : Edited D t t := by
  induction t using Tree.induction with
  | node n ts ih => exact .node n (List.forall₂_same.mpr ih)

theorem refl_all (ts : List Ast) : Forall₂ (Edited D) ts ts :=
  List.forall₂_same.mpr fun t _ => .refl t

/-- An expression had the element that it has after the edits. -/
theorem eval? {t t' : Ast} (h : Edited D t t') {x : κ} (h' : D.eval? t' = some x) :
    D.eval? t = some x := by
  induction t using Tree.induction generalizing t' x with
  | node n ts ih =>
    cases h with
    | literal heval hk =>
      rw [Domain.eval?_of_ofKind? (by exact hk)] at h'
      rw [heval, h']
    | node _ hts =>
      rcases Domain.eval?_cases h' with ⟨c, hc, rfl⟩ | ⟨name, hk, hname⟩ |
        ⟨t', rest', hk, rfl, ht'⟩ | ⟨t', rest', a, hk, rfl, ht', hx⟩ |
        ⟨op, l', r', rest', a, b, hk, rfl, hl', hr', hx⟩
      · exact Domain.eval?_of_ofKind? hc
      · rw [Domain.eval?_identifier hk, hname]
      · cases hts with
        | cons ht _ =>
          rw [Domain.eval?_parenthesis hk]
          exact ih _ List.mem_cons_self ht ht'
      · cases hts with
        | cons ht _ => exact Domain.eval?_negation hk (ih _ List.mem_cons_self ht ht') hx
      · cases hts with
        | cons hl hrest =>
          cases hrest with
          | cons hr _ =>
            exact Domain.eval?_binary hk (ih _ List.mem_cons_self hl hl')
              (ih _ (List.mem_cons_of_mem _ List.mem_cons_self) hr hr') hx

/-- Edits follow one another. -/
theorem trans {t t' t'' : Ast} (h : Edited D t t') (h' : Edited D t' t'') : Edited D t t'' := by
  induction t using Tree.induction generalizing t' t'' with
  | node n ts ih =>
    cases h' with
    | literal heval hk => exact .literal (h.eval? heval) hk
    | node m hts' =>
      cases h with
      | node _ hts => exact .node n (forall₂_trans_of_mem (fun t ht _ _ => ih t ht) hts hts')
      | literal heval hk =>
        cases hts'
        exact .literal heval hk

/-- What has no element stays, but for what is below it. -/
theorem label_eq {n : Numbered} {ts : List Ast} {t' : Ast} (h : Edited D (.node n ts) t')
    (hnone : D.eval? (.node n ts) = none) :
    ∃ ts', t' = .node n ts' ∧ Forall₂ (Edited D) ts ts' := by
  cases h with
  | node _ hts => exact ⟨_, rfl, hts⟩
  | literal heval hk =>
    rw [hnone] at heval
    cases heval

end Edited

/-! ## Folding -/

/-- What folds has the element of its value. -/
theorem eval?_of_foldedValue? {n : Numbered} {ts : List Ast} {c : Constant}
    (h : foldedValue? n.kind ts = some c) : D.eval? (.node n ts) = some (D.ofConstant c) := by
  unfold foldedValue? at h
  split at h
  · rename_i op l r rest hk
    obtain ⟨a, ha, h⟩ := Option.bind_eq_some_iff.mp h
    obtain ⟨b, hb, h⟩ := Option.bind_eq_some_iff.mp h
    exact Domain.eval?_binary hk (Domain.eval?_of_ofKind? ha) (Domain.eval?_of_ofKind? hb)
      (D.binary?_ofConstant op a b c h)
  · rename_i t rest hk
    obtain ⟨a, ha, h⟩ := Option.bind_eq_some_iff.mp h
    exact Domain.eval?_negation hk (Domain.eval?_of_ofKind? ha) (D.negate?_ofConstant a c h)
  · rename_i t hk
    rw [Domain.eval?_parenthesis hk]
    exact Domain.eval?_of_ofKind? h
  · cases h

theorem Edited.of_literal {t : Ast} {id : Nat} {n : Numbered} {c : Constant}
    (h : D.eval? t = some (D.ofConstant c)) : Edited D t (Constant.literal id n c) :=
  .literal h (Meaning.ofKind?_literal id n c)

/-- **Folding edits a tree.** -/
theorem foldSlot_edited (t : Ast) (s : FoldState) : Edited D t ((foldSlot t).run s).1 := by
  induction t using Tree.induction generalizing s with
  | node n ts ih =>
    have hnode : Edited D (.node n ts) (.node n ((foldSlots ts).run s).1) :=
      .node n (Meaning.foldSlots_forall₂ ih s)
    obtain ⟨id, hrun⟩ := Meaning.foldSlot_run n ts s
    rw [hrun]
    cases hfold : foldedValue? n.kind ((foldSlots ts).run s).1 with
    | none => exact hnode
    | some value => exact .of_literal (hnode.eval? (eval?_of_foldedValue? hfold))

end Constant
end ClassCompiler
