import ClassCompiler.ThreeAddress.Lower
import ClassCompiler.Proofs.Tree.Induction

/-!
# What lowering gives

Lowering fails where a tree lacks something, and hands out fresh names on the way.  What it gives
when it does not fail is said here once, one case for each kind of node: the code of the node in
terms of the code of its children, with the supply of fresh names at each point.  Everything that is
shown of lowered code is shown by these cases.

* `LowersExpr`: an expression.
* `lowerCall_eq_ok`, `lowerArgs_cons_eq_ok`: a call and its arguments.
* `LowersStatement`: a statement.
* `lowerMethod_eq_ok`: a method.
-/

namespace ClassCompiler
namespace ThreeAddress

/-! ## Computations that succeed -/

namespace Lowering

variable {α β : Type} {f : Fresh}

theorem bind_eq_ok {x : Lowering α} {g : α → Lowering β} {r : β × Fresh} :
    (x >>= g).run f = .ok r ↔ ∃ a f₁, x.run f = .ok (a, f₁) ∧ (g a).run f₁ = .ok r := by
  rw [StateT.run_bind]
  cases hx : x.run f with
  | error e => exact ⟨fun h => (nomatch h), fun ⟨_, _, h, _⟩ => nomatch h⟩
  | ok p =>
    refine ⟨fun h => ⟨p.1, p.2, rfl, h⟩, fun ⟨a, f₁, hp, h⟩ => ?_⟩
    cases hp
    exact h

theorem pure_eq_ok {a b : α} {f' : Fresh} :
    (pure a : Lowering α).run f = .ok (b, f') ↔ b = a ∧ f' = f := by
  change Except.ok (a, f) = Except.ok (b, f') ↔ _
  rw [Except.ok.injEq, Prod.mk.injEq, eq_comm, @eq_comm _ f]

theorem throw_ne_ok {e : Error} {r : α × Fresh} : (throw e : Lowering α).run f ≠ .ok r :=
  fun h => nomatch h

theorem liftExcept_eq_ok {x : Except Error α} {a : α} {f' : Fresh} :
    (liftExcept x).run f = .ok (a, f') ↔ x = .ok a ∧ f' = f := by
  cases x with
  | error e => exact ⟨fun h => (nomatch h), fun h => nomatch h.1⟩
  | ok b =>
    change Except.ok (b, f) = Except.ok (a, f') ↔ _
    rw [Except.ok.injEq, Prod.mk.injEq, Except.ok.injEq, @eq_comm _ f]

theorem newLabel_eq_ok {k : Nat} {f' : Fresh} :
    newLabel.run f = .ok (k, f') ↔ k = f.nextLabel ∧ f' = f.label.2 := by
  change Except.ok f.label = Except.ok (k, f') ↔ _
  rw [Except.ok.injEq, Fresh.label, Prod.mk.injEq, eq_comm, @eq_comm _ f']

theorem newTemp_eq_ok {type : ValueType} {v : Var} {f' : Fresh} :
    (newTemp type).run f = .ok (v, f') ↔ v = (f.temp type).1 ∧ f' = (f.temp type).2 := by
  change Except.ok (f.temp type) = Except.ok (v, f') ↔ _
  rw [Except.ok.injEq, Prod.ext_iff, eq_comm, @eq_comm _ f']

end Lowering

open Lowering

/-- Code and the assignment of a right-hand side to the next temporary. -/
def Fresh.lowered (f : Fresh) (code : List Instr) (type : ValueType) (rhs : Rhs) : Lowered :=
  ⟨code ++ [.assign (f.temp type).1 rhs], .var (f.temp type).1⟩

theorem assignTemp_eq_ok {code : List Instr} {type : ValueType} {rhs : Rhs} {f f' : Fresh}
    {v : Lowered} :
    (assignTemp code type rhs).run f = .ok (v, f') ↔
      v = f.lowered code type rhs ∧ f' = (f.temp type).2 := by
  unfold assignTemp
  rw [bind_eq_ok]
  constructor
  · rintro ⟨dest, f₁, hdest, h⟩
    obtain ⟨rfl, rfl⟩ := newTemp_eq_ok.mp hdest
    exact pure_eq_ok.mp h
  · rintro ⟨rfl, rfl⟩
    exact ⟨_, _, newTemp_eq_ok.mpr ⟨rfl, rfl⟩, pure_eq_ok.mpr ⟨rfl, rfl⟩⟩

/-! ## Expressions -/

/-- What an expression is lowered to.  The parameters are the supply of names before it and its
node, the indices its children, its code and value, and the supply after it. -/
inductive LowersExpr (Γ : Site) (expected : Option ValueType) (f : Fresh) (n : Numbered) :
    List Ast → Lowered → Fresh → Prop
  | integer {value ts} (hk : n.kind = .integer value) :
    LowersExpr Γ expected f n ts (.ofOperand (.int value)) f
  | boolean {value ts} (hk : n.kind = .boolean value) :
    LowersExpr Γ expected f n ts (.ofOperand (.bool value)) f
  | string {value ts} (hk : n.kind = .string value) :
    LowersExpr Γ expected f n ts (.ofOperand (.string value)) f
  | this {ts} (hk : n.kind = .this) : LowersExpr Γ expected f n ts (.ofOperand Γ.this) f
  | className {name ts} (hk : n.kind = .className name) :
    LowersExpr Γ expected f n ts (.ofOperand (.classRef name)) f
  | variable {name scope symbol type ts} (hk : n.kind = .identifier name)
    (hres : Γ.table.resolve? Γ.info.name name = some (scope, symbol)) (hscope : scope ≠ .field)
    (htype : ValueType.ofType symbol.type = .ok type) :
    LowersExpr Γ expected f n ts (.ofOperand (.var ⟨name, type⟩)) f
  | field {name symbol type ts} (hk : n.kind = .identifier name)
    (hres : Γ.table.resolve? Γ.info.name name = some (.field, symbol))
    (hstatic : Γ.info.isStatic = false) (htype : ValueType.ofType symbol.type = .ok type) :
    LowersExpr Γ expected f n ts (f.lowered [] type (.getField Γ.this ⟨name, type⟩))
      (f.temp type).2
  | classRef {name ts} (hk : n.kind = .identifier name)
    (hres : Γ.table.resolve? Γ.info.name name = none ∨
      ∃ symbol, Γ.table.resolve? Γ.info.name name = some (.field, symbol) ∧
        Γ.info.isStatic = true)
    (hclass : (Γ.table.classReference? name).isSome) :
    LowersExpr Γ expected f n ts (.ofOperand (.classRef name)) f
  | parenthesis {t ts v f'} (hk : n.kind = .parenthesis)
    (h : (lowerExpr Γ expected t).run f = .ok (v, f')) : LowersExpr Γ expected f n (t :: ts) v f'
  | binary {op l r ts left f₁ right f₂} (hk : n.kind = .binary op)
    (hl : (lowerExpr Γ (some (operandType op)) l).run f = .ok (left, f₁))
    (hr : (lowerExpr Γ (some (operandType op)) r).run f₁ = .ok (right, f₂)) :
    LowersExpr Γ expected f n (l :: r :: ts)
      (f₂.lowered (left.code ++ right.code) (resultType op) (.binary op left.value right.value))
      (f₂.temp (resultType op)).2
  | negation {t ts inner f₁} (hk : n.kind = .negation)
    (h : (lowerExpr Γ (some .bool) t).run f = .ok (inner, f₁)) :
    LowersExpr Γ expected f n (t :: ts) (f₁.lowered inner.code .bool (.not inner.value))
      (f₁.temp .bool).2
  | arrayAccess {a i ts base f₁ index f₂ array} (hk : n.kind = .arrayAccess)
    (ha : (lowerExpr Γ (some .intArray) a).run f = .ok (base, f₁))
    (hi : (lowerExpr Γ (some .int) i).run f₁ = .ok (index, f₂)) (harray : base.value = .var array) :
    LowersExpr Γ expected f n (a :: i :: ts)
      (f₂.lowered (base.code ++ index.code) .int (.arrayLoad array index.value)) (f₂.temp .int).2
  | arrayLength {t ts base f₁} (hk : n.kind = .arrayLength)
    (h : (lowerExpr Γ none t).run f = .ok (base, f₁)) :
    LowersExpr Γ expected f n (t :: ts) (f₁.lowered base.code .int (.arrayLength base.value))
      (f₁.temp .int).2
  | newArray {t ts length f₁} (hk : n.kind = .newArray)
    (h : (lowerExpr Γ (some .int) t).run f = .ok (length, f₁)) :
    LowersExpr Γ expected f n (t :: ts) (f₁.lowered length.code .intArray (.newArray length.value))
      (f₁.temp .intArray).2
  | newObject {name ts} (hk : n.kind = .newObject name) :
    LowersExpr Γ expected f n ts (f.lowered [] (.object name) (.newObject name))
      (f.temp (.object name)).2
  | invocation {method ts code call f₁} (hk : n.kind = .invocation method)
    (h : (lowerCall Γ n method (some (expected.getD .int)) ts).run f = .ok ((code, call), f₁)) :
    LowersExpr Γ expected f n ts (f₁.lowered code call.result (.call call)) (f₁.temp call.result).2

/-- A class that is visible. -/
theorem lowerClassName_eq_ok {Γ : Site} {n : Numbered} {name : String} {f f' : Fresh} {v : Lowered}
    (h : (lowerClassName Γ n name).run f = .ok (v, f')) :
    (Γ.table.classReference? name).isSome ∧ v = .ofOperand (.classRef name) ∧ f' = f := by
  unfold lowerClassName at h
  split at h
  · rename_i hclass
    exact ⟨hclass, pure_eq_ok.mp h⟩
  · exact absurd h throw_ne_ok

theorem lowerIdentifier_cases {Γ : Site} {expected : Option ValueType} {n : Numbered}
    {name : String} (hk : n.kind = .identifier name) {ts : List Ast} {f f' : Fresh} {v : Lowered}
    (h : (lowerIdentifier Γ n name).run f = .ok (v, f')) : LowersExpr Γ expected f n ts v f' := by
  unfold lowerIdentifier at h
  split at h
  · rename_i scope symbol hres
    replace ⟨type, f₁, hlift, h⟩ := bind_eq_ok.mp h
    obtain ⟨htype, rfl⟩ := liftExcept_eq_ok.mp hlift
    cases scope with
    | field =>
      dsimp only at h
      split at h
      · rename_i hstatic
        obtain ⟨hclass, rfl, rfl⟩ := lowerClassName_eq_ok h
        exact .classRef hk (.inr ⟨symbol, hres, hstatic⟩) hclass
      · rename_i hstatic
        obtain ⟨rfl, rfl⟩ := assignTemp_eq_ok.mp h
        exact .field hk hres (by simpa using hstatic) htype
    | «local» | parameter =>
      obtain ⟨rfl, rfl⟩ := pure_eq_ok.mp h
      exact .variable hk hres (by simp) htype
  · rename_i hres
    obtain ⟨hclass, rfl, rfl⟩ := lowerClassName_eq_ok h
    exact .classRef hk (.inl hres) hclass

theorem lowerLeaf_cases {Γ : Site} {expected : Option ValueType} {n : Numbered} {kind : Kind}
    {ts : List Ast} {f f' : Fresh} {v : Lowered} (hk : n.kind = kind)
    (h : (lowerLeaf Γ n kind).run f = .ok (v, f')) : LowersExpr Γ expected f n ts v f' := by
  cases kind with
  | integer value =>
    obtain ⟨rfl, rfl⟩ := pure_eq_ok.mp h
    exact .integer hk
  | boolean value =>
    obtain ⟨rfl, rfl⟩ := pure_eq_ok.mp h
    exact .boolean hk
  | string value =>
    obtain ⟨rfl, rfl⟩ := pure_eq_ok.mp h
    exact .string hk
  | this =>
    obtain ⟨rfl, rfl⟩ := pure_eq_ok.mp h
    exact .this hk
  | className name =>
    obtain ⟨rfl, rfl⟩ := pure_eq_ok.mp h
    exact .className hk
  | identifier name => exact lowerIdentifier_cases hk h
  | newObject name =>
    obtain ⟨rfl, rfl⟩ := assignTemp_eq_ok.mp h
    exact .newObject hk
  | _ => exact absurd h throw_ne_ok

/-- **What an expression that is lowered gives.** -/
theorem lowerExpr_cases {Γ : Site} {expected : Option ValueType} {n : Numbered} {ts : List Ast}
    {f f' : Fresh} {v : Lowered} (h : (lowerExpr Γ expected (.node n ts)).run f = .ok (v, f')) :
    LowersExpr Γ expected f n ts v f' := by
  rw [lowerExpr.eq_def] at h
  cases hk : n.kind <;> simp only [hk] at h
  case parenthesis =>
    cases ts with
    | nil => exact absurd h throw_ne_ok
    | cons t ts => exact .parenthesis hk h
  case binary op =>
    match ts, h with
    | [], h => exact absurd h throw_ne_ok
    | [l], h =>
      obtain ⟨_, _, _, h⟩ := bind_eq_ok.mp h
      exact absurd h throw_ne_ok
    | l :: r :: ts, h =>
      obtain ⟨left, f₁, hl, h⟩ := bind_eq_ok.mp h
      obtain ⟨right, f₂, hr, h⟩ := bind_eq_ok.mp h
      obtain ⟨rfl, rfl⟩ := assignTemp_eq_ok.mp h
      exact .binary hk hl hr
  case negation =>
    cases ts with
    | nil => exact absurd h throw_ne_ok
    | cons t ts =>
      obtain ⟨inner, f₁, ht, h⟩ := bind_eq_ok.mp h
      obtain ⟨rfl, rfl⟩ := assignTemp_eq_ok.mp h
      exact .negation hk ht
  case arrayAccess =>
    match ts, h with
    | [], h => exact absurd h throw_ne_ok
    | [a], h =>
      obtain ⟨_, _, _, h⟩ := bind_eq_ok.mp h
      exact absurd h throw_ne_ok
    | a :: i :: ts, h =>
      obtain ⟨base, f₁, ha, h⟩ := bind_eq_ok.mp h
      obtain ⟨index, f₂, hi, h⟩ := bind_eq_ok.mp h
      split at h
      · exact absurd h throw_ne_ok
      · rename_i array harray
        obtain ⟨rfl, rfl⟩ := assignTemp_eq_ok.mp h
        refine .arrayAccess hk ha hi ?_
        cases hv : base.value <;> simp [hv, Operand.var?] at harray
        rw [harray]
  case arrayLength =>
    cases ts with
    | nil => exact absurd h throw_ne_ok
    | cons t ts =>
      obtain ⟨base, f₁, ht, h⟩ := bind_eq_ok.mp h
      obtain ⟨rfl, rfl⟩ := assignTemp_eq_ok.mp h
      exact .arrayLength hk ht
  case newArray =>
    cases ts with
    | nil => exact absurd h throw_ne_ok
    | cons t ts =>
      obtain ⟨length, f₁, ht, h⟩ := bind_eq_ok.mp h
      obtain ⟨rfl, rfl⟩ := assignTemp_eq_ok.mp h
      exact .newArray hk ht
  case invocation method =>
    obtain ⟨⟨code, call⟩, f₁, hcall, h⟩ := bind_eq_ok.mp h
    obtain ⟨rfl, rfl⟩ := assignTemp_eq_ok.mp h
    exact .invocation hk hcall
  all_goals exact lowerLeaf_cases hk h

/-- The parameters of a callee, as far as they are known. -/
def paramsOf (callee : Option MethodInfo) : List Symbol :=
  match callee with
  | some info => info.parameters
  | none => []

theorem lowerCall_eq_ok {Γ : Site} {n : Numbered} {method : String} {expected : Option ValueType}
    {ts : List Ast} {f f' : Fresh} {code : List Instr} {call : Call}
    (h : (lowerCall Γ n method expected ts).run f = .ok ((code, call), f')) :
    ∃ t rest target f₁ args result, ts = t :: rest ∧
      (lowerExpr Γ none t).run f = .ok (target, f₁) ∧
      (lowerArgs Γ (paramsOf (Γ.callee? target.value method)) rest).run f₁ = .ok (args, f') ∧
      callResult (Γ.callee? target.value method) expected = .ok result ∧
      code = target.code ++ args.code ∧
      call = { kind := callKind target.value, target := target.value, method, args := args.args,
               params := args.params, result } := by
  rw [lowerCall.eq_def] at h
  cases ts with
  | nil => exact absurd h throw_ne_ok
  | cons t rest =>
    replace ⟨target, f₁, ht, h⟩ := bind_eq_ok.mp h
    replace ⟨args, f₂, hargs, h⟩ := bind_eq_ok.mp h
    replace ⟨result, f₃, hlift, h⟩ := bind_eq_ok.mp h
    obtain ⟨hresult, rfl⟩ := liftExcept_eq_ok.mp hlift
    obtain ⟨heq, rfl⟩ := pure_eq_ok.mp h
    obtain ⟨rfl, rfl⟩ := Prod.mk.inj heq
    refine ⟨t, rest, target, f₁, args, result, rfl, ht, ?_, hresult, rfl, rfl⟩
    unfold paramsOf
    exact hargs

theorem lowerArgs_nil_eq_ok {Γ : Site} {declared : List Symbol} {f f' : Fresh} {args : LoweredArgs}
    (h : (lowerArgs Γ declared []).run f = .ok (args, f')) : args = {} ∧ f' = f := by
  rw [lowerArgs] at h
  exact pure_eq_ok.mp h

theorem lowerArgs_cons_eq_ok {Γ : Site} {declared : List Symbol} {t : Ast} {ts : List Ast}
    {f f' : Fresh} {args : LoweredArgs}
    (h : (lowerArgs Γ declared (t :: ts)).run f = .ok (args, f')) :
    ∃ param arg f₁ rest, nextParam declared = .ok param ∧
      (lowerExpr Γ param t).run f = .ok (arg, f₁) ∧
      (lowerArgs Γ declared.tail ts).run f₁ = .ok (rest, f') ∧
      args = { code := arg.code ++ rest.code, args := arg.value :: rest.args,
               params := param.getD arg.value.type :: rest.params } := by
  rw [lowerArgs] at h
  replace ⟨param, f₁, hlift, h⟩ := bind_eq_ok.mp h
  obtain ⟨hparam, rfl⟩ := liftExcept_eq_ok.mp hlift
  replace ⟨arg, f₂, harg, h⟩ := bind_eq_ok.mp h
  replace ⟨rest, f₃, hrest, h⟩ := bind_eq_ok.mp h
  obtain ⟨rfl, rfl⟩ := pure_eq_ok.mp h
  exact ⟨param, arg, f₂, rest, hparam, harg, hrest, rfl⟩

/-! ## Conditions and effects -/

theorem lowerCondition_eq_ok {Γ : Site} {n : Numbered} {ts : List Ast} {f f' : Fresh} {v : Lowered}
    (h : (lowerCondition Γ (.node n ts)).run f = .ok (v, f')) :
    (∃ t rest, n.kind = .condition ∧ ts = t :: rest ∧
      (lowerExpr Γ (some .bool) t).run f = .ok (v, f')) ∨
    n.kind ≠ .condition ∧ (lowerExpr Γ (some .bool) (.node n ts)).run f = .ok (v, f') := by
  unfold lowerCondition at h
  cases hk : n.kind <;> simp only [hk] at h
  case condition =>
    cases ts with
    | nil => exact absurd h throw_ne_ok
    | cons t rest => exact .inl ⟨t, rest, rfl, rfl, h⟩
  all_goals exact .inr ⟨by simp, h⟩

/-- What an expression that is run for its effect is lowered to. -/
inductive LowersEffect (Γ : Site) (f : Fresh) (n : Numbered) :
    List Ast → List Instr → Fresh → Prop
  | parenthesis {t ts code f'} (hk : n.kind = .parenthesis)
    (h : (lowerEffect Γ t).run f = .ok (code, f')) : LowersEffect Γ f n (t :: ts) code f'
  | invocation {method ts code call f'} (hk : n.kind = .invocation method)
    (h : (lowerCall Γ n method none ts).run f = .ok ((code, call), f')) :
    LowersEffect Γ f n ts (code ++ [.call call]) f'
  | value {ts v f'} (hk : n.kind ≠ .parenthesis) (hk' : ∀ method, n.kind ≠ .invocation method)
    (h : (lowerExpr Γ none (.node n ts)).run f = .ok (v, f')) :
    LowersEffect Γ f n ts (v.code ++ [.noop v.value]) f'

theorem lowerEffect_cases {Γ : Site} {n : Numbered} {ts : List Ast} {f f' : Fresh}
    {code : List Instr} (h : (lowerEffect Γ (.node n ts)).run f = .ok (code, f')) :
    LowersEffect Γ f n ts code f' := by
  rw [lowerEffect.eq_def] at h
  cases hk : n.kind <;> simp only [hk] at h
  case parenthesis =>
    cases ts with
    | nil => exact absurd h throw_ne_ok
    | cons t ts => exact .parenthesis hk h
  case invocation method =>
    obtain ⟨⟨before, call⟩, f₁, hcall, h⟩ := bind_eq_ok.mp h
    obtain ⟨rfl, rfl⟩ := pure_eq_ok.mp h
    exact .invocation hk hcall
  all_goals
    obtain ⟨v, f₁, hv, h⟩ := bind_eq_ok.mp h
    obtain ⟨rfl, rfl⟩ := pure_eq_ok.mp h
    exact .value (by simp [hk]) (by simp [hk]) hv

/-! ## Statements -/

theorem Site.target_eq_ok {Γ : Site} {n : Numbered} {name : String} {scope : Scope} {v : Var}
    (h : Γ.target n name = .ok (scope, v)) :
    ∃ symbol, Γ.table.resolve? Γ.info.name name = some (scope, symbol) ∧
      ValueType.ofType symbol.type = .ok v.type ∧ v.name = name := by
  unfold Site.target at h
  split at h
  · cases h
  · rename_i scope' symbol hres
    cases htype : ValueType.ofType symbol.type with
    | error e => simp [htype, bind, Except.bind] at h
    | ok type =>
      simp only [htype, bind, Except.bind, pure, Except.pure, Except.ok.injEq, Prod.mk.injEq] at h
      obtain ⟨rfl, rfl⟩ := h
      exact ⟨symbol, hres, htype, rfl⟩

/-- The code of a conditional with its labels. -/
def conditionalCode (k : Nat) (cond : Lowered) (thenCode elseCode : List Instr) : List Instr :=
  cond.code ++ [.branch cond.value true s!"Else_{k}"] ++ thenCode
    ++ [.jump s!"EndIf_{k}", .label s!"Else_{k}"] ++ elseCode ++ [.label s!"EndIf_{k}"]

/-- The code of a loop with its labels. -/
def loopCode (k : Nat) (first : Lowered) (body : List Instr) (again : Lowered) : List Instr :=
  first.code ++ [.branch first.value true s!"EndLoop_{k}", .label s!"Loop_{k}"] ++ body
    ++ again.code ++ [.branch again.value false s!"Loop_{k}", .label s!"EndLoop_{k}"]

/-- The branch that is taken if the condition is false. -/
def lowerElse (Γ : Site) : List Ast → Lowering (List Instr)
  | [] => pure []
  | e :: _ => lowerStatement Γ e

/-- What a statement is lowered to. -/
inductive LowersStatement (Γ : Site) (f : Fresh) (n : Numbered) :
    List Ast → List Instr → Fresh → Prop
  | declaration {ts} (hk : n.kind.isDeclaration) : LowersStatement Γ f n ts [] f
  | sequence {ts code f'} (hk : n.kind = .block ∨ n.kind = .thenBranch ∨ n.kind = .elseBranch)
    (h : (lowerStatements Γ ts).run f = .ok (code, f')) : LowersStatement Γ f n ts code f'
  | conditional {c t rest cond f₁ thenCode f₂ elseCode f₃} (hk : n.kind = .conditional)
    (hc : (lowerCondition Γ c).run f.label.2 = .ok (cond, f₁))
    (ht : (lowerStatement Γ t).run f₁ = .ok (thenCode, f₂))
    (he : (lowerElse Γ rest).run f₂ = .ok (elseCode, f₃)) :
    LowersStatement Γ f n (c :: t :: rest) (conditionalCode f.nextLabel cond thenCode elseCode) f₃
  | loop {c body first f₁ bodyCode f₂ again f₃} (hk : n.kind = .loop)
    (hc : (lowerCondition Γ c).run f.label.2 = .ok (first, f₁))
    (hb : (lowerStatements Γ body).run f₁ = .ok (bodyCode, f₂))
    (hc' : (lowerCondition Γ c).run f₂ = .ok (again, f₃)) :
    LowersStatement Γ f n (c :: body) (loopCode f.nextLabel first bodyCode again) f₃
  | expression {e rest code f'} (hk : n.kind = .expression)
    (h : (lowerEffect Γ e).run f = .ok (code, f')) : LowersStatement Γ f n (e :: rest) code f'
  | variable {name scope symbol type t rest v f'} (hk : n.kind = .assignment name)
    (hres : Γ.table.resolve? Γ.info.name name = some (scope, symbol)) (hscope : scope ≠ .field)
    (htype : ValueType.ofType symbol.type = .ok type)
    (h : (lowerExpr Γ (some type) t).run f = .ok (v, f')) :
    LowersStatement Γ f n (t :: rest) (v.storeIn ⟨name, type⟩) f'
  | field {name symbol type t rest v f'} (hk : n.kind = .assignment name)
    (hres : Γ.table.resolve? Γ.info.name name = some (.field, symbol))
    (htype : ValueType.ofType symbol.type = .ok type)
    (h : (lowerExpr Γ (some type) t).run f = .ok (v, f')) :
    LowersStatement Γ f n (t :: rest) (v.code ++ [.putField Γ.this ⟨name, type⟩ v.value]) f'
  | element {name scope symbol type i e rest code array f₁ index f₂ value f₃}
    (hk : n.kind = .arrayAssignment name)
    (hres : Γ.table.resolve? Γ.info.name name = some (scope, symbol))
    (htype : ValueType.ofType symbol.type = .ok type)
    (ha : (lowerArray Γ scope ⟨name, type⟩).run f = .ok ((code, array), f₁))
    (hi : (lowerExpr Γ (some .int) i).run f₁ = .ok (index, f₂))
    (he : (lowerExpr Γ (some .int) e).run f₂ = .ok (value, f₃)) :
    LowersStatement Γ f n (i :: e :: rest)
      (code ++ index.code ++ value.code ++ [.arrayStore array index.value value.value]) f₃
  | returnNone (hk : n.kind = .ret) : LowersStatement Γ f n [] [.ret none] f
  | returnSome {t rest type v f'} (hk : n.kind = .ret)
    (htype : ValueType.ofType Γ.info.returnType = .ok type)
    (h : (lowerExpr Γ (some type) t).run f = .ok (v, f')) :
    LowersStatement Γ f n (t :: rest) (v.code ++ [.ret (some v.value)]) f'
  | condition {ts cond f'} (hk : n.kind = .condition)
    (h : (lowerCondition Γ (.node n ts)).run f = .ok (cond, f')) :
    LowersStatement Γ f n ts (cond.code ++ [.noop cond.value]) f'
  | effect {ts code f'} (hk : n.kind.isStatement = false)
    (h : (lowerEffect Γ (.node n ts)).run f = .ok (code, f')) : LowersStatement Γ f n ts code f'

theorem lowerAssignment_cases {Γ : Site} {n : Numbered} {name : String}
    (hk : n.kind = .assignment name) {ts : List Ast} {f f' : Fresh} {code : List Instr}
    (h : (lowerAssignment Γ n name ts).run f = .ok (code, f')) :
    LowersStatement Γ f n ts code f' := by
  unfold lowerAssignment at h
  replace ⟨⟨scope, dest⟩, f₁, hlift, h⟩ := bind_eq_ok.mp h
  obtain ⟨htarget, rfl⟩ := liftExcept_eq_ok.mp hlift
  obtain ⟨symbol, hres, htype, rfl⟩ := Site.target_eq_ok htarget
  cases ts with
  | nil => exact absurd h throw_ne_ok
  | cons t rest =>
    replace ⟨v, f₂, hv, h⟩ := bind_eq_ok.mp h
    cases scope with
    | field =>
      obtain ⟨rfl, rfl⟩ := pure_eq_ok.mp h
      exact .field hk hres htype hv
    | «local» | parameter =>
      obtain ⟨rfl, rfl⟩ := pure_eq_ok.mp h
      exact .variable hk hres (by simp) htype hv

theorem lowerArrayAssignment_cases {Γ : Site} {n : Numbered} {name : String}
    (hk : n.kind = .arrayAssignment name) {ts : List Ast} {f f' : Fresh} {code : List Instr}
    (h : (lowerArrayAssignment Γ n name ts).run f = .ok (code, f')) :
    LowersStatement Γ f n ts code f' := by
  unfold lowerArrayAssignment at h
  replace ⟨⟨scope, place⟩, f₁, hlift, h⟩ := bind_eq_ok.mp h
  obtain ⟨htarget, rfl⟩ := liftExcept_eq_ok.mp hlift
  obtain ⟨symbol, hres, htype, rfl⟩ := Site.target_eq_ok htarget
  replace ⟨⟨before, array⟩, f₂, harray, h⟩ := bind_eq_ok.mp h
  match ts, h with
  | [], h => exact absurd h throw_ne_ok
  | [i], h =>
    obtain ⟨_, _, _, h⟩ := bind_eq_ok.mp h
    exact absurd h throw_ne_ok
  | i :: e :: rest, h =>
    replace ⟨index, f₃, hi, h⟩ := bind_eq_ok.mp h
    replace ⟨value, f₄, he, h⟩ := bind_eq_ok.mp h
    obtain ⟨rfl, rfl⟩ := pure_eq_ok.mp h
    exact .element hk hres htype harray hi he

theorem lowerReturn_cases {Γ : Site} {n : Numbered} (hk : n.kind = .ret) {ts : List Ast}
    {f f' : Fresh} {code : List Instr} (h : (lowerReturn Γ ts).run f = .ok (code, f')) :
    LowersStatement Γ f n ts code f' := by
  unfold lowerReturn at h
  cases ts with
  | nil =>
    obtain ⟨rfl, rfl⟩ := pure_eq_ok.mp h
    exact .returnNone hk
  | cons t rest =>
    replace ⟨type, f₁, hlift, h⟩ := bind_eq_ok.mp h
    obtain ⟨htype, rfl⟩ := liftExcept_eq_ok.mp hlift
    replace ⟨v, f₂, hv, h⟩ := bind_eq_ok.mp h
    obtain ⟨rfl, rfl⟩ := pure_eq_ok.mp h
    exact .returnSome hk htype hv

/-- **What a statement that is lowered gives.** -/
theorem lowerStatement_cases {Γ : Site} {n : Numbered} {ts : List Ast} {f f' : Fresh}
    {code : List Instr} (h : (lowerStatement Γ (.node n ts)).run f = .ok (code, f')) :
    LowersStatement Γ f n ts code f' := by
  rw [lowerStatement.eq_def] at h
  cases hk : n.kind <;> simp only [hk] at h
  case returnType | argument | localVar =>
    obtain ⟨rfl, rfl⟩ := pure_eq_ok.mp h
    exact .declaration (by rw [hk]; rfl)
  case block => exact .sequence (.inl hk) h
  case thenBranch => exact .sequence (.inr (.inl hk)) h
  case elseBranch => exact .sequence (.inr (.inr hk)) h
  case conditional =>
    replace ⟨k, f₁, hlabel, h⟩ := bind_eq_ok.mp h
    obtain ⟨rfl, rfl⟩ := newLabel_eq_ok.mp hlabel
    match ts, h with
    | [], h => exact absurd h throw_ne_ok
    | [c], h =>
      obtain ⟨_, _, _, h⟩ := bind_eq_ok.mp h
      exact absurd h throw_ne_ok
    | c :: t :: rest, h =>
      replace ⟨cond, f₂, hc, h⟩ := bind_eq_ok.mp h
      replace ⟨thenCode, f₃, ht, h⟩ := bind_eq_ok.mp h
      have helse : ∃ elseCode f₄, (lowerElse Γ rest).run f₃ = .ok (elseCode, f₄) ∧
          code = conditionalCode f.nextLabel cond thenCode elseCode ∧ f' = f₄ := by
        cases rest with
        | nil =>
          replace ⟨elseCode, f₄, he, h⟩ := bind_eq_ok.mp h
          exact ⟨elseCode, f₄, he, pure_eq_ok.mp h⟩
        | cons e rest =>
          replace ⟨elseCode, f₄, he, h⟩ := bind_eq_ok.mp h
          exact ⟨elseCode, f₄, he, pure_eq_ok.mp h⟩
      obtain ⟨elseCode, f₄, he, rfl, rfl⟩ := helse
      exact .conditional hk hc ht he
  case loop =>
    replace ⟨k, f₁, hlabel, h⟩ := bind_eq_ok.mp h
    obtain ⟨rfl, rfl⟩ := newLabel_eq_ok.mp hlabel
    cases ts with
    | nil => exact absurd h throw_ne_ok
    | cons c body =>
      replace ⟨first, f₂, hc, h⟩ := bind_eq_ok.mp h
      replace ⟨bodyCode, f₃, hb, h⟩ := bind_eq_ok.mp h
      replace ⟨again, f₄, hc', h⟩ := bind_eq_ok.mp h
      obtain ⟨rfl, rfl⟩ := pure_eq_ok.mp h
      exact .loop hk hc hb hc'
  case expression =>
    cases ts with
    | nil => exact absurd h throw_ne_ok
    | cons e rest => exact .expression hk h
  case assignment name => exact lowerAssignment_cases hk h
  case arrayAssignment name => exact lowerArrayAssignment_cases hk h
  case ret => exact lowerReturn_cases hk h
  case condition =>
    replace ⟨cond, f₁, hc, h⟩ := bind_eq_ok.mp h
    obtain ⟨rfl, rfl⟩ := pure_eq_ok.mp h
    exact .condition hk hc
  all_goals exact .effect (by rw [hk]; rfl) h

theorem lowerStatements_nil_eq_ok {Γ : Site} {f f' : Fresh} {code : List Instr}
    (h : (lowerStatements Γ []).run f = .ok (code, f')) : code = [] ∧ f' = f := by
  rw [lowerStatements] at h
  exact pure_eq_ok.mp h

theorem lowerStatements_cons_eq_ok {Γ : Site} {t : Ast} {ts : List Ast} {f f' : Fresh}
    {code : List Instr} (h : (lowerStatements Γ (t :: ts)).run f = .ok (code, f')) :
    ∃ first f₁ rest, (lowerStatement Γ t).run f = .ok (first, f₁) ∧
      (lowerStatements Γ ts).run f₁ = .ok (rest, f') ∧ code = first ++ rest := by
  rw [lowerStatements] at h
  replace ⟨first, f₁, ht, h⟩ := bind_eq_ok.mp h
  replace ⟨rest, f₂, hts, h⟩ := bind_eq_ok.mp h
  obtain ⟨rfl, rfl⟩ := pure_eq_ok.mp h
  exact ⟨first, f₁, rest, ht, hts, rfl⟩

end ThreeAddress
end ClassCompiler
