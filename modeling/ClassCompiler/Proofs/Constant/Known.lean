import ClassCompiler.Constant.Propagate
import ClassCompiler.Proofs.Constant.Fold

/-!
# What is known of the variables

The constants that a walk through a method carries along are a statement about the variables at one
place: every entry names a variable of the method, and the variable holds the constant of the entry.
`Holds` says so.  It speaks of all entries and not only of the first one for a name, so that to drop
entries never makes it false.

* `Holds`: what is known is true.
* `Answers`, `evalExpr_of_answers`: an expression that the known constants determine has that value.
* `substitute_alike`: to put known constants in the place of variables changes nothing.
-/

namespace ClassCompiler
namespace Meaning

open Constant
open List (Forall₂)

/-- Every entry names a variable of the method that holds the constant. -/
def Holds (A : Activation) (ρ : Known) (vars : Vars) : Prop :=
  ∀ x c, (x, c) ∈ ρ → isTracked A.table A.method x = true ∧ vars x = some (Value.ofConstant c)

variable {σ : Type} {w : World σ} {A : Activation} {ρ : Known} {vars : Vars}

theorem mem_of_get? {ρ : Known} {x : String} {c : Constant} (h : ρ.get? x = some c) :
    (x, c) ∈ ρ := by
  induction ρ with
  | nil => exact absurd h (by simp [Known.get?])
  | cons entry ρ ih =>
    obtain ⟨y, d⟩ := entry
    rw [Known.get?, List.lookup_cons] at h
    split at h
    · rename_i hxy
      rw [eq_of_beq hxy, Option.some.inj h]
      exact List.mem_cons_self
    · exact List.mem_cons_of_mem _ (ih h)

namespace Holds

theorem nil : Holds A [] vars := fun _ _ h => absurd h List.not_mem_nil

theorem get (h : Holds A ρ vars) {x : String} {c : Constant} (hx : ρ.get? x = some c) :
    isTracked A.table A.method x = true ∧ vars x = some (Value.ofConstant c) :=
  h x c (mem_of_get? hx)

/-- Fewer entries say less. -/
theorem mono {ρ' : Known} (h : Holds A ρ vars) (hsub : ∀ e ∈ ρ', e ∈ ρ) : Holds A ρ' vars :=
  fun x c hx => h x c (hsub _ hx)

/-- What is forgotten may change. -/
theorem forgetAll {vars' : Vars} {names : List String} (h : Holds A ρ vars)
    (hvars : ∀ x, x ∉ names → vars' x = vars x) : Holds A (ρ.forgetAll names) vars' := by
  intro x c hx
  obtain ⟨hmem, hnot⟩ := List.mem_filter.mp hx
  have hx' : x ∉ names := by simpa using hnot
  rw [hvars x hx']
  exact h x c hmem

theorem forget {vars' : Vars} {name : String} (h : Holds A ρ vars)
    (hvars : ∀ x, x ≠ name → vars' x = vars x) : Holds A (ρ.forget name) vars' := by
  intro x c hx
  obtain ⟨hmem, hnot⟩ := List.mem_filter.mp hx
  have hx' : x ≠ name := by simpa using hnot
  rw [hvars x hx']
  exact h x c hmem

theorem set {name : String} {c : Constant} (h : Holds A ρ vars)
    (htracked : isTracked A.table A.method name = true) :
    Holds A (ρ.set name c) (vars.set name (Value.ofConstant c)) := by
  intro x d hx
  rcases List.mem_cons.mp hx with hx | hx
  · rw [Prod.mk.injEq] at hx
    rw [hx.1, hx.2]
    exact ⟨htracked, Vars.set_self ..⟩
  · exact h.forget (fun y hy => Vars.set_of_ne vars _ hy) x d hx

theorem agree_left {ρ' : Known} (h : Holds A ρ vars) : Holds A (ρ.agree ρ') vars :=
  h.mono fun _ he => (List.mem_filter.mp he).1

theorem agree_right {ρ' : Known} (h : Holds A ρ' vars) : Holds A (ρ.agree ρ') vars :=
  h.mono fun _ he => mem_of_get? (eq_of_beq (List.mem_filter.mp he).2)

end Holds

/-! ## Expressions over known variables -/

/-- A known variable is read from the variables of the method. -/
theorem readName_of_get? (h : Holds A ρ vars) {x : String} {c : Constant} (hx : ρ.get? x = some c) :
    A.readName w vars x = pure (Value.ofConstant c) := by
  obtain ⟨htracked, hvalue⟩ := h.get hx
  unfold Activation.readName
  unfold isTracked at htracked
  split at htracked
  · rename_i hres
    simp only [hres, Vars.read, hvalue, Effect.ofExcept_ok]
  · rename_i hres
    simp only [hres, Vars.read, hvalue, Effect.ofExcept_ok]
  · exact absurd htracked (by simp)

/-- Whoever reads a known name is given its constant, in every world that is within `P`, and the
world stays within `P`.  A variable does not depend on the world; a known name that is no variable
may. -/
def Answers (w : World σ) (A : Activation) (P : Outside σ → Prop) (ρ : Known) (vars : Vars) : Prop :=
  ∀ x c, ρ.get? x = some c → ∀ o, P o →
    ∃ o', P o' ∧ A.readName w vars x o = (.ok (Value.ofConstant c), o')

/-- **An expression that the known constants determine has that value** wherever they are given to
those who ask for them. -/
theorem evalExpr_of_answers {P : Outside σ → Prop} (h : Answers w A P ρ vars) {t : Ast}
    {c : Constant} (ht : eval ρ t = some c) {o : Outside σ} (ho : P o) :
    ∃ o', P o' ∧ evalExpr w A vars t o = (.ok (Value.ofConstant c), o') := by
  induction t using Tree.induction generalizing c o with
  | node n ts ih =>
    rw [eval.eq_def] at ht
    rw [evalExpr.eq_def]
    cases hk : n.kind <;> simp only [hk, evalLeaf, ofKind?, reduceCtorEq] at ht ⊢
    case integer v | boolean v =>
      rw [← Option.some.inj ht]
      exact ⟨o, ho, rfl⟩
    case identifier x => exact h x c ht o ho
    case parenthesis =>
      cases ts with
      | nil => exact absurd ht (by simp)
      | cons t _ => exact ih t List.mem_cons_self ht ho
    case negation =>
      cases ts with
      | nil => exact absurd ht (by simp)
      | cons t _ =>
        obtain ⟨a, ha, hc⟩ := Option.bind_eq_some_iff.mp ht
        obtain ⟨o₁, ho₁, hrun⟩ := ih t List.mem_cons_self ha ho
        refine ⟨o₁, ho₁, ?_⟩
        simp only [Effect.bind_apply, hrun, Value.negate_ofConstant hc, Effect.ofExcept_ok,
          Effect.pure_apply]
    case binary op =>
      rcases ts with - | ⟨l, - | ⟨r, rest⟩⟩
      · exact absurd ht (by simp)
      · exact absurd ht (by simp)
      · obtain ⟨a, ha, ht⟩ := Option.bind_eq_some_iff.mp ht
        obtain ⟨b, hb, hc⟩ := Option.bind_eq_some_iff.mp ht
        obtain ⟨o₁, ho₁, hleft⟩ := ih l List.mem_cons_self ha ho
        obtain ⟨o₂, ho₂, hright⟩ := ih r (List.mem_cons_of_mem _ List.mem_cons_self) hb ho₁
        refine ⟨o₂, ho₂, ?_⟩
        simp only [Effect.bind_apply, hleft, hright, Value.binary_ofConstant hc,
          Effect.ofExcept_ok, Effect.pure_apply]

theorem Holds.answers (h : Holds A ρ vars) (P : Outside σ → Prop) : Answers w A P ρ vars := by
  intro x c hx o ho
  exact ⟨o, ho, by rw [readName_of_get? h hx, Effect.pure_apply]⟩

/-- An expression over known variables asks nothing of the world. -/
theorem evalExpr_of_eval (h : Holds A ρ vars) {t : Ast} {c : Constant} (ht : eval ρ t = some c) :
    evalExpr w A vars t = pure (Value.ofConstant c) := by
  funext o
  obtain ⟨_, rfl, hrun⟩ := evalExpr_of_answers (h.answers (· = o)) ht rfl
  exact hrun

/-! ## Substitution -/

theorem substituteAll_cons_run (ρ : Known) (t : Ast) (ts : List Ast) (log : Log) :
    ((substituteAll ρ (t :: ts)).run log).1 =
      ((substitute ρ t).run log).1 ::
        ((substituteAll ρ ts).run ((substitute ρ t).run log).2).1 := by
  rw [substituteAll]
  rfl

theorem substituteAll_forall₂ {R : Ast → Ast → Prop} {ts : List Ast}
    (h : ∀ t ∈ ts, ∀ log, R t ((substitute ρ t).run log).1) (log : Log) :
    Forall₂ R ts ((substituteAll ρ ts).run log).1 := by
  induction ts generalizing log with
  | nil =>
    rw [substituteAll]
    exact .nil
  | cons t ts ih =>
    rw [substituteAll_cons_run]
    exact .cons (h t List.mem_cons_self _) (ih (fun u hu => h u (List.mem_cons_of_mem t hu)) _)

/-- What substitution does to a node: a known variable becomes a literal, and every other node stays
with its children as they were or substituted. -/
theorem substitute_run (ρ : Known) (n : Numbered) (ts : List Ast) (log : Log) :
    (∃ name c id, n.kind = .identifier name ∧ ρ.get? name = some c ∧
      ((substitute ρ (.node n ts)).run log).1 = literal id n c) ∨
    ((substitute ρ (.node n ts)).run log).1 = .node n ts ∨
    ((substitute ρ (.node n ts)).run log).1 = .node n ((substituteAll ρ ts).run log).1 := by
  rw [substitute.eq_def]
  cases hk : n.kind with
  | identifier name =>
    simp only [hk]
    cases hx : ρ.get? name with
    | none => exact .inr (.inl rfl)
    | some c => exact .inl ⟨name, c, log.next, rfl, hx, rfl⟩
  | binary _ | negation | parenthesis | arrayAccess | arrayLength | newArray | invocation _ =>
    simp only [hk]
    exact .inr (.inr rfl)
  | _ =>
    simp only [hk]
    exact .inr (.inl rfl)

/-- **To put known constants in the place of variables changes nothing** where what is known is
true. -/
theorem substitute_alike (h : Holds A ρ vars) (t : Ast) (log : Log) :
    ExprAlike w A vars t ((substitute ρ t).run log).1 := by
  induction t using Tree.induction generalizing log with
  | node n ts ih =>
    rcases substitute_run ρ n ts log with ⟨name, c, id, hk, hx, hrun⟩ | hrun | hrun
    · rw [hrun]
      have hvalue : evalExpr w A vars (.node n ts) = pure (Value.ofConstant c) := by
        rw [evalExpr_identifier hk]
        exact readName_of_get? h hx
      have heffect : evalEffect w A vars (.node n ts) = pure () := by
        rw [evalEffect.eq_def]
        simp only [hk, hvalue, Effect.pure_bind]
      exact exprAlike_of_value (isExpression_node hk rfl) hvalue heffect
        (ofKind?_literal id n c)
    · rw [hrun]
      exact .refl _
    · rw [hrun]
      exact .node n (substituteAll_forall₂ ih log)

theorem substituteAll_alike (h : Holds A ρ vars) (ts : List Ast) (log : Log) :
    Forall₂ (ExprAlike w A vars) ts ((substituteAll ρ ts).run log).1 :=
  substituteAll_forall₂ (fun t _ log => substitute_alike h t log) log

end Meaning
end ClassCompiler
