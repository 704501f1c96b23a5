import ClassCompiler.Proofs.Constant.Loop

/-!
# Propagation keeps the meaning of statements

A walk changes a statement in the light of what is known before it.  So the changed statement does
the same only where that is true, and for the walk to go on, what the walk says afterwards has to be
true after the statement.  `SameUnder P Q x x'` puts the two together: from variables of which `P`
is true the executions `x` and `x'` are the same, and `Q` is true of the variables if they come to
their end.  It has one rule for each way in which executions are put together, and the walk follows
them.

The loop is the case that matters.  What is known of the variables that the loop does not assign is
an invariant, by the frame of its body; the body is walked with that only, although more may be
known when the loop is come to.

* `SameUnder`, `SameValue`: executions and evaluations that are the same where something is known.
* `SameUnder.loop`: the rule for loops.
* `walk_keeps`: the walk through a statement.
* `walkAll_keeps`: the walk through the body of a method.
-/

namespace ClassCompiler
namespace Meaning

open Constant

variable {σ α : Type} {w : World σ} {A : Activation} {limit : Nat}

/-! ## Executions that are the same where something is known -/

/-- Where `P` is true of the variables the two executions are the same, and if they come to their
end, `Q` is true of the variables there. -/
def SameUnder (P Q : Vars → Prop) (x x' : Exec σ) : Prop :=
  ∀ s, P s.vars → x' s = x s ∧ ∀ s', x s = (.normal, s') → Q s'.vars

/-- Where `P` is true of the variables the two evaluations are the same, and if they give a value,
`Q` is true as well. -/
def SameValue (P Q : Vars → Prop) (e e' : Vars → Effect σ α) : Prop :=
  ∀ vars, P vars → e' vars = e vars ∧ ∀ o a o', e vars o = (.ok a, o') → Q vars

variable {P Q R : Vars → Prop}

theorem SameValue.of_eq {e e' : Vars → Effect σ α} (h : ∀ vars, P vars → e' vars = e vars)
    (hQ : ∀ vars, P vars → Q vars) : SameValue P Q e e' :=
  fun vars hP => ⟨h vars hP, fun _ _ _ _ => hQ vars hP⟩

theorem SameValue.keeping {e e' : Vars → Effect σ α} (h : SameValue P Q e e') :
    SameValue P (fun vars => P vars ∧ Q vars) e e' :=
  fun vars hP => ⟨(h vars hP).1, fun o a o' ho => ⟨hP, (h vars hP).2 o a o' ho⟩⟩

namespace SameUnder

theorem stop (c : Completion) (hQ : ∀ vars, P vars → Q vars) :
    SameUnder P Q (Exec.stop c : Exec σ) (Exec.stop c) := by
  intro s hP
  refine ⟨rfl, fun s' hs => ?_⟩
  rw [← (Prod.mk.inj hs).2]
  exact hQ _ hP

theorem mono {P' Q' : Vars → Prop} {x x' : Exec σ} (h : SameUnder P Q x x')
    (hP : ∀ vars, P' vars → P vars) (hQ : ∀ vars, Q vars → Q' vars) : SameUnder P' Q' x x' :=
  fun s hs => ⟨(h s (hP _ hs)).1, fun s' hs' => hQ _ ((h s (hP _ hs)).2 s' hs')⟩

/-- What is true at the end for another reason. -/
theorem ending {Q' : Vars → Prop} {x x' : Exec σ} (h : SameUnder P Q x x')
    (hQ : ∀ s s', P s.vars → x s = (.normal, s') → Q' s'.vars) : SameUnder P Q' x x' :=
  fun s hs => ⟨(h s hs).1, fun s' hs' => hQ s s' hs hs'⟩

theorem andThen {x x' y y' : Exec σ} (hx : SameUnder P R x x') (hy : SameUnder R Q y y') :
    SameUnder P Q (Exec.andThen x y) (Exec.andThen x' y') := by
  intro s hP
  obtain ⟨hsame, hend⟩ := hx s hP
  unfold Exec.andThen
  rw [hsame]
  rcases hrun : x s with ⟨c, s'⟩
  cases c with
  | normal => exact hy s' (hend s' hrun)
  | returned _ | faulted _ | unfinished => exact ⟨rfl, fun _ h => by simp at h⟩

theorem evaluating {e e' : Vars → Effect σ α} {k k' : α → Exec σ} (he : SameValue P R e e')
    (hk : ∀ a, SameUnder R Q (k a) (k' a)) :
    SameUnder P Q (Exec.evaluating e k) (Exec.evaluating e' k') := by
  intro s hP
  obtain ⟨hsame, hend⟩ := he s.vars hP
  unfold Exec.evaluating
  rw [hsame]
  rcases hrun : e s.vars s.outside with ⟨_ | a, o⟩
  · exact ⟨rfl, fun _ h => by simp at h⟩
  · exact hk a _ (hend _ _ _ hrun)

theorem branch {value : Value} {yes yes' no no' : Exec σ} (hyes : SameUnder P Q yes yes')
    (hno : SameUnder P Q no no') :
    SameUnder P Q (Exec.branch value yes no) (Exec.branch value yes' no') := by
  unfold Exec.branch
  cases value with
  | bool b =>
    cases b with
    | true => exact hyes
    | false => exact hno
  | int _ | ref _ | classRef _ => exact fun s _ => ⟨rfl, fun _ h => by simp [Exec.stop] at h⟩

/-- **The rule for loops**: what is true before a test is true again after a round. -/
theorem loop {guard guard' : Vars → Effect σ Value} {body body' : Exec σ}
    (hguard : SameValue P R guard guard') (hbody : SameUnder R P body body')
    (hQ : ∀ vars, R vars → Q vars) (tests : Nat) :
    SameUnder P Q (Exec.loop guard body tests) (Exec.loop guard' body' tests) := by
  induction tests with
  | zero => exact fun s _ => ⟨rfl, fun _ h => by simp [Exec.loop, Exec.stop] at h⟩
  | succ tests ih => exact evaluating hguard fun _ => branch (hbody.andThen ih) (stop _ hQ)

end SameUnder

/-! ## What a walk says afterwards -/

/-- What is known after a step of a walk; nothing if the step failed. -/
def After (A : Activation) : Except Error Known → Vars → Prop
  | .ok ρ => Holds A ρ
  | .error _ => fun _ => True

/-- The changed statement does the same where the known is true, and what the walk says is true
afterwards.  A condition is walked like a statement, and evaluated. -/
structure WalkKeeps (w : World σ) (A : Activation) (ρ : Known) (t : Ast) (r : Walked Ast) :
    Prop where
  statement : ∀ limit, SameUnder (Holds A ρ) (After A r.2) (execStatement w A limit t)
    (execStatement w A limit r.1)
  condition : SameValue (Holds A ρ) (After A r.2) (evalCondition w A · t) (evalCondition w A · r.1)

/-- The kinds that may be evaluated as a condition. -/
def isConditional (k : Kind) : Bool :=
  isExpression k || k == .condition

theorem evalCondition_stuck {n : Numbered} (h : isConditional n.kind = false) (ts : List Ast)
    (vars : Vars) : evalCondition w A vars (.node n ts) = Effect.ofExcept (.error .stuck) := by
  unfold evalCondition
  dsimp only
  rw [evalExpr.eq_def]
  cases hk : n.kind <;> rw [hk] at h <;> cases h <;> simp only [hk] <;> rfl

/-- A statement that is no condition is walked well if it does the same. -/
theorem WalkKeeps.of_statement {ρ : Known} {n : Numbered} {ts ts' : List Ast}
    {known : Except Error Known} (hkind : isConditional n.kind = false)
    (h : ∀ limit, SameUnder (Holds A ρ) (After A known) (execStatement w A limit (.node n ts))
      (execStatement w A limit (.node n ts'))) :
    WalkKeeps w A ρ (.node n ts) (.node n ts', known) := by
  refine ⟨h, fun vars _ => ⟨?_, fun o a o' ho => ?_⟩⟩
  · simp only [evalCondition_stuck hkind]
  · simp [evalCondition_stuck hkind, Effect.ofExcept_apply] at ho

theorem StateM.run_bind {τ α β : Type} (x : StateM τ α) (f : α → StateM τ β) (s : τ) :
    (x >>= f).run s = (f (x.run s).1).run (x.run s).2 := rfl

theorem StateM.run_get {τ : Type} (s : τ) : (get : StateM τ τ).run s = (s, s) := rfl

/-! ## Statements without statements -/

theorem evalElement_same {ρ : Known} (name : String) (ts : List Ast) (log : Log) :
    SameValue (Holds A ρ) (Holds A ρ) (evalElement w A · name ts)
      (evalElement w A · name ((substituteAll ρ ts).run log).1) :=
  .of_eq (fun _ hρ => ExprAlike.evalElement_eq name (substituteAll_alike hρ ts log)) fun _ => id

theorem evalExpr_same {ρ : Known} (t : Ast) (log : Log) :
    SameValue (Holds A ρ) (Holds A ρ) (evalExpr w A · t)
      (evalExpr w A · ((substitute ρ t).run log).1) :=
  .of_eq (fun _ hρ => (substitute_alike hρ t log).value) fun _ => id

theorem evalEffect_same {ρ : Known} (t : Ast) (log : Log) :
    SameValue (Holds A ρ) (Holds A ρ) (evalEffect w A · t)
      (evalEffect w A · ((substitute ρ t).run log).1) :=
  .of_eq (fun _ hρ => (substitute_alike hρ t log).effect) fun _ => id

theorem evalCondition_same {ρ : Known} (t : Ast) (log : Log) :
    SameValue (Holds A ρ) (Holds A ρ) (evalCondition w A · t)
      (evalCondition w A · ((substitute ρ t).run log).1) :=
  .of_eq (fun _ hρ => (substitute_alike hρ t log).condition) fun _ => id

/-- What is known after an assignment. -/
theorem Holds.assign {ρ : Known} {s s' : State σ} {name : String} {value : Value} {v : Ast}
    (hρ : Holds A ρ s.vars)
    (hv : ∀ c, ofKind? v.kind = some c → value = Value.ofConstant c)
    (hrun : Exec.assign w A name value s = (.normal, s')) :
    Holds A (ρ.assign (isTracked A.table A.method) name v) s'.vars := by
  have hforget : Holds A (ρ.forget name) s'.vars := by
    have hkeeps : Keeps (· = name) (Exec.assign w A name value) :=
      Keeps.assign (by rfl) value
    refine hρ.forget fun x hx => ?_
    rw [← hkeeps s x hx, hrun]
  unfold Known.assign
  cases hc : ofKind? v.kind with
  | none => exact hforget
  | some c =>
    dsimp only
    split
    · rename_i htracked
      rw [assign_of_isTracked htracked, Prod.mk.injEq] at hrun
      rw [← hrun.2, hv c hc]
      exact hρ.set htracked
    · exact hforget

/-- An expression that stands as a statement, substituted. -/
theorem walkKeeps_substitute {ρ : Known} {n : Numbered}
    (h : ∀ limit ts, execStatement w A limit (.node n ts) =
      Exec.evaluating (evalEffect w A · (.node n ts)) fun _ => Exec.stop .normal)
    (ts : List Ast) (log : Log) :
    WalkKeeps w A ρ (.node n ts) (((substitute ρ (.node n ts)).run log).1, .ok ρ) := by
  have hrun : ∀ limit, execStatement w A limit ((substitute ρ (.node n ts)).run log).1 =
      Exec.evaluating (evalEffect w A · ((substitute ρ (.node n ts)).run log).1)
        fun _ => Exec.stop .normal := by
    intro limit
    rcases substitute_run ρ n ts log with ⟨_, c, id, _, _, hrun⟩ | hrun | hrun
    · rw [hrun]
      exact execStatement_of_isExpression w A limit
        (isExpression_of_ofKind? (ofKind?_literal id n c))
    · rw [hrun, h]
    · rw [hrun, h]
  refine ⟨fun limit => ?_, evalCondition_same _ log⟩
  dsimp only
  rw [hrun, h]
  exact .evaluating (evalEffect_same _ log) fun _ => .stop _ fun _ => id

/-- A condition whose expression has been substituted. -/
theorem walkKeeps_condition {ρ : Known} {n : Numbered} (hk : n.kind = .condition) (e : Ast)
    (rest : List Ast) (log : Log) :
    WalkKeeps w A ρ (.node n (e :: rest))
      (.node n (((substitute ρ e).run log).1 :: rest), .ok ρ) := by
  have hvalue : ∀ e vars, evalCondition w A vars (.node n (e :: rest)) = evalExpr w A vars e := by
    intro e vars
    unfold evalCondition
    simp only [hk]
  have hstatement : ∀ e limit, execStatement w A limit (.node n (e :: rest)) =
      Exec.evaluating (evalExpr w A · e) fun _ => Exec.stop .normal := by
    intro e limit
    rw [execStatement.eq_def]
    simp only [hk, hvalue]
  refine ⟨fun limit => ?_, ?_⟩
  · rw [hstatement, hstatement]
    exact .evaluating (evalExpr_same e log) fun _ => .stop _ fun _ => id
  · simp only [hvalue]
    exact evalExpr_same e log

/-- A statement whose expressions have been substituted, all of them. -/
theorem walkKeeps_substituteAll {ρ : Known} {n : Numbered}
    (hk : (∃ name, n.kind = .arrayAssignment name) ∨ n.kind = .expression ∨ n.kind = .ret)
    (ts : List Ast) (log : Log) :
    WalkKeeps w A ρ (.node n ts) (.node n ((substituteAll ρ ts).run log).1, .ok ρ) := by
  refine .of_statement ?_ fun limit => ?_
  · rcases hk with ⟨name, hk⟩ | hk | hk <;> rw [hk] <;> rfl
  rw [execStatement.eq_def, execStatement.eq_def]
  rcases hk with ⟨name, hk⟩ | hk | hk <;> simp only [hk]
  · exact .evaluating (evalElement_same name ts log) fun _ => .stop _ fun _ => id
  · cases ts with
    | nil => exact .stop _ fun _ => id
    | cons e _ =>
      rw [substituteAll_cons_run]
      exact .evaluating (evalEffect_same e log) fun _ => .stop _ fun _ => id
  · cases ts with
    | nil => exact .stop _ fun _ => id
    | cons e _ =>
      rw [substituteAll_cons_run]
      exact .evaluating (evalExpr_same e log) fun _ => .stop _ fun _ => id

/-- An assignment whose value has been substituted. -/
theorem walkKeeps_assignment {ρ : Known} {n : Numbered} {name : String}
    (hk : n.kind = .assignment name) (v : Ast) (rest : List Ast) (log : Log) :
    WalkKeeps w A ρ (.node n (v :: rest)) (.node n (((substitute ρ v).run log).1 :: rest),
      .ok (ρ.assign (isTracked A.table A.method) name ((substitute ρ v).run log).1)) := by
  refine .of_statement (by rw [hk]; rfl) fun limit => ?_
  rw [execStatement.eq_def, execStatement.eq_def]
  simp only [hk]
  intro s hρ
  have hsame : evalExpr w A s.vars ((substitute ρ v).run log).1 = evalExpr w A s.vars v :=
    (substitute_alike hρ v log).value
  refine ⟨by simp only [Exec.evaluating, hsame], fun s' hs' => ?_⟩
  -- The value on the right is that of the substituted tree, which is the literal if it is one.
  rw [Exec.evaluating, ← hsame] at hs'
  rcases hrun : evalExpr w A s.vars ((substitute ρ v).run log).1 s.outside with ⟨f | value, o⟩
  · simp [hrun] at hs'
  · simp only [hrun] at hs'
    refine Holds.assign (s := { s with outside := o }) hρ (fun c hc => ?_) hs'
    rw [evalExpr_of_ofKind? hc, Effect.pure_apply] at hrun
    exact (Except.ok.inj (Prod.mk.inj hrun).1).symm

/-! ## Statements one after another -/

/-- The result of walking through the first of several statements, and then the others. -/
theorem walkAll_cons_run (tracked : String → Bool) (ρ : Known) (t : Ast) (ts : List Ast)
    (log : Log) :
    ((walkAll tracked ρ (t :: ts)).run log).1 =
      match ((walk tracked ρ t).run log).1.2 with
      | .error e => (((walk tracked ρ t).run log).1.1 :: ts, .error e)
      | .ok ρ' =>
        let rest := ((walkAll tracked ρ' ts).run ((walk tracked ρ t).run log).2).1
        (((walk tracked ρ t).run log).1.1 :: rest.1, rest.2) := by
  rw [walkAll, StateM.run_bind]
  rcases ((walk tracked ρ t).run log) with ⟨⟨t', known⟩, log'⟩
  cases known <;> rfl

/-- The walk through statements whose walks keep their meaning. -/
theorem walkAll_same {ts : List Ast}
    (h : ∀ t ∈ ts, ∀ ρ log,
      WalkKeeps w A ρ t ((walk (isTracked A.table A.method) ρ t).run log).1)
    (ρ : Known) (log : Log) (limit : Nat) :
    SameUnder (Holds A ρ) (After A ((walkAll (isTracked A.table A.method) ρ ts).run log).1.2)
      (execStatements w A limit ts)
      (execStatements w A limit ((walkAll (isTracked A.table A.method) ρ ts).run log).1.1) := by
  induction ts generalizing ρ log with
  | nil =>
    rw [walkAll]
    exact .stop _ fun _ => id
  | cons t ts ih =>
    have hfirst := (h t List.mem_cons_self ρ log).statement limit
    rw [walkAll_cons_run]
    generalize (walk (isTracked A.table A.method) ρ t).run log = first at hfirst ⊢
    obtain ⟨⟨t', known⟩, log'⟩ := first
    cases known with
    | error e =>
      dsimp only at hfirst ⊢
      rw [execStatements, execStatements]
      exact hfirst.andThen fun s _ => ⟨rfl, fun _ _ => trivial⟩
    | ok ρ' =>
      dsimp only at hfirst ⊢
      rw [execStatements, execStatements]
      exact hfirst.andThen (ih (fun u hu => h u (List.mem_cons_of_mem t hu)) ρ' log')

/-! ## Conditionals and loops -/

/-- The walks of a node's children keep their meaning. -/
abbrev ChildrenKeep (w : World σ) (A : Activation) (ts : List Ast) : Prop :=
  ∀ t ∈ ts, ∀ ρ log, WalkKeeps w A ρ t ((walk (isTracked A.table A.method) ρ t).run log).1

/-- Nothing is asked of the variables after a statement whose walk failed. -/
theorem SameUnder.refl_error (x : Exec σ) (e : Error) : SameUnder P (After A (.error e)) x x :=
  fun _ _ => ⟨rfl, fun _ _ => trivial⟩

/-- A conditional, from its condition and its branches. -/
theorem WalkKeeps.conditional {n : Numbered} (hk : n.kind = .conditional) {ρ : Known}
    {c c' t t' : Ast} {rest rest' : List Ast} {known after : Except Error Known}
    (hc : WalkKeeps w A ρ c (c', known))
    (ht : ∀ limit, SameUnder (After A known) (After A after) (execStatement w A limit t)
      (execStatement w A limit t'))
    (hrest : ∀ limit, SameUnder (After A known) (After A after) (execElse w A limit rest)
      (execElse w A limit rest')) :
    WalkKeeps w A ρ (.node n (c :: t :: rest)) (.node n (c' :: t' :: rest'), after) := by
  refine .of_statement (by rw [hk]; rfl) fun limit => ?_
  rw [execStatement_conditional hk, execStatement_conditional hk]
  exact .evaluating hc.condition fun _ => .branch (ht limit) (hrest limit)

theorem walkKeeps_conditional {n : Numbered} {ts : List Ast} (hk : n.kind = .conditional)
    (h : ChildrenKeep w A ts) (ρ : Known) (log : Log) :
    WalkKeeps w A ρ (.node n ts)
      ((walk (isTracked A.table A.method) ρ (.node n ts)).run log).1 := by
  have hkind : isConditional n.kind = false := by rw [hk]; rfl
  rw [walk.eq_def]
  simp only [hk]
  match ts, h with
  | [], _ => exact .of_statement hkind fun _ => .refl_error _ _
  | c :: branches, h =>
    have hc := h c List.mem_cons_self ρ log
    dsimp only
    rw [StateM.run_bind]
    generalize (walk (isTracked A.table A.method) ρ c).run log = r at hc ⊢
    obtain ⟨⟨c', _ | ρ₁⟩, log₁⟩ := r
    · match branches with
      | [] =>
        refine .of_statement hkind fun limit => ?_
        rw [execStatement_conditional_short hk, execStatement_conditional_short hk]
        exact .refl_error _ _
      | t :: rest => exact .conditional hk hc (fun _ => .refl_error _ _) fun _ => .refl_error _ _
    · match branches, h with
      | [], _ =>
        refine .of_statement hkind fun limit => ?_
        rw [execStatement_conditional_short hk, execStatement_conditional_short hk]
        exact .refl_error _ _
      | t :: rest, h =>
        have ht := h t (List.mem_cons_of_mem _ List.mem_cons_self) ρ₁ log₁
        dsimp only
        rw [StateM.run_bind]
        generalize (walk (isTracked A.table A.method) ρ₁ t).run log₁ = r at ht ⊢
        obtain ⟨⟨t', _ | afterThen⟩, log₂⟩ := r
        · exact .conditional hk hc ht.statement fun _ => .refl_error _ _
        · -- After the branches only what both of them agree on is known.
          match rest, h with
          | [], _ =>
            exact .conditional hk hc
              (fun limit => (ht.statement limit).mono (fun _ => id) fun _ => .agree_right)
              fun _ => .stop _ fun _ => .agree_left
          | e :: rest, h =>
            have he := h e (by simp) ρ₁ log₂
            dsimp only
            rw [StateM.run_bind]
            generalize (walk (isTracked A.table A.method) ρ₁ e).run log₂ = r at he ⊢
            obtain ⟨⟨e', _ | afterElse⟩, log₃⟩ := r
            · exact .conditional hk hc
                (fun limit => (ht.statement limit).mono (fun _ => id) fun _ _ => trivial)
                he.statement
            · exact .conditional hk hc
                (fun limit => (ht.statement limit).mono (fun _ => id) fun _ => .agree_right)
                fun limit => (he.statement limit).mono (fun _ => id) fun _ => .agree_left

/-- What is known of the variables that a loop does not assign is true before every test. -/
theorem SameUnder.loop_head {n : Numbered} {c c' : Ast} {body body' : List Ast} {ρ : Known}
    {known after : Except Error Known}
    (hc : SameValue (Holds A (ρ.forgetAll (assignedNames (.node n (c :: body)))))
      (After A known) (evalCondition w A · c) (evalCondition w A · c'))
    (hbody : SameUnder (After A known) (After A after) (execStatements w A limit body)
      (execStatements w A limit body')) (tests : Nat) :
    SameUnder (Holds A (ρ.forgetAll (assignedNames (.node n (c :: body)))))
      (Holds A (ρ.forgetAll (assignedNames (.node n (c :: body)))))
      (Exec.loop (evalCondition w A · c) (execStatements w A limit body) tests)
      (Exec.loop (evalCondition w A · c') (execStatements w A limit body') tests) := by
  have hkeeps : Keeps (· ∈ assignedNames (.node n (c :: body))) (execStatements w A limit body) :=
    execStatements_keeps fun t ht => execStatement_keeps t fun x hx =>
      mem_assignedNames_child (List.mem_cons_of_mem c ht) hx
  refine .loop hc.keeping (fun s hs => ⟨(hbody s hs.2).1, fun s' hrun x d hx => ?_⟩)
    (fun _ h => h.1) tests
  have hnot : x ∉ assignedNames (.node n (c :: body)) := by
    simpa using (List.mem_filter.mp hx).2
  have hvars := hkeeps s x hnot
  rw [hrun] at hvars
  rw [hvars]
  exact hs.1 x d hx

theorem walkKeeps_loop {n : Numbered} {ts : List Ast} (hk : n.kind = .loop)
    (h : ChildrenKeep w A ts) (ρ : Known) (log : Log) :
    WalkKeeps w A ρ (.node n ts)
      ((walk (isTracked A.table A.method) ρ (.node n ts)).run log).1 := by
  have hkind : isConditional n.kind = false := by rw [hk]; rfl
  rw [walk.eq_def]
  simp only [hk]
  match ts, h with
  | [], _ => exact .of_statement hkind fun _ => .refl_error _ _
  | c :: body, h =>
    dsimp only
    have hhead : ∀ vars, Holds A ρ vars →
        Holds A (ρ.forgetAll (assignedNames (.node n (c :: body)))) vars :=
      fun _ hρ => hρ.forgetAll fun _ _ => rfl
    have hc := h c List.mem_cons_self (ρ.forgetAll (assignedNames (.node n (c :: body)))) log
    rw [StateM.run_bind]
    generalize (walk (isTracked A.table A.method)
      (ρ.forgetAll (assignedNames (.node n (c :: body)))) c).run log = r at hc ⊢
    obtain ⟨⟨c', e | known⟩, log₁⟩ := r
    · refine .of_statement hkind fun limit => ?_
      rw [execStatement_loop hk, execStatement_loop hk]
      exact (SameUnder.loop_head hc.condition (.refl_error _ e) limit).mono hhead
        fun _ _ => trivial
    · have hbody := fun limit =>
        walkAll_same (fun t ht => h t (List.mem_cons_of_mem c ht)) known log₁ limit
      dsimp only
      rw [StateM.run_bind]
      generalize (walkAll (isTracked A.table A.method) known body).run log₁ = r at hbody ⊢
      obtain ⟨⟨body', after⟩, log₂⟩ := r
      refine .of_statement hkind fun limit => ?_
      rw [execStatement_loop hk, execStatement_loop hk]
      have hloop := (SameUnder.loop_head hc.condition (hbody limit) limit).mono hhead fun _ => id
      cases after with
      | error _ => exact hloop.mono (fun _ => id) fun _ _ => trivial
      | ok _ =>
        -- After the loop: what the simulation gave, if it gave anything.
        cases hexit : simulate (isTracked A.table A.method) c body
            (assignedNames (.node n (c :: body))) ρ with
        | none => exact hloop
        | some exit =>
          refine hloop.ending fun s s' hρ hrun =>
            holds_of_simulate (fun t ht x hx => ?_) hρ hexit hrun
          exact mem_assignedNames_child (List.mem_cons_of_mem c ht) hx

/-! ## The walk -/

/-- **The walk through a statement keeps its meaning**, and what it says afterwards is true. -/
theorem walk_keeps (t : Ast) (ρ : Known) (log : Log) :
    WalkKeeps w A ρ t ((walk (isTracked A.table A.method) ρ t).run log).1 := by
  induction t using Tree.induction generalizing ρ log with
  | node n ts ih =>
    cases hk : n.kind with
    | conditional => exact walkKeeps_conditional hk ih ρ log
    | loop => exact walkKeeps_loop hk ih ρ log
    | assignment name =>
      rw [walk.eq_def]
      simp only [hk]
      cases ts with
      | nil => exact .of_statement (by rw [hk]; rfl) fun _ => .refl_error _ _
      | cons v rest => exact walkKeeps_assignment hk v rest log
    | block | thenBranch | elseBranch =>
      rw [walk.eq_def]
      simp only [hk]
      refine .of_statement (by rw [hk]; rfl) fun limit => ?_
      rw [execStatement.eq_def, execStatement.eq_def]
      simp only [hk]
      exact walkAll_same ih ρ log limit
    | returnType _ | argument _ _ | localVar _ _ =>
      rw [walk.eq_def]
      simp only [hk]
      refine .of_statement (by rw [hk]; rfl) fun limit => ?_
      rw [execStatement.eq_def]
      simp only [hk]
      exact .stop _ fun _ => id
    | condition =>
      rw [walk.eq_def]
      simp only [hk]
      cases ts with
      | nil =>
        refine ⟨fun _ => .refl_error _ _, .of_eq (fun _ _ => rfl) fun _ _ => trivial⟩
      | cons e rest => exact walkKeeps_condition hk e rest log
    | arrayAssignment name =>
      rw [walk.eq_def]
      simp only [hk]
      exact walkKeeps_substituteAll (.inl ⟨name, hk⟩) ts log
    | expression =>
      rw [walk.eq_def]
      simp only [hk]
      exact walkKeeps_substituteAll (.inr (.inl hk)) ts log
    | ret =>
      rw [walk.eq_def]
      simp only [hk]
      exact walkKeeps_substituteAll (.inr (.inr hk)) ts log
    | _ =>
      rw [walk.eq_def]
      simp only [hk]
      refine walkKeeps_substitute (fun limit ts => ?_) ts log
      rw [execStatement.eq_def]
      simp only [hk]

/-- **The walk through the body of a method keeps its meaning.** -/
theorem walkAll_keeps (ts : List Ast) (ρ : Known) (log : Log) (limit : Nat) :
    SameUnder (Holds A ρ) (After A ((walkAll (isTracked A.table A.method) ρ ts).run log).1.2)
      (execStatements w A limit ts)
      (execStatements w A limit ((walkAll (isTracked A.table A.method) ρ ts).run log).1.1) :=
  walkAll_same (fun t _ ρ log => walk_keeps t ρ log) ρ log limit

end Meaning
end ClassCompiler
