import ClassCompiler.Proofs.Constant.Known

/-!
# Loops

Two facts about loops let a walk say something about the variables after one.

A statement assigns to no variable but those whose assignment it contains.  So what is known of any
other variable is still true after every round, and `Keeps` follows this through the ways in which
executions are put together.

Where a loop can be run on the known constants, running it on them tells what it leaves behind.
`Rounds` says what such a run is, and `loop_of_rounds` compares it with the loop round by round, for
any relation between what is known and states that is carried along.

* `assignedNames_node`: the names that a node assigns.
* `execStatement_keeps`: a statement changes only the names that it assigns.
* `execStatement_of_straightLine`: assignments with known values, executed.
* `simulate_eq_some_iff`: the simulation of a loop finds the runs within its limit.
* `loop_of_rounds`: a loop takes the rounds that it takes on the known constants.
* `holds_of_simulate`: what the simulation of a loop says is true when the loop has ended.
-/

namespace ClassCompiler
namespace Meaning

open Constant

variable {σ α : Type} {w : World σ} {A : Activation} {limit : Nat}

/-! ## What a statement may change -/

/-- The name that a node itself assigns. -/
def assignedName? (k : Kind) : Option String :=
  match k with
  | .assignment name => some name
  | _ => none

theorem assignedNames_eq (t : Ast) :
    assignedNames t = t.preorder.filterMap fun n => assignedName? n.kind := rfl

theorem assignedNames_node (n : Numbered) (ts : List Ast) :
    assignedNames (.node n ts) = (assignedName? n.kind).toList ++ ts.flatMap assignedNames := by
  rw [assignedNames_eq, Tree.preorder, Tree.preorderAll_eq_flatMap, List.filterMap_cons,
    List.filterMap_flatMap]
  cases assignedName? n.kind <;> rfl

theorem mem_assignedNames_child {n : Numbered} {ts : List Ast} {t : Ast} {x : String} (ht : t ∈ ts)
    (hx : x ∈ assignedNames t) : x ∈ assignedNames (.node n ts) := by
  rw [assignedNames_node]
  exact List.mem_append_right _ (List.mem_flatMap.mpr ⟨t, ht, hx⟩)

/-- An execution changes no variable but those of a set. -/
def Keeps (names : String → Prop) (x : Exec σ) : Prop :=
  ∀ s y, ¬ names y → (x s).2.vars y = s.vars y

namespace Keeps

variable {names : String → Prop}

theorem stop (c : Completion) : Keeps names (Exec.stop c : Exec σ) :=
  fun _ _ _ => rfl

theorem andThen {x y : Exec σ} (hx : Keeps names x) (hy : Keeps names y) :
    Keeps names (Exec.andThen x y) := by
  intro s z hz
  have hxs := hx s z hz
  unfold Exec.andThen
  rcases hrun : x s with ⟨c, s'⟩
  rw [hrun] at hxs
  cases c with
  | normal => exact (hy s' z hz).trans hxs
  | returned _ | faulted _ | unfinished => exact hxs

theorem evaluating {e : Vars → Effect σ α} {k : α → Exec σ} (hk : ∀ a, Keeps names (k a)) :
    Keeps names (Exec.evaluating e k) := by
  intro s z hz
  unfold Exec.evaluating
  rcases e s.vars s.outside with ⟨a | a, o⟩
  · rfl
  · exact hk a _ z hz

theorem branch {value : Value} {yes no : Exec σ} (hyes : Keeps names yes) (hno : Keeps names no) :
    Keeps names (Exec.branch value yes no) := by
  unfold Exec.branch
  split
  · exact hyes
  · exact hno
  · exact stop _

theorem loop {guard : Vars → Effect σ Value} {body : Exec σ} (hbody : Keeps names body)
    (tests : Nat) : Keeps names (Exec.loop guard body tests) := by
  induction tests with
  | zero => exact stop _
  | succ tests ih => exact evaluating fun _ => branch (hbody.andThen ih) (stop _)

theorem assign {name : String} (hname : names name) (value : Value) :
    Keeps names (Exec.assign w A name value) := by
  unfold Exec.assign
  split
  · exact evaluating fun _ => stop _
  · intro s z hz
    exact Vars.set_of_ne s.vars value fun h => hz (h ▸ hname)
  · exact stop _

end Keeps

theorem execStatements_keeps {names : String → Prop} {ts : List Ast}
    (h : ∀ t ∈ ts, Keeps names (execStatement w A limit t)) :
    Keeps names (execStatements w A limit ts) := by
  induction ts with
  | nil =>
    rw [execStatements]
    exact .stop _
  | cons t ts ih =>
    rw [execStatements]
    exact (h t List.mem_cons_self).andThen (ih fun u hu => h u (List.mem_cons_of_mem t hu))

/-- A statement changes no variable whose assignment it does not contain. -/
theorem execStatement_keeps {names : String → Prop} (t : Ast)
    (h : ∀ x ∈ assignedNames t, names x) : Keeps names (execStatement w A limit t) := by
  induction t using Tree.induction with
  | node n ts ih =>
    have hchild : ∀ t ∈ ts, Keeps names (execStatement w A limit t) := fun t ht =>
      ih t ht fun x hx => h x (mem_assignedNames_child ht hx)
    rw [execStatement.eq_def]
    cases hk : n.kind with
    | block | thenBranch | elseBranch =>
      simp only [hk]
      exact execStatements_keeps hchild
    | conditional =>
      simp only [hk]
      split
      · rename_i c t rest
        refine .evaluating fun value => .branch (hchild t (by simp)) ?_
        split
        · exact .stop _
        · rename_i e _
          exact hchild e (by simp)
      · exact .stop _
    | loop =>
      simp only [hk]
      split
      · exact .stop _
      · exact .loop (execStatements_keeps fun t ht => hchild t (List.mem_cons_of_mem _ ht)) limit
    | assignment name =>
      simp only [hk]
      split
      · exact .stop _
      · have hname : names name := h name (by simp [assignedNames_node, hk, assignedName?])
        exact .evaluating fun value => .assign hname value
    | expression | ret =>
      simp only [hk]
      split
      · exact .stop _
      · exact .evaluating fun _ => .stop _
    | arrayAssignment _ | condition =>
      simp only [hk]
      exact .evaluating fun _ => .stop _
    | returnType _ | argument _ _ | localVar _ _ =>
      simp only [hk]
      exact .stop _
    | _ =>
      simp only [hk]
      exact .evaluating fun _ => .stop _

/-! ## Assignments with known values -/

/-- An assignment to a variable of the method changes that variable. -/
theorem assign_of_isTracked {name : String} (h : isTracked A.table A.method name = true)
    (value : Value) (s : State σ) :
    Exec.assign w A name value s = (.normal, { s with vars := s.vars.set name value }) := by
  unfold isTracked at h
  unfold Exec.assign
  split at h
  · rename_i hres
    simp only [hres]
  · rename_i hres
    simp only [hres]
  · exact absurd h (by simp)

/-- The assignments of a list, one after another: each value is determined by what is known where
it is assigned. -/
inductive Assigned : List (String × Ast) → Known → Known → Prop
  | nil {ρ : Known} : Assigned [] ρ ρ
  | cons {ρ ρ' : Known} {x : String} {v : Ast} {c : Constant} {steps : List (String × Ast)}
      (hv : eval ρ v = some c) (h : Assigned steps (ρ.set x c) ρ') : Assigned ((x, v) :: steps) ρ ρ'

theorem assignAll_eq_some_iff {steps : List (String × Ast)} {ρ ρ' : Known} :
    assignAll ρ steps = some ρ' ↔ Assigned steps ρ ρ' := by
  induction steps generalizing ρ with
  | nil =>
    rw [assignAll, Option.some.injEq]
    constructor
    · rintro rfl
      exact .nil
    · rintro ⟨⟩
      rfl
  | cons step steps ih =>
    obtain ⟨x, v⟩ := step
    rw [assignAll]
    constructor
    · intro h
      obtain ⟨c, hv, h⟩ := Option.bind_eq_some_iff.mp h
      exact .cons hv (ih.mp h)
    · rintro (_ | ⟨hv, h⟩)
      exact Option.bind_eq_some_iff.mpr ⟨_, hv, ih.mpr h⟩

theorem Assigned.split {steps rest : List (String × Ast)} {ρ ρ' : Known}
    (h : Assigned (steps ++ rest) ρ ρ') : ∃ mid, Assigned steps ρ mid ∧ Assigned rest mid ρ' := by
  induction steps generalizing ρ with
  | nil => exact ⟨ρ, .nil, h⟩
  | cons step steps ih =>
    rcases h with _ | ⟨hv, h⟩
    obtain ⟨mid, hfirst, hrest⟩ := ih h
    exact ⟨mid, .cons hv hfirst, hrest⟩

/-- A relation between what is known and states that an execution carries along: an expression that
the known constants determine has its value, and the relation survives to evaluate it and to assign
a constant to a variable on both sides. -/
structure Carried (w : World σ) (A : Activation) (K : Known → State σ → Prop) : Prop where
  eval {ρ : Known} {s : State σ} {t : Ast} {c : Constant} (hρ : K ρ s) (ht : eval ρ t = some c) :
    ∃ o, evalExpr w A s.vars t s.outside = (.ok (Value.ofConstant c), o) ∧
      K ρ { s with outside := o }
  assign {ρ : Known} {s : State σ} {x : String} (c : Constant) (hρ : K ρ s)
    (hx : isTracked A.table A.method x = true) :
    K (ρ.set x c) { s with vars := s.vars.set x (Value.ofConstant c) }

variable {K : Known → State σ → Prop}

/-- An execution comes to its end, however often loops may test their guards, in a state of which a
property holds. -/
def Ends (run : Nat → Exec σ) (s : State σ) (Q : State σ → Prop) : Prop :=
  ∃ s', (∀ limit, run limit s = (.normal, s')) ∧ Q s'

theorem execStatements_of_straightLines {ts : List Ast} {steps : List (String × Ast)} {ρ ρ' : Known}
    {s : State σ} (hsteps : straightLines ts = some steps) (hρ : K ρ s)
    (hassign : Assigned steps ρ ρ')
    (h : ∀ t ∈ ts, ∀ steps ρ ρ' (s : State σ), straightLine t = some steps → K ρ s →
      Assigned steps ρ ρ' → Ends (execStatement w A · t) s (K ρ')) :
    Ends (execStatements w A · ts) s (K ρ') := by
  induction ts generalizing steps ρ s with
  | nil =>
    rw [straightLines, Option.some.injEq] at hsteps
    subst hsteps
    cases hassign
    refine ⟨s, fun limit => ?_, hρ⟩
    simp only [execStatements]
    rfl
  | cons t ts ih =>
    rw [straightLines] at hsteps
    obtain ⟨first, hfirst, hsteps⟩ := Option.bind_eq_some_iff.mp hsteps
    obtain ⟨rest, hrest, hsteps⟩ := Option.bind_eq_some_iff.mp hsteps
    rw [← Option.some.inj hsteps] at hassign
    obtain ⟨mid, hmid, hassign⟩ := hassign.split
    obtain ⟨s₁, hrun, hs₁⟩ := h t List.mem_cons_self first ρ mid s hfirst hρ hmid
    obtain ⟨s', hrest, hs'⟩ := ih hrest hs₁ hassign fun u hu => h u (List.mem_cons_of_mem t hu)
    refine ⟨s', fun limit => ?_, hs'⟩
    simp only [execStatements, Exec.andThen, hrun]
    exact hrest limit

/-- **A statement that consists of assignments with known values** does what they say. -/
theorem execStatement_of_straightLine (hK : Carried w A K) {t : Ast} {steps : List (String × Ast)}
    {ρ ρ' : Known} {s : State σ} (ht : straightLine t = some steps)
    (htracked : ∀ x ∈ assignedNames t, isTracked A.table A.method x = true) (hρ : K ρ s)
    (hassign : Assigned steps ρ ρ') : Ends (execStatement w A · t) s (K ρ') := by
  induction t using Tree.induction generalizing steps ρ ρ' s with
  | node n ts ih =>
    rw [straightLine.eq_def] at ht
    unfold Ends
    simp only [execStatement.eq_def w A _ (.node n ts)]
    cases hk : n.kind <;> simp only [hk, reduceCtorEq] at ht ⊢
    case localVar type name =>
      rw [← Option.some.inj ht] at hassign
      cases hassign
      exact ⟨s, fun _ => rfl, hρ⟩
    case block =>
      exact execStatements_of_straightLines ht hρ hassign fun t hmem steps ρ ρ' s ht hρ hassign =>
        ih t hmem ht (fun x hx => htracked x (mem_assignedNames_child hmem hx)) hρ hassign
    case assignment name =>
      cases ts with
      | nil => exact absurd ht (by simp)
      | cons v _ =>
        rw [← Option.some.inj ht] at hassign
        obtain _ | ⟨hc, ⟨⟩⟩ := hassign
        have hname : isTracked A.table A.method name = true :=
          htracked name (by simp [assignedNames_node, hk, assignedName?])
        obtain ⟨o, hrun, ho⟩ := hK.eval hρ hc
        refine ⟨_, fun _ => ?_, hK.assign _ ho hname⟩
        simp only [Exec.evaluating, hrun]
        exact assign_of_isTracked hname _ _

/-! ## A loop run on the known constants -/

/-- The value of a loop's guard, where the known constants determine it. -/
def evalGuard (ρ : Known) (c : Ast) : Option Constant :=
  (guardOf? c).bind (eval ρ)

/-- A loop that is run on the known constants ends after exactly so many rounds: its guard is true
before each of them and false after the last one, and all values that they assign are known. -/
inductive Rounds (c : Ast) (steps : List (String × Ast)) : Nat → Known → Known → Prop
  | done {ρ : Known} (hguard : evalGuard ρ c = some (.bool false)) : Rounds c steps 0 ρ ρ
  | round {k : Nat} {ρ ρ₁ ρ' : Known} (hguard : evalGuard ρ c = some (.bool true))
      (hround : Assigned steps ρ ρ₁) (h : Rounds c steps k ρ₁ ρ') : Rounds c steps (k + 1) ρ ρ'

/-- Running a loop on constants with so many tests finds the runs that have fewer rounds. -/
theorem iterate_eq_some_iff {c g : Ast} (hg : guardOf? c = some g) {steps : List (String × Ast)}
    {tests : Nat} {ρ ρ' : Known} :
    iterate g steps tests ρ = some ρ' ↔ ∃ k, k < tests ∧ Rounds c steps k ρ ρ' := by
  have hvalue : ∀ ρ, evalGuard ρ c = eval ρ g := fun ρ => by rw [evalGuard, hg, Option.bind_some]
  induction tests generalizing ρ with
  | zero => simp [iterate]
  | succ tests ih =>
    rw [iterate]
    constructor
    · intro h
      split at h
      · rename_i hfalse
        rw [← Option.some.inj h]
        exact ⟨0, Nat.succ_pos _, .done ((hvalue ρ).trans hfalse)⟩
      · rename_i htrue
        obtain ⟨ρ₁, hround, h⟩ := Option.bind_eq_some_iff.mp h
        obtain ⟨k, hk, hrest⟩ := ih.mp h
        exact ⟨k + 1, Nat.succ_lt_succ hk,
          .round ((hvalue ρ).trans htrue) (assignAll_eq_some_iff.mp hround) hrest⟩
      · exact absurd h (by simp)
    · rintro ⟨k, hk, hrun⟩
      cases hrun with
      | done hguard => rw [← hvalue, hguard]
      | round hguard hround hrest =>
        rw [← hvalue, hguard]
        refine Option.bind_eq_some_iff.mpr ⟨_, assignAll_eq_some_iff.mpr hround, ?_⟩
        exact ih.mpr ⟨_, Nat.lt_of_succ_lt_succ hk, hrest⟩

/-- **A loop takes the rounds that it takes on the known constants.**  It comes to its end if it may
test its guard once more than it has rounds, and is cut off if it may not. -/
theorem loop_of_rounds {guard : Vars → Effect σ Value} (body : Nat → Exec σ) {c : Ast}
    {steps : List (String × Ast)}
    (hguard : ∀ ρ s b, K ρ s → evalGuard ρ c = some b → ∃ o,
      guard s.vars s.outside = (.ok (Value.ofConstant b), o) ∧ K ρ { s with outside := o })
    (hbody : ∀ ρ ρ' s, K ρ s → Assigned steps ρ ρ' → Ends body s (K ρ'))
    {k : Nat} {ρ ρ' : Known} {s : State σ} (hrun : Rounds c steps k ρ ρ') (hρ : K ρ s) :
    ∃ s', K ρ' s' ∧ ∀ limit tests,
      (k < tests → Exec.loop guard (body limit) tests s = (.normal, s')) ∧
      (tests ≤ k → (Exec.loop guard (body limit) tests s).1 = .unfinished) := by
  induction hrun generalizing s with
  | done hfalse =>
    obtain ⟨o, hvalue, ho⟩ := hguard _ s _ hρ hfalse
    refine ⟨_, ho, fun limit tests => ?_⟩
    cases tests with
    | zero => exact ⟨fun h => absurd h (Nat.lt_irrefl 0), fun _ => rfl⟩
    | succ tests =>
      refine ⟨fun _ => ?_, fun h => absurd h (Nat.not_succ_le_zero tests)⟩
      rw [Exec.loop, Exec.evaluating, hvalue]
      rfl
  | @round k ρ ρ₁ ρ' htrue hround hrest ih =>
    obtain ⟨o, hvalue, ho⟩ := hguard _ s _ hρ htrue
    obtain ⟨s₁, hfirst, hs₁⟩ := hbody _ _ _ ho hround
    obtain ⟨s', hs', hloop⟩ := ih hs₁
    refine ⟨s', hs', fun limit tests => ?_⟩
    cases tests with
    | zero => exact ⟨fun h => absurd h (Nat.not_lt_zero _), fun _ => rfl⟩
    | succ tests =>
      -- One more test and one more round come before what the rest of the loop does.
      have hstep : Exec.loop guard (body limit) (tests + 1) s =
          Exec.loop guard (body limit) tests s₁ := by
        rw [Exec.loop, Exec.evaluating, hvalue]
        change Exec.andThen (body limit) (Exec.loop guard (body limit) tests) _ = _
        rw [Exec.andThen, hfirst]
      rw [hstep, Nat.succ_lt_succ_iff, Nat.succ_le_succ_iff]
      exact hloop limit tests

theorem evalCondition_of_guardOf? {c g : Ast} (h : guardOf? c = some g) (vars : Vars) :
    evalCondition w A vars c = evalExpr w A vars g := by
  obtain ⟨n, ts⟩ := c
  unfold guardOf? at h
  unfold evalCondition
  dsimp only at h ⊢
  cases hk : n.kind with
  | condition =>
    simp only [hk] at h ⊢
    cases ts with
    | nil => exact absurd h (by simp)
    | cons t _ =>
      rw [List.head?_cons, Option.some.injEq] at h
      rw [h]
  | _ =>
    simp only [hk, Option.some.injEq] at h ⊢
    rw [h]

/-- A simulation that gives a result is a run on the known constants, within the limit. -/
theorem simulate_eq_some_iff {tracked : String → Bool} {c : Ast} {body : List Ast}
    {steps : List (String × Ast)} {written : List String} {ρ ρ' : Known}
    (hwritten : ∀ x ∈ written, tracked x = true) (hsteps : straightLines body = some steps) :
    simulate tracked c body written ρ = some ρ' ↔
      ∃ k, k ≤ iterationLimit ∧ Rounds c steps k ρ ρ' := by
  rw [simulate, if_pos (List.all_eq_true.mpr hwritten)]
  cases hg : guardOf? c with
  | none =>
    -- No guard, no test of it, and so no run.
    have hnone : ∀ ρ, evalGuard ρ c = none := fun ρ => by rw [evalGuard, hg, Option.bind_none]
    refine ⟨fun h => absurd h (by simp), ?_⟩
    rintro ⟨k, -, ⟨hguard⟩ | ⟨hguard, -, -⟩⟩ <;> exact absurd ((hnone ρ).symm.trans hguard) (by simp)
  | some g =>
    simp only [Option.bind_eq_bind, Option.bind_some, hsteps]
    rw [iterate_eq_some_iff hg]
    simp only [Nat.lt_succ_iff]

/-- The loop of a method, run as `loop_of_rounds` says. -/
theorem execLoop_of_rounds (hK : Carried w A K) {c : Ast} {body : List Ast}
    {steps : List (String × Ast)} (hsteps : straightLines body = some steps)
    (htracked : ∀ t ∈ body, ∀ x ∈ assignedNames t, isTracked A.table A.method x = true)
    {k : Nat} {ρ ρ' : Known} {s : State σ} (hrun : Rounds c steps k ρ ρ') (hρ : K ρ s) :
    ∃ s', K ρ' s' ∧ ∀ limit tests,
      (k < tests → Exec.loop (evalCondition w A · c) (execStatements w A limit body) tests s =
        (.normal, s')) ∧
      (tests ≤ k → (Exec.loop (evalCondition w A · c) (execStatements w A limit body) tests s).1 =
        .unfinished) := by
  refine loop_of_rounds (execStatements w A · body) ?_ ?_ hrun hρ
  · intro ρ s b hρ hb
    obtain ⟨g, hg, hb⟩ := Option.bind_eq_some_iff.mp hb
    rw [evalCondition_of_guardOf? hg]
    exact hK.eval hρ hb
  · intro ρ ρ' s hρ hassign
    refine execStatements_of_straightLines hsteps hρ hassign fun t ht _ _ _ _ hline hρ hassign => ?_
    exact execStatement_of_straightLine hK hline (htracked t ht) hρ hassign

/-- What is known of variables only is carried along, and the world is left alone. -/
theorem Holds.carried : Carried w A fun ρ (s : State σ) => Holds A ρ s.vars where
  eval {ρ s t c} hρ ht := ⟨s.outside, by rw [evalExpr_of_eval hρ ht, Effect.pure_apply], hρ⟩
  assign _ hρ hx := hρ.set hx

/-- **What the simulation of a loop says is true when the loop has ended.** -/
theorem holds_of_simulate {c : Ast} {body : List Ast} {written : List String} {n : Nat}
    {ρ ρ' : Known} {s s' : State σ} (hwritten : ∀ t ∈ body, ∀ x ∈ assignedNames t, x ∈ written)
    (hρ : Holds A ρ s.vars)
    (hsim : simulate (isTracked A.table A.method) c body written ρ = some ρ')
    (hrun : Exec.loop (evalCondition w A · c) (execStatements w A limit body) n s = (.normal, s')) :
    Holds A ρ' s'.vars := by
  have htracked : ∀ x ∈ written, isTracked A.table A.method x = true := by
    by_contra hnot
    rw [simulate, if_neg fun h => hnot (List.all_eq_true.mp h)] at hsim
    exact absurd hsim (by simp)
  obtain ⟨steps, hsteps⟩ : ∃ steps, straightLines body = some steps := by
    by_contra hnot
    rw [simulate, Option.eq_none_iff_forall_ne_some.mpr fun steps h => hnot ⟨steps, h⟩] at hsim
    split at hsim <;> simp at hsim
  obtain ⟨k, -, hrounds⟩ := (simulate_eq_some_iff htracked hsteps).mp hsim
  obtain ⟨s₁, hs₁, hloop⟩ := execLoop_of_rounds Holds.carried hsteps
    (fun t ht x hx => htracked x (hwritten t ht x hx)) hrounds hρ
  obtain ⟨hends, hcut⟩ := hloop limit n
  rcases Nat.lt_or_ge k n with hn | hn
  · rw [hrun, Prod.mk.injEq] at hends
    rw [(hends hn).2]
    exact hs₁
  · exact absurd (hcut hn) (by rw [hrun]; simp)

end Meaning
end ClassCompiler
