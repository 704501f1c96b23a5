import ClassCompiler.Proofs.Meaning.Code

/-!
# Rules for code that does what a tree does

Two judgements compare pieces of code with parts of trees.

`Evaluates` is about code without jumps, which computes what an expression computes.  It has a
condition on the variables before, one after that may speak of the value, and a set of names that
the code may change; names outside the set keep their values, and this is what lets a value wait in
a temporary while other code runs.

`Executes` is about the code of statements.  The code starts at one place, and where the statement
comes to its end the code arrives at another.  A statement that is cut short because a loop made too
many tests corresponds to code that is still running after as many steps, which is all that can be
asked of an execution that may never end.

In both the variables of the method hold the same values in the tree and in the code (`Matches`),
and hold something: code reads a variable later than the tree does, which makes no difference only
if reading it cannot fail.

* `Evaluates.bind`, `Evaluates.keeping`, `Evaluates.assign`: expressions.
* `Executes.andThen`, `Executes.loop`: statements.
-/

namespace ClassCompiler
namespace Meaning

open ThreeAddress Status

variable {σ α β : Type} {S : Setting σ} {N : List String}

/-! ## Reaching -/

/-- An execution gets from one status to another in a number of steps or more. -/
def Reaches (S : Setting σ) (steps : Nat) (a b : Status σ) : Prop :=
  ∃ n, steps ≤ n ∧ run S n a = b

namespace Reaches

variable {j k : Nat} {a b c : Status σ}

theorem refl (a : Status σ) : Reaches S 0 a a :=
  ⟨0, Nat.le_refl 0, rfl⟩

theorem trans (h : Reaches S j a b) (h' : Reaches S k b c) : Reaches S (j + k) a c := by
  obtain ⟨m, hm, rfl⟩ := h
  obtain ⟨n, hn, rfl⟩ := h'
  exact ⟨m + n, Nat.add_le_add hm hn, run_add S m n a⟩

theorem mono (h : Reaches S k a b) (hjk : j ≤ k) : Reaches S j a b := by
  obtain ⟨n, hn, hrun⟩ := h
  exact ⟨n, Nat.le_trans hjk hn, hrun⟩

/-- One instruction. -/
theorem step {place : Nat} {s : State σ} {i : Instr} (h : S.code[place]? = some i) :
    Reaches S 1 (.running place s) (afterMove S place s (moveOf .free S.receiver s.vars i)) := by
  refine ⟨1, Nat.le_refl 1, ?_⟩
  rw [run, run, Status.step, h]

end Reaches

/-- The variables of the method hold the same in both, and hold something. -/
def Matches (N : List String) (source vars : Vars) : Prop :=
  ∀ x ∈ N, ∃ value, source x = some value ∧ vars x = some value

theorem Matches.keep {source vars vars' : Vars} {C : String → Prop} (h : Matches N source vars)
    (hC : ∀ x ∈ N, ¬ C x) (hvars : ∀ x, ¬ C x → vars' x = vars x) : Matches N source vars' := by
  intro x hx
  rw [hvars x (hC x hx)]
  exact h x hx

/-! ## Expressions -/

/-- What becomes of an evaluation: the code has run through, or has failed in the same way.  Code
that fails has not changed the variables of the method, even if it was going to. -/
def Evaluated (S : Setting σ) (N : List String) (C : String → Prop) (Q : α → Vars → Prop)
    (start : Nat) (vars : Vars) (o : Outside σ) (finish : Nat) : Except Fault α × Outside σ → Prop
  | (.ok a, o') => ∃ vars', Reaches S 0 (.running start ⟨vars, o⟩) (.running finish ⟨vars', o'⟩) ∧
      (∀ x, ¬ C x → vars' x = vars x) ∧ Q a vars'
  | (.error f, o') => ∃ vars', Reaches S 0 (.running start ⟨vars, o⟩)
      (.ended (.faulted f) ⟨vars', o'⟩) ∧ ∀ x, x ∈ N ∨ ¬ C x → vars' x = vars x

/-- Code without jumps computes what an evaluation computes, and changes names of `C` only. -/
def Evaluates (S : Setting σ) (N : List String) (P : Vars → Prop) (C : String → Prop)
    (code : List Instr) (e : Vars → Effect σ α) (Q : α → Vars → Prop) : Prop :=
  ∀ start, CodeAt S.code start code → ∀ source vars o, Matches N source vars → P vars →
    Evaluated S N C Q start vars o (start + code.length) (e source o)

namespace Evaluates

variable {P : Vars → Prop} {C : String → Prop} {Q : α → Vars → Prop} {code : List Instr}
  {e : Vars → Effect σ α}

/-- No code, for what can be had without failing. -/
theorem nil (h : ∀ source vars, Matches N source vars → P vars →
    ∃ a, e source = pure a ∧ Q a vars) : Evaluates S N P C [] e Q := by
  intro start _ source vars o hmatch hP
  obtain ⟨a, he, hQ⟩ := h source vars hmatch hP
  rw [he]
  exact ⟨vars, .refl _, fun _ _ => rfl, hQ⟩

theorem mono {P' : Vars → Prop} {C' : String → Prop} {Q' : α → Vars → Prop}
    (h : Evaluates S N P C code e Q) (hP : ∀ vars, P' vars → P vars) (hC : ∀ x, C x → C' x)
    (hQ : ∀ a vars, Q a vars → Q' a vars) : Evaluates S N P' C' code e Q' := by
  intro start hcode source vars o hmatch hP'
  have hrun := h start hcode source vars o hmatch (hP vars hP')
  generalize e source o = r at hrun ⊢
  obtain ⟨f | a, o'⟩ := r
  · obtain ⟨vars', hreach, hkeep⟩ := hrun
    exact ⟨vars', hreach, fun x hx => hkeep x (hx.imp id fun hx hC' => hx (hC x hC'))⟩
  · obtain ⟨vars', hreach, hkeep, hq⟩ := hrun
    exact ⟨vars', hreach, fun x hx => hkeep x fun hC' => hx (hC x hC'), hQ a vars' hq⟩

/-- What depends only on names that are not changed is still true afterwards. -/
theorem keeping {R : Vars → Prop} (h : Evaluates S N P C code e Q)
    (hR : ∀ vars vars', (∀ x, ¬ C x → vars' x = vars x) → R vars → R vars') :
    Evaluates S N (fun vars => P vars ∧ R vars) C code e fun a vars => Q a vars ∧ R vars := by
  intro start hcode source vars o hmatch hPR
  have hrun := h start hcode source vars o hmatch hPR.1
  generalize e source o = r at hrun ⊢
  obtain ⟨f | a, o'⟩ := r
  · exact hrun
  · obtain ⟨vars', hreach, hkeep, hq⟩ := hrun
    exact ⟨vars', hreach, hkeep, hq, hR vars vars' hkeep hPR.2⟩

/-- One evaluation after another.  Only the first has to leave the variables of the method alone. -/
theorem bind {C' : String → Prop} {code' : List Instr} {e' : α → Vars → Effect σ β}
    {Q' : β → Vars → Prop} (hC : ∀ x ∈ N, ¬ C x) (hsub : ∀ x, C x → C' x)
    (h : Evaluates S N P C code e Q) (h' : ∀ a, Evaluates S N (Q a) C' code' (e' a) Q') :
    Evaluates S N P C' (code ++ code') (fun source => e source >>= fun a => e' a source) Q' := by
  intro start hcode source vars o hmatch hP
  have hrun := h start hcode.left source vars o hmatch hP
  change Evaluated S N C' Q' start vars o _ ((e source >>= fun a => e' a source) o)
  rw [Effect.bind_apply]
  generalize e source o = r at hrun ⊢
  obtain ⟨f | a, o₁⟩ := r
  · obtain ⟨vars', hreach, hkeep⟩ := hrun
    exact ⟨vars', hreach, fun x hx => hkeep x (hx.imp id fun hx hCx => hx (hsub x hCx))⟩
  · obtain ⟨vars₁, hreach, hkeep, hq⟩ := hrun
    have hrun' := h' a _ hcode.right source vars₁ o₁ (hmatch.keep hC hkeep) hq
    have hfirst : ∀ x, x ∈ N ∨ ¬ C' x → vars₁ x = vars x := fun x hx =>
      hkeep x (hx.elim (hC x) fun hx hCx => hx (hsub x hCx))
    rw [List.length_append, ← Nat.add_assoc]
    dsimp only
    generalize e' a source o₁ = r at hrun' ⊢
    obtain ⟨f | b, o₂⟩ := r
    · obtain ⟨vars₂, hreach', hkeep'⟩ := hrun'
      exact ⟨vars₂, hreach.trans hreach', fun x hx => (hkeep' x hx).trans (hfirst x hx)⟩
    · obtain ⟨vars₂, hreach', hkeep', hq'⟩ := hrun'
      exact ⟨vars₂, hreach.trans hreach',
        fun x hx => (hkeep' x hx).trans (hfirst x (.inr hx)), hq'⟩

/-- A value that is made of what was computed. -/
theorem map {g : α → β} {Q' : β → Vars → Prop} (h : Evaluates S N P C code e Q)
    (hQ : ∀ a vars, Q a vars → Q' (g a) vars) :
    Evaluates S N P C code (fun source => e source >>= fun a => pure (g a)) Q' := by
  intro start hcode source vars o hmatch hP
  have hrun := h start hcode source vars o hmatch hP
  change Evaluated S N C Q' start vars o _ ((e source >>= fun a => pure (g a)) o)
  rw [Effect.bind_apply]
  generalize e source o = r at hrun ⊢
  obtain ⟨f | a, o'⟩ := r
  · exact hrun
  · obtain ⟨vars', hreach, hkeep, hq⟩ := hrun
    exact ⟨vars', hreach, hkeep, hQ a vars' hq⟩

end Evaluates

/-- The evaluation of a right-hand side. -/
def evalRhs (S : Setting σ) (vars : Vars) (rhs : Rhs) : Effect σ Value :=
  match compute .free S.receiver vars rhs with
  | .error f => .ofExcept (.error f)
  | .ok (.value v) => pure v
  | .ok (.ask r _) => S.world.demand (.ok r)

theorem World.demand_apply (w : World σ) (r : Request Value) (o : Outside σ) :
    w.demand (.ok r) o = match w.ask r o with
      | (.ok answer, o) => (World.expect answer, o)
      | (.error f, o) => (.error f, o) := by
  rw [World.demand, Effect.ofExcept_ok, Effect.pure_bind, Effect.bind_apply]
  rcases w.ask r o with ⟨_ | _, _⟩ <;> rfl

/-- What is reached from an assignment. -/
theorem Reaches.assign {place : Nat} {dest : Var} {rhs : Rhs}
    (h : S.code[place]? = some (.assign dest rhs)) (vars : Vars) (o : Outside σ) :
    match evalRhs S vars rhs o with
    | (.ok a, o') => Reaches S 1 (.running place ⟨vars, o⟩)
        (.running (place + 1) ⟨vars.set dest.name a, o'⟩)
    | (.error f, o') => Reaches S 1 (.running place ⟨vars, o⟩)
        (.ended (.faulted f) ⟨vars, o'⟩) := by
  have hstep := Reaches.step (s := ⟨vars, o⟩) h
  rw [moveOf] at hstep
  unfold evalRhs
  cases hrhs : compute .free S.receiver vars rhs with
  | error f =>
    rw [hrhs] at hstep
    exact hstep
  | ok c =>
    rw [hrhs] at hstep
    cases c with
    | value v => exact hstep
    | ask r type =>
      change Reaches S 1 _ (afterMove S place _ (.ok (.ask r _))) at hstep
      rw [afterMove] at hstep
      dsimp only
      rw [World.demand_apply]
      generalize S.world.ask r o = reply at hstep ⊢
      obtain ⟨f | answer, o'⟩ := reply
      · exact hstep
      · cases answer with
        | none => exact hstep
        | some a => exact hstep

namespace Evaluates

variable {P : Vars → Prop} {e : Vars → Effect σ α}

/-- An assignment of what is to be computed. -/
theorem assign {dest : Var} {rhs : Rhs} {e : Vars → Effect σ Value}
    (h : ∀ source vars, Matches N source vars → P vars → evalRhs S vars rhs = e source) :
    Evaluates S N P (· = dest.name) [.assign dest rhs] e fun a vars => vars dest.name = some a := by
  intro start hcode source vars o hmatch hP
  have hreach := Reaches.assign hcode.head vars o
  rw [h source vars hmatch hP] at hreach
  generalize e source o = r at hreach ⊢
  obtain ⟨f | a, o'⟩ := r
  · exact ⟨vars, hreach.mono (Nat.zero_le 1), fun _ _ => rfl⟩
  · exact ⟨vars.set dest.name a, hreach.mono (Nat.zero_le 1),
      fun x hx => Vars.set_of_ne vars a hx, Vars.set_self ..⟩

/-- An instruction that asks and does not look at the answer. -/
theorem tell {i : Instr} {e : Vars → Effect σ Unit} {C : String → Prop}
    (h : ∀ source vars, Matches N source vars → P vars → ∃ x : Except Fault (Request Value),
      moveOf .free S.receiver vars i = (x.map fun r => .ask r fun _ => .ok vars) ∧
      e source = do
        let r ← Effect.ofExcept x
        let _ ← S.world.ask r) :
    Evaluates S N P C [i] e fun _ _ => True := by
  intro start hcode source vars o hmatch hP
  obtain ⟨x, hmove, he⟩ := h source vars hmatch hP
  have hstep := (Reaches.step (s := ⟨vars, o⟩) hcode.head).mono (Nat.zero_le 1)
  rw [hmove] at hstep
  rw [he]
  cases x with
  | error f => exact ⟨vars, hstep, fun _ _ => rfl⟩
  | ok r =>
    rw [Except.map, afterMove] at hstep
    rw [Effect.ofExcept_ok, Effect.pure_bind, Effect.bind_apply]
    generalize S.world.ask r o = reply at hstep ⊢
    obtain ⟨f | answer, o'⟩ := reply
    · exact ⟨vars, hstep, fun _ _ => rfl⟩
    · exact ⟨vars, hstep, fun _ _ => rfl, trivial⟩

/-- An operand that can be read and is not used. -/
theorem noop {operand : Operand} {C : String → Prop} {Q : α → Vars → Prop}
    (h : ∀ source vars, Matches N source vars → P vars →
      (∃ a, readOperand .free S.receiver vars operand = .ok a) ∧
        ∃ b, e source = pure b ∧ Q b vars) :
    Evaluates S N P C [.noop operand] e Q := by
  intro start hcode source vars o hmatch hP
  obtain ⟨⟨a, hread⟩, b, he, hQ⟩ := h source vars hmatch hP
  have hstep := (Reaches.step (s := ⟨vars, o⟩) hcode.head).mono (Nat.zero_le 1)
  rw [moveOf, hread] at hstep
  rw [he]
  exact ⟨vars, hstep, fun _ _ => rfl, hQ⟩

end Evaluates

/-! ## Statements -/

/-- What becomes of the execution of a statement.  Where it came to its end, the code has arrived at
`finish`; where it was cut short, the code is still running after a number of steps or more. -/
def Arrived (S : Setting σ) (N : List String) (steps : Nat) (start : Status σ) (finish : Nat) :
    Completion × State σ → Prop
  | (.normal, s) => ∃ vars, Matches N s.vars vars ∧
      Reaches S 0 start (.running finish ⟨vars, s.outside⟩)
  | (.unfinished, s) => ∃ place vars, Matches N s.vars vars ∧
      Reaches S steps start (.running place ⟨vars, s.outside⟩)
  | (c, s) => ∃ vars, Matches N s.vars vars ∧ Reaches S 0 start (.ended c ⟨vars, s.outside⟩)

/-- The code from `start` on does what an execution does, and arrives at `finish`. -/
def Executes (S : Setting σ) (N : List String) (P : Vars → Prop) (steps start finish : Nat)
    (x : Exec σ) : Prop :=
  ∀ source vars o, Matches N source vars → P vars →
    Arrived S N steps (.running start ⟨vars, o⟩) finish (x ⟨source, o⟩)

section Statements

variable {P : Vars → Prop} {steps start finish mid : Nat} {x y : Exec σ}

/-- What is reached from a place that is reached. -/
theorem Arrived.after {j k : Nat} {a b : Status σ} {r : Completion × State σ}
    (h : Arrived S N k b finish r) (hab : Reaches S j a b) : Arrived S N (j + k) a finish r := by
  obtain ⟨c, s⟩ := r
  cases c with
  | normal | returned _ | faulted _ =>
    obtain ⟨vars, hmatch, hreach⟩ := h
    exact ⟨vars, hmatch, (hab.trans hreach).mono (Nat.zero_le _)⟩
  | unfinished =>
    obtain ⟨place, vars, hmatch, hreach⟩ := h
    exact ⟨place, vars, hmatch, hab.trans hreach⟩

theorem Arrived.mono {j k : Nat} {a : Status σ} {r : Completion × State σ}
    (h : Arrived S N k a finish r) (hjk : j ≤ k) : Arrived S N j a finish r := by
  obtain ⟨c, s⟩ := r
  cases c with
  | normal | returned _ | faulted _ => exact h
  | unfinished =>
    obtain ⟨place, vars, hmatch, hreach⟩ := h
    exact ⟨place, vars, hmatch, hreach.mono hjk⟩

/-- The code goes on to another place when the statement has come to its end. -/
theorem Arrived.goOn {a : Status σ} {r : Completion × State σ} (h : Arrived S N steps a mid r)
    (hgo : ∀ s, Reaches S 0 (.running mid s) (.running finish s)) :
    Arrived S N steps a finish r := by
  obtain ⟨c, s⟩ := r
  cases c with
  | normal =>
    obtain ⟨vars, hmatch, hreach⟩ := h
    exact ⟨vars, hmatch, hreach.trans (hgo _)⟩
  | returned _ | faulted _ | unfinished => exact h

namespace Executes

theorem mono {j : Nat} (h : Executes S N P steps start finish x) (hj : j ≤ steps) :
    Executes S N P j start finish x :=
  fun source vars o hmatch hP => (h source vars o hmatch hP).mono hj

/-- Nothing to do. -/
theorem normal : Executes S N P steps start start (Exec.stop .normal) :=
  fun _ vars _ hmatch _ => ⟨vars, hmatch, .refl _⟩

theorem goOn (h : Executes S N P steps start mid x)
    (hgo : ∀ s, Reaches S 0 (.running mid s) (.running finish s)) :
    Executes S N P steps start finish x :=
  fun source vars o hmatch hP => (h source vars o hmatch hP).goOn hgo

theorem after (h : Executes S N P steps mid finish x)
    (hgo : ∀ s, Reaches S 0 (.running start s) (.running mid s)) :
    Executes S N P steps start finish x :=
  fun source vars o hmatch hP =>
    ((h source vars o hmatch hP).after (hgo _)).mono (Nat.le_add_left ..)

theorem andThen (hx : Executes S N P steps start mid x)
    (hy : Executes S N (fun _ => True) steps mid finish y) :
    Executes S N P steps start finish (Exec.andThen x y) := by
  intro source vars o hmatch hP
  have hrun := hx source vars o hmatch hP
  unfold Exec.andThen
  generalize x ⟨source, o⟩ = r at hrun ⊢
  obtain ⟨c, s⟩ := r
  cases c with
  | normal =>
    obtain ⟨vars', hmatch', hreach⟩ := hrun
    exact ((hy s.vars vars' s.outside hmatch' trivial).after hreach).mono (Nat.le_add_left ..)
  | returned _ | faulted _ | unfinished => exact hrun

/-- An evaluation by code that does not change the variables of the method. -/
theorem evaluating {C : String → Prop} {Q : α → Vars → Prop} {code : List Instr}
    {e : Vars → Effect σ α} {k : α → Exec σ} (hC : ∀ x ∈ N, ¬ C x)
    (he : Evaluates S N P C code e Q) (hcode : CodeAt S.code start code)
    (hk : ∀ a, Executes S N (Q a) steps (start + code.length) finish (k a)) :
    Executes S N P steps start finish (Exec.evaluating e k) := by
  intro source vars o hmatch hP
  have hrun := he start hcode source vars o hmatch hP
  unfold Exec.evaluating
  dsimp only
  generalize e source o = r at hrun ⊢
  obtain ⟨f | a, o'⟩ := r
  · obtain ⟨vars', hreach, hkeep⟩ := hrun
    exact ⟨vars', hmatch.keep hC fun x hx => hkeep x (.inr hx), hreach⟩
  · obtain ⟨vars', hreach, hkeep, hQ⟩ := hrun
    exact ((hk a source vars' o' (hmatch.keep hC hkeep) hQ).after hreach).mono (Nat.le_add_left ..)

/-- An assignment of what code has computed to a variable of the method. -/
theorem assign {C : String → Prop} {name : String} {code : List Instr}
    {e : Vars → Effect σ Value} (hC : ∀ x ∈ N, C x → x = name)
    (he : Evaluates S N P C code e fun a vars => vars name = some a)
    (hcode : CodeAt S.code start code) :
    Executes S N P steps start (start + code.length)
      (Exec.evaluating e fun value s => (.normal, { s with vars := s.vars.set name value })) := by
  intro source vars o hmatch hP
  have hrun := he start hcode source vars o hmatch hP
  unfold Exec.evaluating
  dsimp only
  generalize e source o = r at hrun ⊢
  obtain ⟨f | a, o'⟩ := r
  · obtain ⟨vars', hreach, hkeep⟩ := hrun
    exact ⟨vars', fun x hx => hkeep x (.inl hx) ▸ hmatch x hx, hreach⟩
  · obtain ⟨vars', hreach, hkeep, hname⟩ := hrun
    refine ⟨vars', fun x hx => ?_, hreach⟩
    by_cases hxn : x = name
    · rw [hxn]
      exact ⟨a, Vars.set_self .., hname⟩
    · rw [hkeep x fun hCx => hxn (hC x hx hCx)]
      obtain ⟨value, hsource, hvars⟩ := hmatch x hx
      exact ⟨value, (Vars.set_of_ne source a hxn).trans hsource, hvars⟩

/-- The end of the method. -/
theorem returned {value : Option Value} {operand : Option Operand}
    (hcode : S.code[start]? = some (.ret operand))
    (hread : ∀ vars, P vars →
      moveOf .free S.receiver vars (.ret operand) = .ok (.stop value)) :
    Executes S N P steps start finish (Exec.stop (.returned value)) := by
  intro source vars o hmatch hP
  have hstep := (Reaches.step (s := ⟨vars, o⟩) hcode).mono (Nat.zero_le 1)
  rw [hread vars hP] at hstep
  exact ⟨vars, hmatch, hstep⟩

/-- Where a branch leads to. -/
def branchTarget (S : Setting σ) (place : Nat) (negated : Bool) (label : String) (b : Bool) :
    Option Nat :=
  if b = negated then some (place + 1) else labelIndex? S.code label

/-- A branch on an operand that has been computed. -/
theorem branch {value : Value} {cond : Operand} {negated : Bool} {label : String}
    {placeYes placeNo : Nat} {yes no : Exec σ}
    (hcode : S.code[start]? = some (.branch cond negated label))
    (hread : ∀ vars, P vars → readOperand .free S.receiver vars cond = .ok value)
    (hplaceYes : branchTarget S start negated label true = some placeYes)
    (hplaceNo : branchTarget S start negated label false = some placeNo)
    (hyes : Executes S N (fun _ => True) steps placeYes finish yes)
    (hno : Executes S N (fun _ => True) steps placeNo finish no) :
    Executes S N P (steps + 1) start finish (Exec.branch value yes no) := by
  intro source vars o hmatch hP
  have hstep := Reaches.step (s := ⟨vars, o⟩) hcode
  rw [moveOf, hread vars hP] at hstep
  have hgo : ∀ b place, value = .bool b → branchTarget S start negated label b = some place →
      Reaches S 1 (.running start ⟨vars, o⟩) (.running place ⟨vars, o⟩) := by
    rintro b place rfl hplace
    unfold branchTarget at hplace
    change Reaches S 1 _ (afterMove S start _ (.ok (if b = negated then _ else _))) at hstep
    by_cases hb : b = negated
    · rw [if_pos hb] at hplace hstep
      rw [← Option.some.inj hplace]
      exact hstep
    · rw [if_neg hb] at hplace hstep
      rw [afterMove, hplace] at hstep
      exact hstep
  unfold Exec.branch
  cases value with
  | bool b =>
    cases b with
    | true =>
      rw [Nat.add_comm]
      exact (hyes source vars o hmatch trivial).after (hgo true placeYes rfl hplaceYes)
    | false =>
      rw [Nat.add_comm]
      exact (hno source vars o hmatch trivial).after (hgo false placeNo rfl hplaceNo)
  | int _ | ref _ | classRef _ => exact ⟨vars, hmatch, hstep.mono (Nat.zero_le 1)⟩

/-- **Loops.**  The code tests before the first round and again after every round; either test leads
to the body or out of the loop. -/
theorem loop {guard : Vars → Effect σ Value} {body : Exec σ} {bodyStart again : Nat} {limit : Nat}
    (htest : ∀ test, test = start ∨ test = again → ∀ steps yes no,
      Executes S N (fun _ => True) steps bodyStart finish yes →
      Executes S N (fun _ => True) steps finish finish no →
      Executes S N (fun _ => True) (steps + 1) test finish
        (Exec.evaluating guard fun value => Exec.branch value yes no))
    (hbody : Executes S N (fun _ => True) limit bodyStart again body) {tests : Nat}
    (htests : tests ≤ limit) :
    Executes S N (fun _ => True) tests start finish (Exec.loop guard body tests) := by
  suffices h : ∀ test, test = start ∨ test = again →
      Executes S N (fun _ => True) tests test finish (Exec.loop guard body tests) from
    h start (.inl rfl)
  induction tests with
  | zero =>
    intro test _ source vars o hmatch _
    exact ⟨test, vars, hmatch, .refl _⟩
  | succ tests ih =>
    intro test hplace
    have hle : tests ≤ limit := Nat.le_of_succ_le htests
    refine htest test hplace tests _ _ ?_ .normal
    exact (hbody.mono hle).andThen (ih hle again (.inr rfl))

end Executes
end Statements

end Meaning
end ClassCompiler
