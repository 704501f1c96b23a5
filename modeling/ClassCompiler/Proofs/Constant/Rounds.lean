import ClassCompiler.Proofs.Constant.Loop

/-!
# The rounds of a simulated loop

A loop is run on the known constants to find out what it leaves behind.  That run is exact in both
directions.  The simulation gives a result precisely if the known constants determine everything
that the loop does and its guard is false after at most `iterationLimit` rounds; and the loop itself
then takes the same number of rounds, from every state in which the constants are what they are
known to be.

What is known may concern names that are no variables.  Such a name is a field, and to read a field
is to ask the world.  So agreement is about the state as a whole: the variables, and a property of
the world that reading the known names does not end.  The loop is allowed to assign to variables
only, which is why what is known of a field stays true.

* `Agrees`: the names have the constants that they are known to have.
* `Agrees.carried`: evaluation and assignment keep an agreement.
* `simulate_exact`: what the simulation of a loop says, and when it says something.
-/

namespace ClassCompiler

open Constant

namespace Constant.Known

theorem get?_set_self (ρ : Known) (x : String) (c : Constant) : (ρ.set x c).get? x = some c := by
  rw [get?, set, List.lookup_cons, beq_self_eq_true]

theorem get?_forget_of_ne (ρ : Known) {x y : String} (h : y ≠ x) :
    (ρ.forget x).get? y = ρ.get? y := by
  induction ρ with
  | nil => rfl
  | cons entry ρ ih =>
    obtain ⟨z, c⟩ := entry
    unfold forget get? at ih ⊢
    by_cases hz : z = x
    · have hyz : (y == z) = false := beq_eq_false_iff_ne.mpr fun hyz => h (hyz.trans hz)
      rw [List.filter_cons_of_neg (by simp [hz]), ih, List.lookup_cons, hyz]
    · rw [List.filter_cons_of_pos (by simpa using hz), List.lookup_cons, List.lookup_cons, ih]

theorem get?_set_of_ne (ρ : Known) {x y : String} (c : Constant) (h : y ≠ x) :
    (ρ.set x c).get? y = ρ.get? y := by
  rw [get?, set, List.lookup_cons, beq_eq_false_iff_ne.mpr h]
  exact get?_forget_of_ne ρ h

end Constant.Known

namespace Meaning

variable {σ : Type} {w : World σ} {A : Activation} {P : Outside σ → Prop}

/-! ## Assigning to a variable -/

/-- A variable is read where it was assigned. -/
theorem readName_set_self {x : String} (hx : isTracked A.table A.method x = true) (vars : Vars)
    (value : Value) : A.readName w (vars.set x value) x = pure value := by
  unfold isTracked at hx
  unfold Activation.readName
  split at hx
  · rename_i hres
    simp only [hres, Vars.read, Vars.set_self, Effect.ofExcept_ok]
  · rename_i hres
    simp only [hres, Vars.read, Vars.set_self, Effect.ofExcept_ok]
  · exact absurd hx (by simp)

theorem readName_set_of_ne {x y : String} (h : y ≠ x) (vars : Vars) (value : Value) :
    A.readName w (vars.set x value) y = A.readName w vars y := by
  unfold Activation.readName Vars.read
  rw [Vars.set_of_ne vars value h]

/-! ## Agreement -/

/-- The world is within `P`, and whoever reads a known name is given its constant. -/
def Agrees (w : World σ) (A : Activation) (P : Outside σ → Prop) (ρ : Known) (s : State σ) : Prop :=
  P s.outside ∧ Answers w A P ρ s.vars

theorem Answers.set {ρ : Known} {vars : Vars} (h : Answers w A P ρ vars) {x : String}
    (hx : isTracked A.table A.method x = true) (c : Constant) :
    Answers w A P (ρ.set x c) (vars.set x (Value.ofConstant c)) := by
  intro y d hy o ho
  by_cases hyx : y = x
  · subst hyx
    rw [Known.get?_set_self, Option.some.injEq] at hy
    rw [readName_set_self hx, hy]
    exact ⟨o, ho, rfl⟩
  · rw [Known.get?_set_of_ne ρ c hyx] at hy
    rw [readName_set_of_ne hyx]
    exact h y d hy o ho

theorem Agrees.carried : Carried w A (Agrees w A P) where
  eval {ρ s t c} hρ ht := by
    obtain ⟨o, ho, hrun⟩ := evalExpr_of_answers hρ.2 ht hρ.1
    exact ⟨o, hrun, ho, hρ.2⟩
  assign c hρ hx := ⟨hρ.1, hρ.2.set hx c⟩

/-- **The simulation of a loop is exact.**  Let a loop assign to variables of the method only, in a
body that consists of assignments.  The simulation gives a result if and only if the run on the
known constants ends within the limit, with that result.  Where such a run takes `k` rounds, so does
the loop, from every state that agrees with what is known: it ends without a fault if it may test
its guard more than `k` times, and not before; the state that it ends in agrees with the result, and
differs from the first one in no variable that the loop does not assign. -/
theorem simulate_exact {A : Activation} {n : Numbered} (hk : n.kind = .loop) {c : Ast}
    {body : List Ast} {steps : List (String × Ast)} (hsteps : straightLines body = some steps)
    (htracked : ∀ x ∈ assignedNames (.node n (c :: body)),
      isTracked A.table A.method x = true) (entry exit : Known) :
    (simulate (isTracked A.table A.method) c body (assignedNames (.node n (c :: body))) entry =
        some exit ↔
      ∃ k, k ≤ iterationLimit ∧ Rounds c steps k entry exit) ∧
    ∀ k, Rounds c steps k entry exit →
      ∀ {σ : Type} (w : World σ) (P : Outside σ → Prop) (s : State σ), Agrees w A P entry s →
        ∃ s', Agrees w A P exit s' ∧
          (∀ x, x ∉ assignedNames (.node n (c :: body)) → s'.vars x = s.vars x) ∧
          ∀ limit,
            (k < limit → execStatement w A limit (.node n (c :: body)) s = (.normal, s')) ∧
            (limit ≤ k → (execStatement w A limit (.node n (c :: body)) s).1 = .unfinished) := by
  refine ⟨simulate_eq_some_iff htracked hsteps, ?_⟩
  intro k hrun σ w P s hs
  obtain ⟨s', hs', hloop⟩ := execLoop_of_rounds Agrees.carried hsteps
    (fun t ht x hx => htracked x (mem_assignedNames_child (List.mem_cons_of_mem c ht) hx)) hrun hs
  have hexec : ∀ limit, execStatement w A limit (.node n (c :: body)) s =
      Exec.loop (evalCondition w A · c) (execStatements w A limit body) limit s := fun limit =>
    congrFun (execStatement_loop hk c body) s
  refine ⟨s', hs', fun x hx => ?_, fun limit => ?_⟩
  · have hkeeps : Keeps (· ∈ assignedNames (.node n (c :: body)))
        (execStatement w A (k + 1) (.node n (c :: body))) := execStatement_keeps _ fun _ h => h
    have hlast := hkeeps s x hx
    rwa [hexec, (hloop (k + 1) (k + 1)).1 (Nat.lt_succ_self k)] at hlast
  · rw [hexec]
    exact hloop limit limit

/-- The guard of a loop that counts up until it has reached the value of a field. -/
def reachGuard : Ast :=
  .node ⟨⟨.condition, {}, []⟩, 1⟩ [
    .node ⟨⟨.binary .lt, {}, []⟩, 2⟩ [
      .node ⟨⟨.identifier "i", {}, []⟩, 3⟩ [],
      .node ⟨⟨.identifier "last", {}, []⟩, 4⟩ []]]

/-- The loop counts in steps of two and notes whether it went past the value. -/
def reachSteps : List (String × Ast) :=
  [("i", .node ⟨⟨.binary .add, {}, []⟩, 5⟩ [
      .node ⟨⟨.identifier "i", {}, []⟩, 6⟩ [],
      .node ⟨⟨.integer 2, {}, []⟩, 7⟩ []]),
    ("past", .node ⟨⟨.binary .lt, {}, []⟩, 8⟩ [
      .node ⟨⟨.identifier "last", {}, []⟩, 9⟩ [],
      .node ⟨⟨.identifier "i", {}, []⟩, 10⟩ []])]

/-- The block of the assignments, which have their numbers from `11` on. -/
def reachBody : Ast :=
  .node ⟨⟨.block, {}, []⟩, 4⟩ (reachSteps.mapIdx fun i step =>
    .node ⟨⟨.assignment step.1, {}, []⟩, 11 + i⟩ [step.2])

/-- The method that the loop belongs to. -/
def reachActivation : Activation where
  table := ⟨"Reach", none, [], [⟨"last", ⟨"int", false, .primitive⟩⟩],
    [⟨"advance", ⟨"void", false, .primitive⟩, [⟨"past", ⟨"boolean", false, .primitive⟩⟩],
      [⟨"i", ⟨"int", false, .primitive⟩⟩], false⟩]⟩
  method := "advance"
  isStatic := false
  receiver := .address 1

/-- In a world where every field holds three, the loop takes two rounds. -/
theorem reachLoop_exact :
    let loop : Ast := .node ⟨⟨.loop, {}, []⟩, 0⟩ [reachGuard, reachBody]
    let w : World Unit := ⟨fun _ _ => (.ok (some (.int 3)), ())⟩
    let entry : Known := [("i", .int 0), ("last", .int 3)]
    let exit : Known := [("past", .bool true), ("i", .int 4), ("last", .int 3)]
    simulate (isTracked reachActivation.table reachActivation.method) reachGuard [reachBody]
        (assignedNames loop) entry = some exit ∧
      ∀ vars : Vars, vars "i" = some (.int 0) → ∃ s',
        execStatement w reachActivation 3 loop ⟨vars, ⟨(), []⟩⟩ = (.normal, s') ∧
        (execStatement w reachActivation 2 loop ⟨vars, ⟨(), []⟩⟩).1 = .unfinished ∧
        Agrees w reachActivation (fun _ => True) exit s' := by
  intro loop w entry exit
  have hrun : Rounds reachGuard reachSteps 2 entry exit :=
    .round rfl (.cons rfl (.cons rfl .nil)) (.round rfl (.cons rfl (.cons rfl .nil)) (.done rfl))
  have hsteps : straightLines [reachBody] = some reachSteps := rfl
  obtain ⟨hsim, hexec⟩ := simulate_exact (A := reachActivation) (n := ⟨⟨.loop, {}, []⟩, 0⟩) rfl
    (c := reachGuard) hsteps (by decide) entry exit
  refine ⟨hsim.mpr ⟨2, by decide, hrun⟩, fun vars hi => ?_⟩
  have hagrees : Agrees w reachActivation (fun _ => True) entry ⟨vars, ⟨(), []⟩⟩ := by
    refine ⟨trivial, fun x c hx o _ => ?_⟩
    have hmem := mem_of_get? hx
    simp only [entry, List.mem_cons, Prod.mk.injEq, List.not_mem_nil, or_false] at hmem
    rcases hmem with ⟨rfl, rfl⟩ | ⟨rfl, rfl⟩
    · refine ⟨o, trivial, ?_⟩
      change Effect.ofExcept (vars.read "i") o = _
      rw [Vars.read, hi]
      rfl
    · exact ⟨_, trivial, rfl⟩
  obtain ⟨s', hs', -, hlimit⟩ := hexec 2 hrun w (fun _ => True) ⟨vars, ⟨(), []⟩⟩ hagrees
  exact ⟨s', (hlimit 3).1 (by decide), (hlimit 2).2 (by decide), hs'⟩

end Meaning
end ClassCompiler
