import ClassCompiler.Proofs.Machine.Layout
import ClassCompiler.Proofs.Meaning.Code
import ClassCompiler.Proofs.ThreeAddress.Liveness

/-!
# What is not live makes no difference

Two executions of the same code in the same world, whose variables differ only in names that are not
live, cannot be told apart from outside: they ask the same questions with the same operands, at the
same moments, and end alike or not at all.

What an instruction does is decided by the names that it reads, and all names that were alike before
it are alike after it, as is the one that it assigns.  A name that is live at the next place and was
not assigned is live at this place as well.  So variables that are alike in what is live stay so,
step by step.  The jumps of an execution go to the first place of a label and those of the analysis
to the last; a frame exists only if that is the same place.

* `MovesAlike`, `moveOf_alike`: instructions, for variables that are alike in what is read.
* `Status.Indistinct`, `Indistinct.step`, `Indistinct.run`: executions.
* `run_eq_of_live`: what is seen of an execution.
-/

namespace ClassCompiler
namespace Meaning

open ThreeAddress (ValueType Call Instr Liveness Method Operand Rhs Var labelsOf)

/-! ## Instructions -/

section Instructions

variable {D : Discipline} {receiver : Reference} {vars vars' : Vars}

theorem readVar_congr {v : Var} (h : vars v.name = vars' v.name) :
    readVar D vars v = readVar D vars' v := by
  simp only [readVar, Vars.read, h]

theorem readOperand_congr {o : Operand} (h : ∀ name ∈ o.uses, vars name = vars' name) :
    readOperand D receiver vars o = readOperand D receiver vars' o := by
  cases o with
  | var v => exact readVar_congr (h v.name (List.mem_singleton.mpr rfl))
  | _ => rfl

theorem readOperands_congr {os : List Operand}
    (h : ∀ name ∈ os.flatMap Operand.uses, vars name = vars' name) :
    readOperands D receiver vars os = readOperands D receiver vars' os := by
  induction os with
  | nil => rfl
  | cons o os ih =>
    rw [List.flatMap_cons, List.forall_mem_append] at h
    rw [readOperands, readOperands, readOperand_congr h.1, ih h.2]

theorem callRequest_congr {c : Call} (h : ∀ name ∈ c.uses, vars name = vars' name) :
    callRequest D receiver vars c = callRequest D receiver vars' c := by
  rw [Call.uses, List.forall_mem_append] at h
  rw [callRequest, callRequest, readOperand_congr h.1, readOperands_congr h.2]

/-- A right-hand side comes to the same if the names that it reads hold the same. -/
theorem compute_congr {rhs : Rhs} (h : ∀ name ∈ rhs.uses, vars name = vars' name) :
    compute D receiver vars rhs = compute D receiver vars' rhs := by
  cases rhs with
  | operand o => rw [compute, compute, readOperand_congr h]
  | binary op left right =>
    rw [Rhs.uses, List.forall_mem_append] at h
    rw [compute, compute, readOperand_congr h.1, readOperand_congr h.2]
  | not o => rw [compute, compute, readOperand_congr h]
  | call c => rw [compute, compute, callRequest_congr h]
  | getField object field => rw [compute, compute, readOperand_congr h]
  | arrayLength array => rw [compute, compute, readOperand_congr h]
  | arrayLoad array index =>
    rw [Rhs.uses, List.forall_mem_cons] at h
    rw [compute, compute, readVar_congr h.1, readOperand_congr h.2]
  | newObject name => rfl
  | newArray length => rw [compute, compute, readOperand_congr h]

/-- The variables after an instruction are alike where they were before it, and where it assigns. -/
def AlikeAfter (c : Instr) (vars vars' next next' : Vars) : Prop :=
  ∀ name, (name ∉ c.defs → vars name = vars' name) → next name = next' name

/-- What an instruction does with two sets of variables, seen from outside. -/
inductive MovesAlike (c : Instr) (vars vars' : Vars) :
    Except Fault Move → Except Fault Move → Prop
  | faulted (f : Fault) : MovesAlike c vars vars' (.error f) (.error f)
  | next {next next' : Vars} (falls : c.isTerminator = false)
      (alike : AlikeAfter c vars vars' next next') :
      MovesAlike c vars vars' (.ok (.next next)) (.ok (.next next'))
  | ask (r : Request Value) {resume resume' : Option Value → Except Fault Vars}
      (falls : c.isTerminator = false)
      (alike : ∀ answer, (∃ f, resume answer = .error f ∧ resume' answer = .error f) ∨
        ∃ next next', resume answer = .ok next ∧ resume' answer = .ok next' ∧
          AlikeAfter c vars vars' next next') :
      MovesAlike c vars vars' (.ok (.ask r resume)) (.ok (.ask r resume'))
  | jump (label : String) (target : c.target? = some label) :
      MovesAlike c vars vars' (.ok (.jump label)) (.ok (.jump label))
  | stop (result : Option Value) :
      MovesAlike c vars vars' (.ok (.stop result)) (.ok (.stop result))

/-- Variables that stay as they are stay alike. -/
theorem alikeAfter_same {c : Instr} (h : c.defs = []) : AlikeAfter c vars vars' vars vars' :=
  fun _ hname => hname (h ▸ List.not_mem_nil)

/-- Variables that get the same value stay alike. -/
theorem alikeAfter_assign (dest : Var) (rhs : Rhs) (value : Value) :
    AlikeAfter (.assign dest rhs) vars vars' (vars.set dest.name value)
      (vars'.set dest.name value) := by
  intro name hname
  by_cases hdest : name = dest.name
  · rw [hdest, Vars.set_self, Vars.set_self]
  · rw [Vars.set_of_ne _ _ hdest, Vars.set_of_ne _ _ hdest]
    exact hname (mt List.mem_singleton.mp hdest)

/-- What comes before is the same for both. -/
theorem MovesAlike.bind {α : Type} {c : Instr} {x : Except Fault α}
    {g g' : α → Except Fault Move} (h : ∀ a, MovesAlike c vars vars' (g a) (g' a)) :
    MovesAlike c vars vars' (x >>= g) (x >>= g') := by
  cases x with
  | error f => exact .faulted f
  | ok a => exact h a

/-- An answer is assigned alike. -/
theorem assignAnswer_alike (dest : Var) (rhs : Rhs) (type : ValueType) (answer : Option Value) :
    (∃ f, assignAnswer D vars dest type answer = .error f ∧
      assignAnswer D vars' dest type answer = .error f) ∨
    ∃ next next', assignAnswer D vars dest type answer = .ok next ∧
      assignAnswer D vars' dest type answer = .ok next' ∧
      AlikeAfter (.assign dest rhs) vars vars' next next' := by
  unfold assignAnswer assignVar
  cases D.check type answer with
  | error f => exact .inl ⟨f, rfl, rfl⟩
  | ok _ =>
    cases World.expect answer with
    | error f => exact .inl ⟨f, rfl, rfl⟩
    | ok value =>
      dsimp only [bind, Except.bind]
      cases D.check dest.type (some value) with
      | error f => exact .inl ⟨f, rfl, rfl⟩
      | ok _ => exact .inr ⟨_, _, rfl, rfl, alikeAfter_assign dest rhs value⟩

/-- **What an instruction does is decided by what it reads.** -/
theorem moveOf_alike {c : Instr} (h : ∀ name ∈ c.uses, vars name = vars' name) :
    MovesAlike c vars vars' (moveOf D receiver vars c) (moveOf D receiver vars' c) := by
  cases c with
  | assign dest rhs =>
    rw [moveOf, moveOf, compute_congr h]
    refine .bind fun computed => ?_
    cases computed with
    | value value =>
      dsimp only [assignVar]
      cases D.check dest.type (some value) with
      | error f => exact .faulted f
      | ok _ => exact .next rfl (alikeAfter_assign dest rhs value)
    | ask r type => exact .ask r rfl (assignAnswer_alike dest rhs type)
  | arrayStore array index value =>
    rw [Instr.uses, List.forall_mem_cons, List.forall_mem_append] at h
    rw [moveOf, moveOf, readVar_congr h.1, readOperand_congr h.2.1, readOperand_congr h.2.2]
    refine .bind fun _ => .bind fun _ => .bind fun _ => .bind fun r => .ask r rfl fun _ => ?_
    exact .inr ⟨vars, vars', rfl, rfl, alikeAfter_same rfl⟩
  | call call =>
    rw [moveOf, moveOf, callRequest_congr h]
    refine .bind fun r => .ask r rfl fun answer => ?_
    cases D.check call.result answer with
    | error f => exact .inl ⟨f, rfl, rfl⟩
    | ok _ => exact .inr ⟨vars, vars', rfl, rfl, alikeAfter_same rfl⟩
  | putField object field value =>
    rw [Instr.uses, List.forall_mem_append] at h
    rw [moveOf, moveOf, readOperand_congr h.1, readOperand_congr h.2]
    refine .bind fun _ => .bind fun _ => .bind fun _ => .bind fun _ => .ask _ rfl fun _ => ?_
    exact .inr ⟨vars, vars', rfl, rfl, alikeAfter_same rfl⟩
  | ret value =>
    cases value with
    | none => exact .stop none
    | some o =>
      rw [moveOf, moveOf, readOperand_congr h]
      exact .bind fun value => .stop (some value)
  | jump label => exact .jump label rfl
  | branch cond negated label =>
    rw [moveOf, moveOf, readOperand_congr h]
    refine .bind fun value => ?_
    cases value with
    | bool b =>
      by_cases hb : b = negated
      · simp only [hb, if_pos]
        exact .next rfl (alikeAfter_same rfl)
      · simp only [if_neg hb]
        exact .jump label rfl
    | _ => exact .faulted .stuck
  | label name => exact .next rfl (alikeAfter_same rfl)
  | noop o =>
    rw [moveOf, moveOf, readOperand_congr h]
    exact .bind fun _ => .next rfl (alikeAfter_same rfl)

end Instructions

/-! ## Executions -/

section Executions

variable {σ : Type} {m : Method} {L : Liveness} {i j : Nat} {name : String}

/-- Where each label is set once, executions and the analysis find it at the same place. -/
theorem labelIndex?_eq_of_nodup (hnodup : (labelsOf m.code).Nodup) (hland : m.JumpsLand)
    {c : Instr} (hc : m.code[i]? = some c) {label : String} (htarget : c.target? = some label)
    (hplace : labelIndex? m.code label = some j) :
    ThreeAddress.labelIndex? label 0 m.code = some j := by
  cases hlast : ThreeAddress.labelIndex? label 0 m.code with
  | none =>
    obtain ⟨c', hc', hlabel⟩ := hland c (List.mem_of_getElem? hc) label htarget
    exact absurd hlabel (ThreeAddress.labelIndex?_eq_none.mp hlast c' hc')
  | some last =>
    obtain ⟨k, c', rfl, hk, hlabel⟩ := ThreeAddress.labelIndex?_eq_some hlast
    rw [← hplace, Nat.zero_add]
    exact (findIdx?_of_nodup hnodup hk hlabel).symm

/-- A jump assigns nothing. -/
theorem defs_of_target? {c : Instr} {label : String} (h : c.target? = some label) :
    c.defs = [] := by
  cases c with
  | assign dest rhs => cases h
  | _ => rfl

/-- What is live next was live before, unless it was assigned. -/
theorem live_of_live_next (hL : m.liveness = .ok L) {c : Instr} (hc : m.code[i]? = some c)
    (hflow : m.LeadsTo i j) (hname : name ∈ L.before j) (hdefs : name ∉ c.defs) :
    name ∈ L.before i := by
  rw [Method.mem_before hL] at hname ⊢
  exact .step hflow (mt (Method.assignsAt_iff hc).mp hdefs) hname

/-- What an instruction reads is live before it. -/
theorem live_of_uses (hL : m.liveness = .ok L) {c : Instr} (hc : m.code[i]? = some c)
    (hname : name ∈ c.uses) : name ∈ L.before i :=
  (Method.mem_before hL).mpr (.here ⟨c, hc, hname⟩)

namespace Status

/-- How an execution has ended, if it has. -/
def completion? : Status σ → Option Completion
  | running _ _ => none
  | ended completion _ => some completion

/-- Two executions at the same place in the same world, with variables that are alike in what is
live there; or two that have ended alike. -/
inductive Indistinct (L : Liveness) : Status σ → Status σ → Prop
  | running (place : Nat) {vars vars' : Vars} (outside : Outside σ)
      (alike : ∀ name ∈ L.before place, vars name = vars' name) :
      Indistinct L (running place ⟨vars, outside⟩) (running place ⟨vars', outside⟩)
  | ended (completion : Completion) (vars vars' : Vars) (outside : Outside σ) :
      Indistinct L (ended completion ⟨vars, outside⟩) (ended completion ⟨vars', outside⟩)

namespace Indistinct

variable {w : World σ} {receiver : Reference} {a b : Status σ}

theorem outside_eq (h : Indistinct L a b) : a.state.outside = b.state.outside := by
  cases h <;> rfl

theorem completion?_eq (h : Indistinct L a b) : a.completion? = b.completion? := by
  cases h <;> rfl

/-- **The step.**  Executions that cannot be told apart do the same. -/
theorem step (hL : m.liveness = .ok L) (hnodup : (labelsOf m.code).Nodup) (hland : m.JumpsLand)
    (h : Indistinct L a b) :
    Indistinct L (step ⟨w, receiver, m.code⟩ a) (Status.step ⟨w, receiver, m.code⟩ b) := by
  cases h with
  | ended completion vars vars' outside => exact .ended completion vars vars' outside
  | @running place vars vars' outside alike =>
    rw [Status.step, Status.step]
    dsimp only
    cases hc : m.code[place]? with
    | none => exact .ended _ vars vars' outside
    | some c =>
      have hnext : ∀ j, m.LeadsTo place j → ∀ {next next' : Vars},
          AlikeAfter c vars vars' next next' → ∀ name ∈ L.before j, next name = next' name := by
        intro j hflow next next' hafter name hname
        exact hafter name fun hdefs => alike name (live_of_live_next hL hc hflow hname hdefs)
      have hfalls : c.isTerminator = false → ∀ {next next' : Vars},
          AlikeAfter c vars vars' next next' →
          ∀ name ∈ L.before (place + 1), next name = next' name := by
        intro hterminator next next' hafter name hname
        have hlt := ((Method.mem_before hL).mp hname).lt_length
        have hflow := (Method.leadsTo_iff hland hc).mpr (.inl ⟨hterminator, rfl, hlt⟩)
        exact hnext (place + 1) hflow hafter name hname
      have hmoves : MovesAlike c vars vars' (moveOf .free receiver vars c)
          (moveOf .free receiver vars' c) :=
        moveOf_alike fun name hname => alike name (live_of_uses hL hc hname)
      dsimp only
      generalize moveOf .free receiver vars c = move at hmoves
      generalize moveOf .free receiver vars' c = move' at hmoves
      cases hmoves with
      | faulted f => exact .ended _ vars vars' outside
      | next falls hafter => exact .running _ outside (hfalls falls hafter)
      | ask r falls halike =>
        rw [afterMove, afterMove]
        dsimp only
        generalize w.ask r outside = reply
        obtain ⟨answer, outside'⟩ := reply
        cases answer with
        | error f => exact .ended _ vars vars' outside'
        | ok answer =>
          rcases halike answer with ⟨f, hf, hf'⟩ | ⟨next, next', hok, hok', hafter⟩
          · dsimp only
            rw [hf, hf']
            exact .ended _ vars vars' outside'
          · dsimp only
            rw [hok, hok']
            exact .running _ outside' (hfalls falls hafter)
      | jump label target =>
        rw [afterMove, afterMove]
        dsimp only
        cases hplace : labelIndex? m.code label with
        | none => exact .ended _ vars vars' outside
        | some j =>
          have hlast := labelIndex?_eq_of_nodup hnodup hland hc target hplace
          have hflow := (Method.leadsTo_iff hland hc).mpr (.inr ⟨label, target, hlast⟩)
          refine .running j outside fun name hname => alike name ?_
          refine live_of_live_next hL hc hflow hname ?_
          rw [defs_of_target? target]
          exact List.not_mem_nil
      | stop result => exact .ended _ vars vars' outside

/-- **The run.**  They do so as long as they go on. -/
theorem run (hL : m.liveness = .ok L) (hnodup : (labelsOf m.code).Nodup) (hland : m.JumpsLand)
    (h : Indistinct L a b) (n : Nat) :
    Indistinct L (run ⟨w, receiver, m.code⟩ n a) (Status.run ⟨w, receiver, m.code⟩ n b) := by
  induction n generalizing a b with
  | zero => exact h
  | succ n ih => exact ih (h.step hL hnodup hland)

end Indistinct

end Status

/-- **What is not live makes no difference.**  Of a method that has a frame, the live variables are
known.  Start two executions at the same place in the same world, with variables that are alike in
what is live there.  After any number of steps the world and everything that was exchanged with it
are the same for both, and either none of them has ended or both have, in the same way and with the
same result. -/
theorem run_eq_of_live {budget : Nat} {m : Method} {F : Machine.Frame}
    (hF : Machine.Frame.build budget m = .ok F) :
    ∃ L, m.liveness = .ok L ∧ ∀ {σ : Type} (w : World σ) (receiver : Reference) (i : Nat)
      (vars vars' : Vars) (outside : Outside σ),
      (∀ name ∈ L.before i, vars name = vars' name) → ∀ n,
        let S : Setting σ := ⟨w, receiver, m.code⟩
        let first := Status.run S n (.running i ⟨vars, outside⟩)
        let second := Status.run S n (.running i ⟨vars', outside⟩)
        first.state.outside = second.state.outside ∧ first.completion? = second.completion? := by
  obtain ⟨-, -, hnodup⟩ := Machine.Frame.build_eq_ok hF
  have hland : m.JumpsLand := by
    intro c hc label htarget
    exact List.mem_filterMap.mp (Machine.Frame.build_target hF hc htarget)
  obtain ⟨L, hL⟩ := hland.liveness
  refine ⟨L, hL, fun w receiver i vars vars' outside halike n => ?_⟩
  have hrun : Status.Indistinct L (Status.run ⟨w, receiver, m.code⟩ n (.running i ⟨vars, outside⟩))
      (Status.run ⟨w, receiver, m.code⟩ n (.running i ⟨vars', outside⟩)) :=
    (Status.Indistinct.running i outside halike).run hL hnodup hland n
  exact ⟨hrun.outside_eq, hrun.completion?_eq⟩

/-- What the counter of a loop holds before it is set makes no difference. -/
theorem countUp_run_eq : ∃ F L, Machine.Frame.build 99 Method.countUp = .ok F ∧
    Method.countUp.liveness = .ok L ∧ ∀ {σ : Type} (w : World σ) (receiver : Reference)
      (vars : Vars) (value : Value) (outside : Outside σ) (n : Nat),
      let S : Setting σ := ⟨w, receiver, Method.countUp.code⟩
      let first := Status.run S n (.running 0 ⟨vars, outside⟩)
      let second := Status.run S n (.running 0 ⟨vars.set "i" value, outside⟩)
      first.state.outside = second.state.outside ∧ first.completion? = second.completion? := by
  obtain ⟨F, hF⟩ : ∃ F, Machine.Frame.build 99 Method.countUp = .ok F := ⟨_, rfl⟩
  obtain ⟨L, hL, hrun⟩ := run_eq_of_live hF
  refine ⟨F, L, hF, hL, fun w receiver vars value outside => ?_⟩
  refine hrun w receiver 0 vars (vars.set "i" value) outside fun name hname => ?_
  have hne : name ≠ "i" := by
    rintro rfl
    refine Method.not_readsAhead_of_assigned (c := .assign ⟨"i", .int⟩ (.operand (.int 0))) rfl
      (by decide) (by decide) ((Method.mem_before hL).mp hname)
  rw [Vars.set_of_ne _ _ hne]

end Executions

end Meaning
end ClassCompiler
