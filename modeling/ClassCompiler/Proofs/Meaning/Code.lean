import ClassCompiler.ThreeAddress.Basic
import ClassCompiler.Proofs.Meaning.Source

/-!
# What three-address code does

The meaning of a list of instructions, in the same values and worlds as that of trees.  A state is a
place in the list and what the variables hold; an instruction says what to do from there, without
looking at the world.  Only to *ask* something needs the world, and what becomes of the answer is
part of the instruction.  So one description serves a machine that runs in a world and a comparison
with another machine, question by question.

Variables of three-address code have types, and what the types are good for depends on who asks.  A
*discipline* says which values may be where; `Discipline.free` allows everything, which is how trees
are executed.

* `readOperand`, `compute`, `moveOf`: operands, right-hand sides and instructions.
* `labelIndex?_of_nodup`: where each label is set once, a jump leads there.
* `Status.step`, `Status.run`: execution in a world.
* `SameBehaviour`: a method as a tree and as code, compared from outside.
-/

namespace ClassCompiler

namespace ThreeAddress

/-- The labels that code sets, in order. -/
def labelsOf (code : List Instr) : List String :=
  code.filterMap Instr.label?

@[simp] theorem labelsOf_nil : labelsOf [] = [] := rfl

@[simp] theorem labelsOf_append (code code' : List Instr) :
    labelsOf (code ++ code') = labelsOf code ++ labelsOf code' :=
  List.filterMap_append

@[simp] theorem labelsOf_cons (i : Instr) (code : List Instr) :
    labelsOf (i :: code) = i.label?.toList ++ labelsOf code := by
  unfold labelsOf
  rw [List.filterMap_cons]
  cases i.label? <;> rfl

end ThreeAddress

namespace Meaning

open ThreeAddress

/-! ## Instructions -/

/-- Which values may be in a place of a type.  Nothing at all is what a call without a result
answers. -/
abbrev Discipline := ValueType → Option Value → Bool

namespace Discipline

/-- Every value may be everywhere. -/
def free : Discipline := fun _ _ => true

/-- Stuck where a value may not be. -/
def check (D : Discipline) (type : ValueType) (value : Option Value) : Except Fault Unit :=
  if D type value then .ok () else .error .stuck

theorem check_eq_ok {D : Discipline} {type : ValueType} {value : Option Value} {u : Unit} :
    D.check type value = .ok u ↔ D type value = true := by
  unfold check
  split <;> simp_all

end Discipline

/-- The reference that a value is. -/
def Value.reference : Value → Except Fault Reference
  | .ref r => .ok r
  | _ => .error .stuck

/-- What a right-hand side comes to: a value, or a question whose answer it is. -/
inductive Computed where
  | value (value : Value)
  | ask (request : Request Value) (type : ValueType)

/-- What an instruction does. -/
inductive Move where
  /-- Goes on to the next instruction. -/
  | next (vars : Vars)
  /-- Asks, and goes on to the next instruction with the variables that the answer leaves. -/
  | ask (request : Request Value) (resume : Option Value → Except Fault Vars)
  | jump (label : String)
  | stop (result : Option Value)

section Instructions

variable (D : Discipline) (receiver : Reference) (vars : Vars)

/-- The value of a variable. -/
def readVar (v : Var) : Except Fault Value := do
  let value ← vars.read v.name
  D.check v.type (some value)
  return value

/-- The value of an operand. -/
def readOperand : Operand → Except Fault Value
  | .int value => .ok (.int value)
  | .bool value => .ok (.bool value)
  | .string value => .ok (.ref (.string value))
  | .var v => readVar D vars v
  | .this _ => .ok (.ref receiver)
  | .classRef name => .ok (.classRef name)

/-- The values of operands. -/
def readOperands : List Operand → Except Fault (List Value)
  | [] => .ok []
  | o :: os => do
    let value ← readOperand D receiver vars o
    let values ← readOperands os
    return value :: values

/-- Arguments for parameters. -/
def checkArgs : List ValueType → List Value → Except Fault Unit
  | type :: types, value :: values => do
    D.check type (some value)
    checkArgs types values
  | _, _ => .ok ()

/-- The question that a call asks. -/
def callRequest (c : Call) : Except Fault (Request Value) := do
  let target ← readOperand D receiver vars c.target
  let args ← readOperands D receiver vars c.args
  checkArgs D c.params args
  Request.callOn c.method args target

/-- What a right-hand side comes to. -/
def compute : Rhs → Except Fault Computed
  | .operand o => do return .value (← readOperand D receiver vars o)
  | .binary op left right => do
    let a ← readOperand D receiver vars left
    let b ← readOperand D receiver vars right
    return .value (← Value.binary op a b)
  | .not o => do
    let a ← readOperand D receiver vars o
    return .value (← a.negate)
  | .call c => do return .ask (← callRequest D receiver vars c) c.result
  | .getField object field => do
    let o ← readOperand D receiver vars object
    return .ask (.getField (← o.reference) field.name) field.type
  | .arrayLength array => do
    let a ← readOperand D receiver vars array
    return .ask (← Request.lengthOf a) .int
  | .arrayLoad array index => do
    let a ← readVar D vars array
    let i ← readOperand D receiver vars index
    return .ask (← Request.loadFrom a i) .int
  | .newObject name => return .ask (.newObject name) (.object name)
  | .newArray length => do
    let n ← readOperand D receiver vars length
    return .ask (← Request.arrayOf n) .intArray

/-- The variables after an assignment. -/
def assignVar (dest : Var) (value : Value) : Except Fault Vars := do
  D.check dest.type (some value)
  return vars.set dest.name value

/-- What an answer leaves where it is assigned. -/
def assignAnswer (dest : Var) (type : ValueType) (answer : Option Value) : Except Fault Vars := do
  D.check type answer
  let value ← World.expect answer
  assignVar D vars dest value

/-- What an instruction does. -/
def moveOf : Instr → Except Fault Move
  | .assign dest rhs => do
    match ← compute D receiver vars rhs with
    | .value value => return .next (← assignVar D vars dest value)
    | .ask r type => return .ask r (assignAnswer D vars dest type)
  | .arrayStore array index value => do
    let a ← readVar D vars array
    let i ← readOperand D receiver vars index
    let v ← readOperand D receiver vars value
    return .ask (← Request.storeTo a i v) fun _ => .ok vars
  | .call c => do
    let r ← callRequest D receiver vars c
    return .ask r fun answer => do
      D.check c.result answer
      return vars
  | .putField object field value => do
    let o ← readOperand D receiver vars object
    let v ← readOperand D receiver vars value
    D.check field.type (some v)
    return .ask (.putField (← o.reference) field.name v) fun _ => .ok vars
  | .ret none => return .stop none
  | .ret (some o) => do return .stop (some (← readOperand D receiver vars o))
  | .jump label => return .jump label
  | .branch cond negated label => do
    match ← readOperand D receiver vars cond with
    | .bool b => return if b = negated then .next vars else .jump label
    | _ => .error .stuck
  | .label _ => return .next vars
  | .noop o => do
    let _ ← readOperand D receiver vars o
    return .next vars

end Instructions

/-! ## Execution -/

/-- The place of a label. -/
def labelIndex? (code : List Instr) (name : String) : Option Nat :=
  code.findIdx? fun i => i.label? == some name

/-- Where each label is set once, it is found where it is set. -/
theorem findIdx?_of_nodup {α : Type} {label? : α → Option String} {code : List α}
    (h : (code.filterMap label?).Nodup) {place : Nat} {a : α} (hplace : code[place]? = some a)
    {name : String} (ha : label? a = some name) :
    (code.findIdx? fun b => label? b == some name) = some place := by
  induction code generalizing place with
  | nil => simp at hplace
  | cons b code ih =>
    rw [List.findIdx?_cons]
    cases place with
    | zero =>
      rw [List.getElem?_cons_zero, Option.some.injEq] at hplace
      rw [hplace, ha, if_pos (by simp)]
    | succ place =>
      rw [List.getElem?_cons_succ] at hplace
      have hlater : name ∈ code.filterMap label? :=
        List.mem_filterMap.mpr ⟨a, List.mem_of_getElem? hplace, ha⟩
      cases hb : label? b with
      | none =>
        rw [List.filterMap_cons_none hb] at h
        rw [if_neg (by simp), ih h hplace, Option.map_some]
      | some other =>
        rw [List.filterMap_cons_some hb] at h
        have hne : other ≠ name := fun heq => (List.nodup_cons.mp h).1 (heq ▸ hlater)
        rw [if_neg (by simpa using hne), ih (List.nodup_cons.mp h).2 hplace, Option.map_some]

/-- **Where each label is set once, a jump leads to where it is set.** -/
theorem labelIndex?_of_nodup {code : List Instr} (h : (labelsOf code).Nodup) {place : Nat}
    {name : String} (hplace : code[place]? = some (.label name)) :
    labelIndex? code name = some place :=
  findIdx?_of_nodup h hplace rfl

/-- An execution at some moment. -/
inductive Status (σ : Type) where
  | running (place : Nat) (state : State σ)
  | ended (completion : Completion) (state : State σ)

/-- The code of a method at work, in a world. -/
structure Setting (σ : Type) where
  world : World σ
  receiver : Reference
  code : List Instr

namespace Status

variable {σ : Type}

/-- The variables and the world. -/
def state : Status σ → State σ
  | running _ s => s
  | ended _ s => s

/-- After an instruction has said what it does. -/
def afterMove (S : Setting σ) (place : Nat) (s : State σ) : Except Fault Move → Status σ
  | .error f => ended (.faulted f) s
  | .ok (.next vars) => running (place + 1) { s with vars }
  | .ok (.jump name) =>
    match labelIndex? S.code name with
    | some target => running target s
    | none => ended (.faulted .stuck) s
  | .ok (.stop result) => ended (.returned result) s
  | .ok (.ask r resume) =>
    match S.world.ask r s.outside with
    | (.error f, o) => ended (.faulted f) { s with outside := o }
    | (.ok answer, o) =>
      match resume answer with
      | .error f => ended (.faulted f) { s with outside := o }
      | .ok vars => running (place + 1) ⟨vars, o⟩

/-- One instruction.  Nothing comes after the last one: a method that gets there has failed to
return. -/
def step (S : Setting σ) : Status σ → Status σ
  | ended c s => ended c s
  | running place s =>
    match S.code[place]? with
    | none => ended (.faulted .noReturn) s
    | some i => afterMove S place s (moveOf .free S.receiver s.vars i)

/-- A number of instructions. -/
def run (S : Setting σ) : Nat → Status σ → Status σ
  | 0, status => status
  | n + 1, status => run S n (step S status)

theorem run_add (S : Setting σ) (m n : Nat) (status : Status σ) :
    run S (m + n) status = run S n (run S m status) := by
  induction m generalizing status with
  | zero => rw [Nat.zero_add, run]
  | succ m ih => rw [Nat.succ_add, run, run, ih]

@[simp] theorem run_ended (S : Setting σ) (n : Nat) (c : Completion) (s : State σ) :
    run S n (ended c s) = ended c s := by
  induction n with
  | zero => rfl
  | succ n ih => exact ih

end Status

/-! ## Pieces of code -/

/-- The code has a piece at a place. -/
def CodeAt {α : Type} (code : List α) (place : Nat) (part : List α) : Prop :=
  ∀ i, i < part.length → code[place + i]? = part[i]?

namespace CodeAt

variable {α : Type} {code part first second : List α} {place : Nat} {i : α}

/-- All of it. -/
theorem whole (code : List α) : CodeAt code 0 code := fun i _ => by
  rw [Nat.zero_add]

theorem head (h : CodeAt code place (i :: part)) : code[place]? = some i := by
  simpa using h 0 (by simp)

theorem left (h : CodeAt code place (first ++ second)) : CodeAt code place first := by
  intro i hi
  rw [h i (by rw [List.length_append]; omega), List.getElem?_append_left hi]

theorem right (h : CodeAt code place (first ++ second)) :
    CodeAt code (place + first.length) second := by
  intro i hi
  rw [Nat.add_assoc, h (first.length + i) (by rw [List.length_append]; omega),
    List.getElem?_append_right (Nat.le_add_right ..), Nat.add_sub_cancel_left]

theorem tail (h : CodeAt code place (i :: part)) : CodeAt code (place + 1) part := by
  rw [← List.singleton_append] at h
  exact h.right

end CodeAt

/-! ## Traces only grow -/

/-- To ask adds to the trace. -/
theorem World.trace_ask {σ : Type} (w : World σ) (r : Request Value) (o : Outside σ) :
    o.trace <+: (w.ask r o).2.trace := by
  unfold World.ask
  rcases w.reply o.state r with ⟨_ | _, state⟩ <;> exact List.prefix_append ..

namespace Status

variable {σ : Type}

theorem trace_step (S : Setting σ) (status : Status σ) :
    status.state.outside.trace <+: (step S status).state.outside.trace := by
  cases status with
  | ended c s => exact List.prefix_refl _
  | running place s =>
    rw [step]
    split
    · exact List.prefix_refl _
    · rename_i i _
      match moveOf .free S.receiver s.vars i with
      | .error _ | .ok (.next _) | .ok (.stop _) => exact List.prefix_refl _
      | .ok (.jump name) =>
        rw [afterMove]
        split <;> exact List.prefix_refl _
      | .ok (.ask r resume) =>
        have hask := S.world.trace_ask r s.outside
        rw [afterMove]
        generalize S.world.ask r s.outside = reply at hask ⊢
        obtain ⟨_ | answer, o⟩ := reply
        · exact hask
        · dsimp only
          split <;> exact hask

theorem trace_run (S : Setting σ) (n : Nat) (status : Status σ) :
    status.state.outside.trace <+: (run S n status).state.outside.trace := by
  induction n generalizing status with
  | zero => exact List.prefix_refl _
  | succ n ih => exact (trace_step S status).trans (ih _)

end Status

/-! ## Comparing a tree with code -/

/-- The variables among some names. -/
def Vars.restrict (vars : Vars) (names : List String) : Vars := fun x =>
  if x ∈ names then vars x else none

theorem Vars.restrict_congr {vars vars' : Vars} {names : List String}
    (h : ∀ x ∈ names, vars' x = vars x) : vars'.restrict names = vars.restrict names := by
  funext x
  unfold Vars.restrict
  split
  · rename_i hx
    exact h x hx
  · rfl

/-- What is seen of an execution that has ended: how it ended, what its variables hold, and the
world with everything that was exchanged. -/
structure Outcome (σ : Type) where
  completion : Completion
  vars : Vars
  outside : Outside σ

/-- The outcome of executing a tree, if it was not cut short. -/
def outcome? {σ : Type} (names : List String) : Completion × State σ → Option (Outcome σ)
  | (.unfinished, _) => none
  | (c, s) => some ⟨c, s.vars.restrict names, s.outside⟩

/-- The outcome of executing code, if it has ended. -/
def Status.outcome? {σ : Type} (names : List String) : Status σ → Option (Outcome σ)
  | running _ _ => none
  | ended c s => some ⟨c, s.vars.restrict names, s.outside⟩

/-- A tree and code cannot be told apart: they have the same outcome or both have none, which is to
run for ever, and the same exchanges happen sooner or later.  The tree is executed with a number of
tests that its loops may make, the code for a number of instructions. -/
structure SameBehaviour {σ : Type} (names : List String) (tree : Nat → Completion × State σ)
    (code : Nat → Status σ) : Prop where
  outcome : ∀ result, (∃ limit, outcome? names (tree limit) = some result) ↔
    ∃ n, (code n).outcome? names = some result
  trace : ∀ events, (∃ limit, events <+: (tree limit).2.outside.trace) ↔
    ∃ n, events <+: (code n).state.outside.trace

/-- Code follows a tree: it ends as the tree does, and where a loop of the tree was cut short after
`limit` tests, the code is still running after `limit` instructions or more. -/
def Follows {σ : Type} (names : List String) (S : Setting σ) (start : Status σ)
    (limit : Nat) : Completion × State σ → Prop
  | (.unfinished, s) => ∃ n, limit ≤ n ∧ ∃ place s', Status.run S n start = .running place s' ∧
      s'.outside = s.outside
  | (c, s) => ∃ n s', Status.run S n start = .ended c s' ∧ s'.outside = s.outside ∧
      s'.vars.restrict names = s.vars.restrict names

section Comparison

variable {σ : Type} {names : List String} {S : Setting σ} {start : Status σ}
  {tree : Nat → Completion × State σ}

/-- What a tree that code follows shows, the code shows. -/
theorem Follows.outcome {limit : Nat} {r : Completion × State σ}
    (h : Follows names S start limit r) {result : Outcome σ} (hr : outcome? names r = some result) :
    ∃ n, (Status.run S n start).outcome? names = some result := by
  obtain ⟨c, s⟩ := r
  cases c with
  | unfinished => exact absurd hr (by simp [outcome?])
  | normal | returned _ | faulted _ =>
    obtain ⟨n, s', hrun, hout, hvars⟩ := h
    refine ⟨n, ?_⟩
    rw [hrun, Status.outcome?, hout, hvars]
    exact hr

/-- A tree that code follows was cut short, or the code has ended with its outcome. -/
theorem Follows.cases {limit : Nat} {r : Completion × State σ}
    (h : Follows names S start limit r) :
    (∃ n, limit ≤ n ∧ ∃ place s, Status.run S n start = .running place s) ∨
      ∃ result, outcome? names r = some result := by
  obtain ⟨c, s⟩ := r
  cases c with
  | unfinished =>
    obtain ⟨n, hn, place, s', hrun, _⟩ := h
    exact .inl ⟨n, hn, place, s', hrun⟩
  | normal | returned _ | faulted _ => exact .inr ⟨_, rfl⟩

theorem Follows.trace {limit : Nat} {r : Completion × State σ}
    (h : Follows names S start limit r) :
    ∃ n, (Status.run S n start).state.outside = r.2.outside ∧
      (limit ≤ n ∨ ∃ c s, Status.run S n start = .ended c s) := by
  obtain ⟨c, s⟩ := r
  cases c with
  | unfinished =>
    obtain ⟨n, hn, place, s', hrun, hout⟩ := h
    exact ⟨n, by rw [hrun]; exact hout, .inl hn⟩
  | normal | returned _ | faulted _ =>
    obtain ⟨n, s', hrun, hout, _⟩ := h
    exact ⟨n, by rw [hrun]; exact hout, .inr ⟨_, _, hrun⟩⟩

theorem Status.outcome?_eq_some {status : Status σ} {result : Outcome σ}
    (h : status.outcome? names = some result) : ∃ c s, status = .ended c s := by
  cases status with
  | running _ _ => exact absurd h (by simp [Status.outcome?])
  | ended c s => exact ⟨c, s, rfl⟩

/-- An execution that has ended stays as it is. -/
theorem Status.run_of_ended {m n : Nat} {c : Completion} {s : State σ}
    (h : Status.run S m start = .ended c s) (hmn : m ≤ n) : Status.run S n start = .ended c s := by
  obtain ⟨k, rfl⟩ := Nat.exists_eq_add_of_le hmn
  rw [Status.run_add, h, Status.run_ended]

/-- **Code that follows a tree for every limit behaves like it.** -/
theorem sameBehaviour_of_follows (h : ∀ limit, Follows names S start limit (tree limit)) :
    SameBehaviour names tree fun n => Status.run S n start := by
  refine ⟨fun result => ⟨fun ⟨limit, hr⟩ => (h limit).outcome hr, fun ⟨n, hn⟩ => ?_⟩,
    fun events => ⟨fun ⟨limit, hpre⟩ => ?_, fun ⟨n, hpre⟩ => ?_⟩⟩
  · -- The code has ended after `n` instructions, so the tree is not cut short at the limit `n`.
    obtain ⟨c, s, hend⟩ := Status.outcome?_eq_some hn
    rcases (h n).cases with ⟨m, hnm, place, s', hrun⟩ | ⟨result', hr⟩
    · rw [Status.run_of_ended hend hnm] at hrun
      exact absurd hrun (by simp)
    · obtain ⟨m, hm⟩ := (h n).outcome hr
      obtain ⟨c', s', hend'⟩ := Status.outcome?_eq_some hm
      -- Both ends are the end of one execution.
      have hsame : Status.run S m start = Status.run S n start := by
        rcases Nat.le_total m n with hle | hle
        · rw [Status.run_of_ended hend' hle, hend']
        · rw [Status.run_of_ended hend hle, hend]
      rw [hsame, hn] at hm
      exact ⟨n, hr.trans hm.symm⟩
  · obtain ⟨n, hout, _⟩ := (h limit).trace
    exact ⟨n, by rw [hout]; exact hpre⟩
  · obtain ⟨m, hout, hm⟩ := (h n).trace
    refine ⟨n, hpre.trans ?_⟩
    rw [← hout]
    rcases Nat.le_total n m with hle | hle
    · obtain ⟨k, rfl⟩ := Nat.exists_eq_add_of_le hle
      rw [Status.run_add]
      exact Status.trace_run S k _
    · rcases hm with hnm | ⟨c, s, hend⟩
      · obtain rfl := Nat.le_antisymm hle hnm
        exact List.prefix_refl _
      · have hsame := (Status.run_of_ended hend hle).trans hend.symm
        exact hsame ▸ List.prefix_refl _

end Comparison

end Meaning
end ClassCompiler
