import ClassCompiler.Proofs.Meaning.Code
import ClassCompiler.Proofs.Meaning.Turn

/-!
# Code that takes turns

Three-address code as a system that goes on by itself or asks, without a world.  Its types matter
here: a variable can be read only while it holds a value of the family of its type, where integers
and truth values are one family and references the other.  That is what code for a machine with
typed instructions can rely on.

The types only forbid.  Where they let an instruction through, it does what it does without them, so
what is shown of the turns of code holds of its execution in a world.

* `Discipline.byFamily`: the two families.
* `Point.turn`: the turn of the code at an instruction.
* `moveOf_within`: an instruction with types and without.
* `Point.turn_isStep`: turns and steps in a world.
-/

namespace ClassCompiler
namespace Meaning

open ThreeAddress

/-- Integers and truth values may be where a type is one of these, and references where it is one of
those.  Nothing at all belongs to the type of no values. -/
def Discipline.byFamily : Discipline
  | type, none => type == .void
  | type, some (.int _) => type == .int || type == .bool
  | type, some (.bool _) => type == .int || type == .bool
  | type, some (.ref _) => type.isReference
  | _, some (.classRef _) => false

/-- Code at some moment. -/
structure Point where
  place : Nat
  vars : Vars

namespace Point

/-- After an instruction has said what it does.  A question goes with the instruction it is from. -/
def afterMove (code : List Instr) (p : Point) (i : Instr) :
    Except Fault Move → Turn Point (Instr × Request Value) (Option Value)
  | .error .divisionByZero => .trap
  | .error _ => .stuck
  | .ok (.next vars) => .silent ⟨p.place + 1, vars⟩
  | .ok (.jump name) =>
    match labelIndex? code name with
    | some target => .silent ⟨target, p.vars⟩
    | none => .stuck
  | .ok (.stop result) => .stop result
  | .ok (.ask r resume) => .ask (i, r) fun answer =>
    match resume answer with
    | .ok vars => some ⟨p.place + 1, vars⟩
    | .error _ => none

/-- The turn of code that runs on an object. -/
def turn (receiver : Reference) (code : List Instr) (p : Point) :
    Turn Point (Instr × Request Value) (Option Value) :=
  match code[p.place]? with
  | none => .over
  | some i => p.afterMove code i (moveOf .byFamily receiver p.vars i)

end Point

/-! ## Faults

Apart from operators, what fails is stuck. -/

/-- If it fails, it is stuck. -/
def FailsStuck {α : Type} (x : Except Fault α) : Prop :=
  ∀ e, x = .error e → e = .stuck

namespace FailsStuck

variable {α β : Type}

theorem ok (a : α) : FailsStuck (.ok a) := fun _ h => nomatch h

theorem stuck : FailsStuck (.error .stuck : Except Fault α) := fun _ h => (Except.error.inj h).symm

theorem bind {x : Except Fault α} {g : α → Except Fault β} (hx : FailsStuck x)
    (hg : ∀ a, FailsStuck (g a)) : FailsStuck (x >>= g) := by
  intro e h
  cases x with
  | error e' => exact hx e (Except.error.inj h ▸ rfl)
  | ok a => exact hg a e h

end FailsStuck

section

variable (D : Discipline) (receiver : Reference) (vars : Vars)

theorem Discipline.check_failsStuck (type : ValueType) (value : Option Value) :
    FailsStuck (D.check type value) := by
  unfold Discipline.check
  split
  · exact .ok ()
  · exact .stuck

theorem readVar_failsStuck (x : Var) : FailsStuck (readVar D vars x) := by
  refine .bind ?_ fun v => .bind (D.check_failsStuck x.type (some v)) fun _ => .ok v
  unfold Vars.read
  split
  · exact .ok _
  · exact .stuck

theorem readOperand_failsStuck (o : Operand) : FailsStuck (readOperand D receiver vars o) := by
  cases o with
  | var x => exact readVar_failsStuck D vars x
  | _ => exact .ok _

theorem readOperands_failsStuck (os : List Operand) :
    FailsStuck (readOperands D receiver vars os) := by
  induction os with
  | nil => exact .ok []
  | cons o os ih =>
    exact .bind (readOperand_failsStuck D receiver vars o) fun _ => .bind ih fun _ => .ok _

theorem checkArgs_failsStuck (types : List ValueType) (values : List Value) :
    FailsStuck (checkArgs D types values) := by
  induction types generalizing values with
  | nil => exact .ok ()
  | cons type types ih =>
    cases values with
    | nil => exact .ok ()
    | cons value values =>
      exact .bind (D.check_failsStuck type (some value)) fun _ => ih values

theorem callRequest_failsStuck (c : Call) : FailsStuck (callRequest D receiver vars c) := by
  refine .bind (readOperand_failsStuck D receiver vars c.target) fun target =>
    .bind (readOperands_failsStuck D receiver vars c.args) fun args =>
      .bind (checkArgs_failsStuck D c.params args) fun _ => ?_
  cases target with
  | ref _ | classRef _ => exact .ok _
  | int _ | bool _ => exact .stuck

end

/-! ## What types forbid

With types the code is stuck in more places, and everywhere else it does the same. -/

/-- The first is stuck, or both come to the same up to a relation. -/
def Within {α : Type} (R : α → α → Prop) : Except Fault α → Except Fault α → Prop
  | .error e, y => e = .stuck ∨ y = .error e
  | .ok a, y => ∃ b, y = .ok b ∧ R a b

namespace Within

variable {α β : Type} {R : β → β → Prop}

theorem refl (x : Except Fault α) : Within Eq x x := by
  cases x with
  | error e => exact .inr rfl
  | ok a => exact ⟨a, rfl, rfl⟩

theorem bind {x y : Except Fault α} {g g' : α → Except Fault β} (hx : Within Eq x y)
    (hg : ∀ a, Within R (g a) (g' a)) : Within R (x >>= g) (y >>= g') := by
  cases x with
  | error e =>
    rcases hx with hstuck | rfl
    · exact .inl hstuck
    · exact .inr rfl
  | ok a =>
    obtain ⟨_, rfl, rfl⟩ := hx
    exact hg a

end Within

section

variable (D : Discipline) (receiver : Reference) (vars : Vars)

theorem Discipline.check_within (type : ValueType) (value : Option Value) :
    Within Eq (D.check type value) (free.check type value) := by
  unfold check
  split
  · exact ⟨(), rfl, rfl⟩
  · exact .inl rfl

theorem readVar_within (x : Var) : Within Eq (readVar D vars x) (readVar .free vars x) :=
  .bind (.refl _) fun v => .bind (D.check_within x.type (some v)) fun _ => .refl _

theorem readOperand_within (o : Operand) :
    Within Eq (readOperand D receiver vars o) (readOperand .free receiver vars o) := by
  cases o with
  | var x => exact readVar_within D vars x
  | _ => exact .refl _

theorem readOperands_within (os : List Operand) :
    Within Eq (readOperands D receiver vars os) (readOperands .free receiver vars os) := by
  induction os with
  | nil => exact .refl _
  | cons o os ih =>
    exact .bind (readOperand_within D receiver vars o) fun _ => .bind ih fun _ => .refl _

theorem checkArgs_within (types : List ValueType) (values : List Value) :
    Within Eq (checkArgs D types values) (checkArgs .free types values) := by
  induction types generalizing values with
  | nil => exact .refl _
  | cons type types ih =>
    cases values with
    | nil => exact .refl _
    | cons value values => exact .bind (D.check_within type (some value)) fun _ => ih values

theorem callRequest_within (c : Call) :
    Within Eq (callRequest D receiver vars c) (callRequest .free receiver vars c) :=
  .bind (readOperand_within D receiver vars c.target) fun _ =>
    .bind (readOperands_within D receiver vars c.args) fun args =>
      .bind (checkArgs_within D c.params args) fun _ => .refl _

theorem compute_within (rhs : Rhs) :
    Within Eq (compute D receiver vars rhs) (compute .free receiver vars rhs) := by
  have hread := readOperand_within D receiver vars
  cases rhs with
  | operand o => exact .bind (hread o) fun _ => .refl _
  | binary op left right => exact .bind (hread left) fun _ => .bind (hread right) fun _ => .refl _
  | not o => exact .bind (hread o) fun _ => .refl _
  | call c => exact .bind (callRequest_within D receiver vars c) fun _ => .refl _
  | getField object field => exact .bind (hread object) fun _ => .refl _
  | arrayLength o => exact .bind (hread o) fun _ => .refl _
  | arrayLoad array index =>
    exact .bind (readVar_within D vars array) fun _ => .bind (hread index) fun _ => .refl _
  | newObject name => exact .refl _
  | newArray o => exact .bind (hread o) fun _ => .refl _

/-- The same move, where an answer that is taken leaves the same variables. -/
inductive Move.Within : Move → Move → Prop
  | same (move : Move) : Move.Within move move
  | ask {r : Request Value} {resume resume' : Option Value → Except Fault Vars}
    (h : ∀ answer vars, resume answer = .ok vars → resume' answer = .ok vars) :
    Move.Within (.ask r resume) (.ask r resume')

theorem Move.Within.of_ask {r : Request Value} {resume : Option Value → Except Fault Vars}
    {move : Move} (h : Move.Within (.ask r resume) move) :
    ∃ resume', move = .ask r resume' ∧
      ∀ answer vars, resume answer = .ok vars → resume' answer = .ok vars := by
  cases h with
  | same => exact ⟨resume, rfl, fun _ _ h => h⟩
  | ask h => exact ⟨_, rfl, h⟩

theorem Within.ok_of_ok {α : Type} {x y : Except Fault α} (h : Within Eq x y) {a : α}
    (hx : x = .ok a) : y = .ok a := by
  subst hx
  obtain ⟨_, rfl, rfl⟩ := h
  rfl

theorem Within.same {x y : Except Fault Move} (h : Within Eq x y) : Within Move.Within x y := by
  cases x with
  | error e => exact h
  | ok move =>
    obtain ⟨_, rfl, rfl⟩ := h
    exact ⟨move, rfl, .same move⟩

theorem assignVar_within (dest : Var) (value : Value) :
    Within Eq (assignVar D vars dest value) (assignVar .free vars dest value) :=
  .bind (D.check_within dest.type (some value)) fun _ => .refl _

theorem assignAnswer_within (dest : Var) (type : ValueType) (answer : Option Value) :
    Within Eq (assignAnswer D vars dest type answer) (assignAnswer .free vars dest type answer) :=
  .bind (D.check_within type answer) fun _ => .bind (.refl _) fun value =>
    assignVar_within D vars dest value

/-- **Types only forbid**: an instruction that they let through does what it does without them. -/
theorem moveOf_within (i : Instr) :
    Within Move.Within (moveOf D receiver vars i) (moveOf .free receiver vars i) := by
  have hread := readOperand_within D receiver vars
  cases i with
  | assign dest rhs =>
    refine .bind (compute_within D receiver vars rhs) fun computed => ?_
    cases computed with
    | value value => exact Within.same (.bind (assignVar_within D vars dest value) fun _ => .refl _)
    | ask r type =>
      exact ⟨_, rfl, .ask fun answer _ => (assignAnswer_within D vars dest type answer).ok_of_ok⟩
  | arrayStore array index value =>
    exact Within.same (.bind (readVar_within D vars array) fun _ => .bind (hread index) fun _ =>
      .bind (hread value) fun _ => .refl _)
  | call c =>
    refine .bind (callRequest_within D receiver vars c) fun r => ⟨_, rfl, .ask fun answer _ => ?_⟩
    exact (Within.bind (D.check_within c.result answer) fun _ => Within.refl _).ok_of_ok
  | putField object field value =>
    exact Within.same (.bind (hread object) fun _ => .bind (hread value) fun v =>
      .bind (D.check_within field.type (some v)) fun _ => .refl _)
  | ret value =>
    cases value with
    | none => exact Within.same (.refl _)
    | some o => exact Within.same (.bind (hread o) fun _ => .refl _)
  | jump _ => exact Within.same (.refl _)
  | branch cond negated target => exact Within.same (.bind (hread cond) fun _ => .refl _)
  | label _ => exact Within.same (.refl _)
  | noop o => exact Within.same (.bind (hread o) fun _ => .refl _)

end

/-- A step of an execution is a turn of the code, with the answer of the world. -/
def Turn.IsStep {σ : Type} (S : Setting σ) (p : Point) (o : Outside σ) :
    Turn Point (Instr × Request Value) (Option Value) → Prop
  | .silent p' => Status.step S (.running p.place ⟨p.vars, o⟩) = .running p'.place ⟨p'.vars, o⟩
  | .ask (_, r) resume => ∀ answer o' p', S.world.ask r o = (.ok answer, o') →
    resume answer = some p' →
      Status.step S (.running p.place ⟨p.vars, o⟩) = .running p'.place ⟨p'.vars, o'⟩
  | .stop result =>
    Status.step S (.running p.place ⟨p.vars, o⟩) = .ended (.returned result) ⟨p.vars, o⟩
  | .trap =>
    Status.step S (.running p.place ⟨p.vars, o⟩) =
      .ended (.faulted .divisionByZero) ⟨p.vars, o⟩
  | .over => Status.step S (.running p.place ⟨p.vars, o⟩) = .ended (.faulted .noReturn) ⟨p.vars, o⟩
  | .stuck => True

/-- **The turns of code are the steps of its execution**, in any world, where the types let them
through. -/
theorem Point.turn_isStep {σ : Type} (S : Setting σ) (p : Point) (o : Outside σ) :
    (p.turn S.receiver S.code).IsStep S p o := by
  unfold Point.turn
  cases hi : S.code[p.place]? with
  | none =>
    change Status.step S _ = _
    rw [Status.step, hi]
  | some i =>
    have hstep : Status.step S (.running p.place ⟨p.vars, o⟩) =
        Status.afterMove S p.place ⟨p.vars, o⟩ (moveOf .free S.receiver p.vars i) := by
      rw [Status.step, hi]
    have hwithin := moveOf_within .byFamily S.receiver p.vars i
    dsimp only
    cases hmove : moveOf .byFamily S.receiver p.vars i with
    | error fault =>
      rw [hmove] at hwithin
      cases fault with
      | divisionByZero =>
        rcases hwithin with hstuck | hfree
        · cases hstuck
        · rw [hfree] at hstep
          exact hstep
      | stuck | raised _ | noReturn => exact trivial
    | ok move =>
      rw [hmove] at hwithin
      obtain ⟨_, hfree, hsame⟩ := hwithin
      rw [hfree] at hstep
      cases move with
      | next vars | stop result =>
        cases hsame
        exact hstep
      | jump name =>
        cases hsame
        rw [Status.afterMove] at hstep
        rw [Point.afterMove]
        cases htarget : labelIndex? S.code name with
        | none => exact trivial
        | some target =>
          rw [htarget] at hstep
          exact hstep
      | ask r resume =>
        intro answer o' p' hask hp
        obtain ⟨resume', rfl, hresume⟩ := hsame.of_ask
        rw [Status.afterMove, hask] at hstep
        dsimp only at hp hstep
        split at hp
        · rename_i vars hvars
          cases Option.some.inj hp
          rw [hresume answer vars hvars] at hstep
          exact hstep
        · cases hp

end Meaning
end ClassCompiler
