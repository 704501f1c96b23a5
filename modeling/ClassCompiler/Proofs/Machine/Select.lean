import ClassCompiler.Machine.Select
import ClassCompiler.Proofs.Meaning.World

/-!
# The lines of instructions

What has to be true for an instruction to have lines, and what its lines are then, as a case
analysis.  Everything that is said about selected code goes through these cases.

* `SelectsRhs`, `selectRhs_cases`: right-hand sides.
* `selectCall_eq_ok`: calls.
* `Selects`, `select_cases`: instructions.
-/

namespace ClassCompiler
namespace Machine

open ThreeAddress
open Meaning (except_bind_eq_ok)

variable {T : ClassTable} {F : Frame} {k : Nat}

/-- The slot of a variable that has one. -/
theorem Frame.slot_eq_ok {v : Var} {index : Nat} (h : F.slot v = .ok index) :
    ∃ s, F.slots.get? v.name = some s ∧ s.index = index := by
  unfold Frame.slot at h
  split at h
  · exact ⟨_, ‹_›, Except.ok.inj h⟩
  · cases h

theorem push_var_eq_ok {v : Var} {op : Op} (h : push F (.var v) = .ok op) :
    ∃ index, F.slot v = .ok index ∧ op = loadSlot v.type index := by
  obtain ⟨index, hindex, h⟩ := except_bind_eq_ok.mp h
  exact ⟨index, hindex, (Except.ok.inj h).symm⟩

theorem push_var {v : Var} {index : Nat} (h : F.slot v = .ok index) :
    push F (.var v) = .ok (loadSlot v.type index) :=
  except_bind_eq_ok.mpr ⟨index, h, rfl⟩

theorem push_this_eq_ok {name : String} {op : Op} (h : push F (.this name) = .ok op) :
    F.method.isStatic = false ∧ op = .load .reference 0 := by
  unfold push at h
  dsimp only at h
  split at h
  · cases h
  · exact ⟨Bool.eq_false_iff.mpr ‹_›, (Except.ok.inj h).symm⟩

theorem pushAll_cons_eq_ok {o : Operand} {os : List Operand} {ops : List Op}
    (h : pushAll F (o :: os) = .ok ops) :
    ∃ op rest, push F o = .ok op ∧ pushAll F os = .ok rest ∧ ops = op :: rest := by
  obtain ⟨op, hop, h⟩ := except_bind_eq_ok.mp h
  obtain ⟨rest, hrest, h⟩ := except_bind_eq_ok.mp h
  exact ⟨op, rest, hop, hrest, (Except.ok.inj h).symm⟩

/-- The target of a call: a class that is not pushed, or a value that is. -/
inductive SelectsTarget (T : ClassTable) (F : Frame) (c : Call) :
    List Op → InvokeKind → String → Prop
  | static {name owner} (hkind : c.kind = .static) (htarget : c.target = .classRef name)
    (howner : qualify T name = .ok owner) : SelectsTarget T F c [] .static owner
  | virtual {op owner} (hkind : c.kind = .virtual) (hop : push F c.target = .ok op)
    (howner : ownerPath T c.target = .ok owner) : SelectsTarget T F c [op] .virtual owner

theorem selectTarget_cases {c : Call} {target : List Op} {kind : InvokeKind} {owner : String}
    (h : selectTarget T F c = .ok (target, kind, owner)) :
    SelectsTarget T F c target kind owner := by
  unfold selectTarget at h
  split at h
  · obtain ⟨path, hpath, h⟩ := except_bind_eq_ok.mp h
    cases Except.ok.inj h
    exact .static ‹_› ‹_› hpath
  · cases h
  · obtain ⟨op, hop, h⟩ := except_bind_eq_ok.mp h
    obtain ⟨path, hpath, h⟩ := except_bind_eq_ok.mp h
    cases Except.ok.inj h
    exact .virtual ‹_› hop hpath

/-- What a call is selected to. -/
theorem selectCall_eq_ok {c : Call} {ops : List Op} (h : selectCall T F c = .ok ops) :
    ∃ target kind owner args signature, SelectsTarget T F c target kind owner ∧
      c.params.length = c.args.length ∧ pushAll F c.args = .ok args ∧
      signatureOf T c.params c.result = .ok signature ∧
      ops = target ++ args ++ [.invoke kind owner c.method signature] := by
  obtain ⟨⟨target, kind, owner⟩, htarget, h⟩ := except_bind_eq_ok.mp h
  dsimp only at h
  split at h
  · cases h
  · rename_i hlength
    obtain ⟨args, hargs, h⟩ := except_bind_eq_ok.mp h
    obtain ⟨signature, hsignature, h⟩ := except_bind_eq_ok.mp h
    exact ⟨target, kind, owner, args, signature, selectTarget_cases htarget,
      Decidable.not_not.mp hlength, hargs, hsignature, (Except.ok.inj h).symm⟩

/-- The lines of a right-hand side. -/
inductive SelectsRhs (T : ClassTable) (F : Frame) (k : Nat) : Rhs → List (Line Op) → Prop
  | operand {o op} (h : push F o = .ok op) : SelectsRhs T F k (.operand o) (opLines [op])
  | binary {op left right l r} (hl : push F left = .ok l) (hr : push F right = .ok r) :
    SelectsRhs T F k (.binary op left right) (opLines [l, r] ++ binaryLines k op)
  | not {o op} (h : push F o = .ok op) :
    SelectsRhs T F k (.not o) (opLines [op, pushInt 1, .ixor])
  | call {c ops} (h : selectCall T F c = .ok ops) : SelectsRhs T F k (.call c) (opLines ops)
  | getField {object field op owner type} (h : push F object = .ok op)
    (howner : ownerPath T object = .ok owner) (htype : descriptorOf T field.type = .ok type) :
    SelectsRhs T F k (.getField object field) (opLines [op, .getfield owner field.name type])
  | arrayLength {o op} (h : push F o = .ok op) :
    SelectsRhs T F k (.arrayLength o) (opLines [op, .arraylength])
  | arrayLoad {array index slot op} (hslot : F.slot array = .ok slot)
    (h : push F index = .ok op) :
    SelectsRhs T F k (.arrayLoad array index) (opLines [loadSlot array.type slot, op, .iaload])
  | newObject {name path} (h : qualify T name = .ok path) :
    SelectsRhs T F k (.newObject name)
      (opLines [.new path, .dup, .invoke .special path "<init>" ⟨[], .void⟩])
  | newArray {o op} (h : push F o = .ok op) :
    SelectsRhs T F k (.newArray o) (opLines [op, .newarray])

theorem selectRhs_cases {rhs : Rhs} {lines : List (Line Op)}
    (h : selectRhs T F k rhs = .ok lines) : SelectsRhs T F k rhs lines := by
  cases rhs with
  | operand o =>
    obtain ⟨op, hop, h⟩ := except_bind_eq_ok.mp h
    cases Except.ok.inj h
    exact .operand hop
  | binary op left right =>
    obtain ⟨l, hl, h⟩ := except_bind_eq_ok.mp h
    obtain ⟨r, hr, h⟩ := except_bind_eq_ok.mp h
    cases Except.ok.inj h
    exact .binary hl hr
  | not o =>
    obtain ⟨op, hop, h⟩ := except_bind_eq_ok.mp h
    cases Except.ok.inj h
    exact .not hop
  | call c =>
    obtain ⟨ops, hops, h⟩ := except_bind_eq_ok.mp h
    cases Except.ok.inj h
    exact .call hops
  | getField object field =>
    obtain ⟨op, hop, h⟩ := except_bind_eq_ok.mp h
    obtain ⟨owner, howner, h⟩ := except_bind_eq_ok.mp h
    obtain ⟨type, htype, h⟩ := except_bind_eq_ok.mp h
    cases Except.ok.inj h
    exact .getField hop howner htype
  | arrayLength o =>
    obtain ⟨op, hop, h⟩ := except_bind_eq_ok.mp h
    cases Except.ok.inj h
    exact .arrayLength hop
  | arrayLoad array index =>
    obtain ⟨slot, hslot, h⟩ := except_bind_eq_ok.mp h
    obtain ⟨op, hop, h⟩ := except_bind_eq_ok.mp h
    cases Except.ok.inj h
    exact .arrayLoad hslot hop
  | newObject name =>
    obtain ⟨path, hpath, h⟩ := except_bind_eq_ok.mp h
    cases Except.ok.inj h
    exact .newObject hpath
  | newArray o =>
    obtain ⟨op, hop, h⟩ := except_bind_eq_ok.mp h
    cases Except.ok.inj h
    exact .newArray hop

/-- The lines of an instruction. -/
inductive Selects (T : ClassTable) (F : Frame) (k : Nat) : Instr → List (Line Op) → Prop
  | assign {dest rhs lines slot} (h : selectRhs T F k rhs = .ok lines)
    (hslot : F.slot dest = .ok slot) :
    Selects T F k (.assign dest rhs) (lines ++ opLines [storeSlot dest.type slot])
  | arrayStore {array index value slot i v} (hslot : F.slot array = .ok slot)
    (hi : push F index = .ok i) (hv : push F value = .ok v) :
    Selects T F k (.arrayStore array index value)
      (opLines [loadSlot array.type slot, i, v, .iastore])
  | call {c ops} (h : selectCall T F c = .ok ops) :
    Selects T F k (.call c) (opLines (if c.result = .void then ops else ops ++ [.pop]))
  | putField {object field value o v owner type} (ho : push F object = .ok o)
    (hv : push F value = .ok v) (howner : ownerPath T object = .ok owner)
    (htype : descriptorOf T field.type = .ok type) :
    Selects T F k (.putField object field value)
      (opLines [o, v, .putfield owner field.name type])
  | returnSome {value op} (h : push F value = .ok op) :
    Selects T F k (.ret (some value)) (opLines [op, returnOf value.type])
  | returnNone : Selects T F k (.ret none) (opLines [.ret])
  | jump {target} : Selects T F k (.jump target) (opLines [.goto target])
  | branch {cond negated target op} (h : push F cond = .ok op) :
    Selects T F k (.branch cond negated target)
      (opLines [op, if negated then .ifeq target else .ifne target])
  | label {name} : Selects T F k (.label name) [.label name]
  | noop {o} : Selects T F k (.noop o) []

/-- **What an instruction that is selected gives.** -/
theorem select_cases {i : Instr} {lines : List (Line Op)} (h : select T F k i = .ok lines) :
    Selects T F k i lines := by
  cases i with
  | assign dest rhs =>
    obtain ⟨own, hown, h⟩ := except_bind_eq_ok.mp h
    obtain ⟨slot, hslot, h⟩ := except_bind_eq_ok.mp h
    cases Except.ok.inj h
    exact .assign hown hslot
  | arrayStore array index value =>
    obtain ⟨slot, hslot, h⟩ := except_bind_eq_ok.mp h
    obtain ⟨i, hi, h⟩ := except_bind_eq_ok.mp h
    obtain ⟨v, hv, h⟩ := except_bind_eq_ok.mp h
    cases Except.ok.inj h
    exact .arrayStore hslot hi hv
  | call c =>
    obtain ⟨ops, hops, h⟩ := except_bind_eq_ok.mp h
    cases Except.ok.inj h
    exact .call hops
  | putField object field value =>
    obtain ⟨o, ho, h⟩ := except_bind_eq_ok.mp h
    obtain ⟨v, hv, h⟩ := except_bind_eq_ok.mp h
    obtain ⟨owner, howner, h⟩ := except_bind_eq_ok.mp h
    obtain ⟨type, htype, h⟩ := except_bind_eq_ok.mp h
    cases Except.ok.inj h
    exact .putField ho hv howner htype
  | ret value =>
    cases value with
    | none =>
      cases Except.ok.inj h
      exact .returnNone
    | some value =>
      obtain ⟨op, hop, h⟩ := except_bind_eq_ok.mp h
      cases Except.ok.inj h
      exact .returnSome hop
  | jump target =>
    cases Except.ok.inj h
    exact .jump
  | branch cond negated target =>
    obtain ⟨op, hop, h⟩ := except_bind_eq_ok.mp h
    cases Except.ok.inj h
    exact .branch hop
  | label name =>
    cases Except.ok.inj h
    exact .label
  | noop o =>
    cases Except.ok.inj h
    exact .noop

end Machine
end ClassCompiler
