import ClassCompiler.Machine.Instruction
import ClassCompiler.Machine.Listing
import ClassCompiler.Machine.Slots

/-!
# From three-address code to the machine

Each instruction of the three-address code becomes a short run of machine instructions that starts
and ends with an empty stack: the operands are pushed, the operation takes them, and an assignment
ends with a store to the slot of its destination.

* `Frame`: a method with its slots, checked to have every label once and every jump a label.
* `select`: the lines of one instruction.
* `Frame.listing`: the lines of the method.
-/

namespace ClassCompiler
namespace Machine

open ThreeAddress

/-! ## Frames -/

/-- A method with its slots and labels. -/
structure Frame where
  method : Method
  slots : SlotTable
  /-- Where the labels are set, in order. -/
  labels : List (String × Nat)
  /-- The number of slots that the method announces. -/
  limit : Nat

/-- The labels set from the `i`-th instruction on, after those known already. -/
def collectLabels (method : String) (i : Nat) (known : List (String × Nat)) :
    List Instr → Except Error (List (String × Nat))
  | [] => .ok known
  | c :: cs =>
    match c.label? with
    | none => collectLabels method (i + 1) known cs
    | some name =>
      if (known.lookup name).isSome then .error (.malformedCode method (.repeatedLabel name))
      else collectLabels method (i + 1) (known ++ [(name, i)]) cs

/-- Every jump has a label to go to. -/
def checkJumps (method : String) (labels : List (String × Nat)) : List Instr → Except Error Unit
  | [] => .ok ()
  | c :: cs =>
    match c.target? with
    | none => checkJumps method labels cs
    | some name =>
      if (labels.lookup name).isSome then checkJumps method labels cs
      else .error (.malformedCode method (.undefinedLabel name))

namespace Frame

/-- The frame of a method that announces at least `budget` slots. -/
def build (budget : Nat) (m : Method) : Except Error Frame := do
  let slots ← allocate m
  let labels ← collectLabels m.name 0 [] m.code
  checkJumps m.name labels m.code
  return { method := m, slots, labels, limit := slotLimit budget slots }

/-- The error that something is wrong with the code of the method. -/
def fault {α : Type} (F : Frame) (f : CodeFault) : Except Error α :=
  .error (.malformedCode F.method.name f)

/-- The slot of a variable. -/
def slot (F : Frame) (v : Var) : Except Error Nat :=
  match F.slots.get? v.name with
  | some s => .ok s.index
  | none => F.fault (.noSlot v.name)

end Frame

/-! ## Selection -/

/-- The instruction that pushes an operand. -/
def push (F : Frame) : Operand → Except Error Op
  | .int value => .ok (pushInt value)
  | .bool value => .ok (pushBool value)
  | .string value => .ok (.ldcString value)
  | .var v => do return loadSlot v.type (← F.slot v)
  | .this _ => if F.method.isStatic then F.fault .thisInStaticMethod else .ok (.load .reference 0)
  | .classRef name => F.fault (.classAsValue name)

/-- The instructions that push operands, one after another. -/
def pushAll (F : Frame) : List Operand → Except Error (List Op)
  | [] => .ok []
  | o :: os => do
    let op ← push F o
    let ops ← pushAll F os
    return op :: ops

/-- A comparison: a jump over two pushes, with the labels of number `k`. -/
def comparisonLines (k : Nat) (jump : String → Op) : List (Line Op) :=
  [.op (jump (trueLabel k)), .op (pushBool false), .op (.goto (endLabel k)), .label (trueLabel k),
    .op (pushBool true), .label (endLabel k)]

/-- The lines that replace two operands by the result of an operation. -/
def binaryLines (k : Nat) : BinaryOp → List (Line Op)
  | .add => [.op .iadd]
  | .sub => [.op .isub]
  | .mul => [.op .imul]
  | .div => [.op .idiv]
  | .and => [.op .iand]
  | .or => [.op .ior]
  | .lt => comparisonLines k .ifIcmplt
  | .gt => comparisonLines k .ifIcmpgt

/-- The target of a call, if it is pushed, with the kind of the call and the class it goes to. -/
def selectTarget (T : ClassTable) (F : Frame) (c : Call) :
    Except Error (List Op × InvokeKind × String) :=
  match c.kind, c.target with
  | .static, .classRef name => do return ([], .static, ← qualify T name)
  | .static, other => F.fault (.staticCallThroughValue other)
  | .virtual, target => do
    let op ← push F target
    return ([op], .virtual, ← ownerPath T target)

/-- The instructions of a call. -/
def selectCall (T : ClassTable) (F : Frame) (c : Call) : Except Error (List Op) := do
  let (target, kind, owner) ← selectTarget T F c
  if c.params.length ≠ c.args.length then
    F.fault (.argumentCount c.method c.args.length c.params.length)
  else
    let args ← pushAll F c.args
    let signature ← signatureOf T c.params c.result
    return target ++ args ++ [.invoke kind owner c.method signature]

/-- Instructions as lines. -/
def opLines (ops : List Op) : List (Line Op) :=
  ops.map Line.op

/-- The lines that push the value of a right-hand side. -/
def selectRhs (T : ClassTable) (F : Frame) (k : Nat) : Rhs → Except Error (List (Line Op))
  | .operand value => do return opLines [← push F value]
  | .binary op left right => do
    let l ← push F left
    let r ← push F right
    return opLines [l, r] ++ binaryLines k op
  | .not value => do return opLines [← push F value, pushInt 1, .ixor]
  | .call c => do return opLines (← selectCall T F c)
  | .getField object field => do
    let o ← push F object
    let owner ← ownerPath T object
    let type ← descriptorOf T field.type
    return opLines [o, .getfield owner field.name type]
  | .arrayLength array => do return opLines [← push F array, .arraylength]
  | .arrayLoad array index => do
    let slot ← F.slot array
    let i ← push F index
    return opLines [loadSlot array.type slot, i, .iaload]
  | .newObject name => do
    let path ← qualify T name
    return opLines [.new path, .dup, .invoke .special path "<init>" ⟨[], .void⟩]
  | .newArray length => do return opLines [← push F length, .newarray]

/-- The lines of an instruction whose comparison, if it has one, has number `k`. -/
def select (T : ClassTable) (F : Frame) (k : Nat) : Instr → Except Error (List (Line Op))
  | .assign dest rhs => do
    let lines ← selectRhs T F k rhs
    let slot ← F.slot dest
    return lines ++ opLines [storeSlot dest.type slot]
  | .arrayStore array index value => do
    let slot ← F.slot array
    let i ← push F index
    let v ← push F value
    return opLines [loadSlot array.type slot, i, v, .iastore]
  | .call c => do
    let ops ← selectCall T F c
    return opLines (if c.result = .void then ops else ops ++ [.pop])
  | .putField object field value => do
    let o ← push F object
    let v ← push F value
    let owner ← ownerPath T object
    let type ← descriptorOf T field.type
    return opLines [o, v, .putfield owner field.name type]
  | .ret (some value) => do return opLines [← push F value, returnOf value.type]
  | .ret none => .ok (opLines [.ret])
  | .jump target => .ok (opLines [.goto target])
  | .branch cond negated target => do
    return opLines [← push F cond, if negated then .ifeq target else .ifne target]
  | .label name => .ok [.label name]
  | .noop _ => .ok []

/-- The number of comparisons in the lines of an instruction. -/
def comparisonsOf : Instr → Nat
  | .assign _ (.binary op _ _) => if op.isComparison then 1 else 0
  | _ => 0

/-- The lines of instructions, where the next comparison has number `k`. -/
def selectAll (T : ClassTable) (F : Frame) (k : Nat) : List Instr → Except Error (List (Line Op))
  | [] => .ok []
  | i :: is => do
    let lines ← select T F k i
    let rest ← selectAll T F (k + comparisonsOf i) is
    return lines ++ rest

/-- The lines of the method of a frame. -/
def Frame.listing (T : ClassTable) (F : Frame) : Except Error (Listing Op) := do
  let lines ← selectAll T F 0 F.method.code
  return { lines, comparisons := F.method.code.foldl (fun k i => k + comparisonsOf i) 0 }

end Machine
end ClassCompiler
