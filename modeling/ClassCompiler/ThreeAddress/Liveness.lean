import ClassCompiler.Error
import Std.Data.ExtTreeSet

/-!
# Live variables

A variable is live before an instruction if some path from there reads it before it is assigned.
The sets are the least solution of

    in n  = uses n ∪ (out n \ defs n)
    out n = the union of in s over the successors s of n

and are computed from empty sets by sweeps from the last instruction to the first, until the
equations hold.  Constants, the receiver and class names are no variables, and fields live outside
the frame.
-/

namespace ClassCompiler
namespace ThreeAddress

/-- The name that an operand reads. -/
def Operand.uses : Operand → List String
  | .var v => [v.name]
  | _ => []

/-- The names that a call reads. -/
def Call.uses (c : Call) : List String :=
  c.target.uses ++ c.args.flatMap Operand.uses

/-- The names that a right-hand side reads. -/
def Rhs.uses : Rhs → List String
  | .operand value => value.uses
  | .binary _ left right => left.uses ++ right.uses
  | .not value => value.uses
  | .call c => c.uses
  | .getField object _ => object.uses
  | .arrayLength array => array.uses
  | .arrayLoad array index => array.name :: index.uses
  | .newObject _ => []
  | .newArray length => length.uses

/-- The names that an instruction reads.  Storing an element reads the array. -/
def Instr.uses : Instr → List String
  | .assign _ rhs => rhs.uses
  | .arrayStore array index value => array.name :: (index.uses ++ value.uses)
  | .call c => c.uses
  | .putField object _ value => object.uses ++ value.uses
  | .ret (some value) => value.uses
  | .ret none => []
  | .jump _ => []
  | .branch cond _ _ => cond.uses
  | .label _ => []
  | .noop value => value.uses

/-- The names that an instruction assigns. -/
def Instr.defs : Instr → List String
  | .assign dest _ => [dest.name]
  | _ => []

/-! ## Control flow -/

/-- The last place where a label is set, when the code starts at `i`. -/
def labelIndex? (name : String) (i : Nat) : List Instr → Option Nat
  | [] => none
  | c :: cs =>
    match labelIndex? name (i + 1) cs with
    | some j => some j
    | none => if c.label? = some name then some i else none

/-- The instructions that may run after the one at `i`: the next one, then the target of a jump
unless it is the same. -/
def successors (m : Method) (i : Nat) (c : Instr) : Except Error (List Nat) :=
  let next := if !c.isTerminator && i + 1 < m.code.length then [i + 1] else []
  match c.target? with
  | none => .ok next
  | some name =>
    match labelIndex? name 0 m.code with
    | none => .error (.malformedCode m.name (.undefinedLabel name))
    | some j => .ok (if next.contains j then next else next ++ [j])

/-- The successors of the instructions from `i` on. -/
def successorsFrom (m : Method) (i : Nat) : List Instr → Except Error (List (List Nat))
  | [] => .ok []
  | c :: cs => do
    let succ ← successors m i c
    let rest ← successorsFrom m (i + 1) cs
    return succ :: rest

/-! ## The equations -/

/-- A set of names. -/
abbrev Names := Std.ExtTreeSet String

/-- An instruction as the equations see it. -/
structure FlowNode where
  uses : Names
  defs : Names
  succ : List Nat

/-- The instructions of a method as the equations see them. -/
def flowNodes (m : Method) : Except Error (Array FlowNode) := do
  let succs ← successorsFrom m 0 m.code
  return ((m.code.zip succs).map fun p =>
    { uses := .ofList p.1.uses, defs := .ofList p.1.defs, succ := p.2 }).toArray

/-- The names live after an instruction, when `live` are those live before each. -/
def liveOut (live : Array Names) (n : FlowNode) : Names :=
  n.succ.foldl (fun names s => names ∪ live.getD s ∅) ∅

/-- The names live before an instruction, when `live` are those live before each. -/
def liveIn (live : Array Names) (n : FlowNode) : Names :=
  n.uses ∪ (liveOut live n \ n.defs)

/-- All equations hold. -/
def isSolution (nodes : Array FlowNode) (live : Array Names) : Bool :=
  (List.range nodes.size).all fun i =>
    match nodes[i]? with
    | some n => liveIn live n == live.getD i ∅
    | none => true

/-- One sweep from the last instruction to the first. -/
def sweep (nodes : Array FlowNode) (live : Array Names) : Array Names :=
  (List.range nodes.size).foldr (fun i live =>
    match nodes[i]? with
    | some n => live.setIfInBounds i (liveIn live n)
    | none => live) live

/-- Sweeps until the equations hold.  It comes to the same to keep the sets after the instructions as
well and to go on until a sweep changes no set (`Method.liveness_loops`). -/
def sweeps (nodes : Array FlowNode) : Nat → Array Names → Array Names
  | 0, live => live
  | fuel + 1, live =>
    if isSolution nodes live then live else sweeps nodes fuel (sweep nodes live)

/-- Each sweep that is needed adds a name that is read somewhere to the set of an instruction, so
this many are enough. -/
def sweepLimit (nodes : Array FlowNode) : Nat :=
  nodes.size * nodes.toList.foldl (fun total n => total + n.uses.size) 0

/-- What is known about the instructions of a method. -/
structure Liveness where
  nodes : Array FlowNode
  live : Array Names

namespace Liveness

/-- The names that are live before the instruction at a place. -/
def before (L : Liveness) (i : Nat) : Names :=
  L.live.getD i ∅

/-- The names that are live after the instruction at a place, by those before the next ones. -/
def after (L : Liveness) (i : Nat) : Names :=
  (L.nodes[i]?.map (liveOut L.live)).getD ∅

end Liveness

/-- The live variables of a method.  Fails if a jump goes nowhere. -/
def Method.liveness (m : Method) : Except Error Liveness := do
  let nodes ← flowNodes m
  return ⟨nodes, sweeps nodes (sweepLimit nodes) (Array.replicate nodes.size ∅)⟩

end ThreeAddress
end ClassCompiler
