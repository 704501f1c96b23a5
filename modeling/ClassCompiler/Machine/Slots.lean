import ClassCompiler.Error
import Std.Data.TreeMap

/-!
# Slots

Every variable of a method has a slot of its own for the whole method: the receiver first, then the
parameters, the locals, and the temporaries in the order they are assigned.

* `SlotTable`: the slots given so far.
* `allocate`: the table of a method.
* `slotLimit`: the number of slots that a method announces.
-/

namespace ClassCompiler
namespace Machine

open ThreeAddress (ValueType Var Instr Method)

/-- The slot of a variable, with the type it was given for. -/
structure Slot where
  index : Nat
  type : ValueType
  deriving DecidableEq, Repr

/-- The slots of the variables of a method. -/
structure SlotTable where
  entries : Std.TreeMap String Slot := ∅
  /-- The number of slots given so far. -/
  used : Nat := 0

/-- A method has no more slots than this. -/
def maxSlots : Nat := 65535

/-- The number of slots that a method announces unless it is told another. -/
def defaultBudget : Nat := 99

namespace SlotTable

def get? (t : SlotTable) (name : String) : Option Slot :=
  t.entries[name]?

/-- Gives a variable the next slot, unless it has one. -/
def assign (t : SlotTable) (v : Var) : Except Error (SlotTable × Nat) :=
  match t.get? v.name with
  | some slot => .ok (t, slot.index)
  | none =>
    if t.used < maxSlots then
      .ok ({ entries := t.entries.insert v.name ⟨t.used, v.type⟩, used := t.used + 1 }, t.used)
    else .error .tooManySlots

/-- Gives slots to variables, one after another. -/
def assignAll (t : SlotTable) : List Var → Except Error SlotTable
  | [] => .ok t
  | v :: vs => do
    let (t, _) ← t.assign v
    t.assignAll vs

/-- Keeps the next slot for something without a name, and tells which one it is. -/
def reserve (t : SlotTable) : SlotTable × Nat :=
  ({ t with used := t.used + 1 }, t.used)

end SlotTable

/-- The variables of a method in the order in which they get slots. -/
def frameVars (m : Method) : List Var :=
  m.params ++ m.locals ++ m.code.filterMap Instr.dest?

/-- The slots of a method. -/
def allocate (m : Method) : Except Error SlotTable :=
  let start : SlotTable := if m.isStatic then {} else ({} : SlotTable).reserve.1
  start.assignAll (frameVars m)

/-- The number of slots that a method announces: its budget, or more if it needs more. -/
def slotLimit (budget : Nat) (t : SlotTable) : Nat :=
  max budget t.used

end Machine
end ClassCompiler
