/-!
# Listings

The body of a method as the assembler reads it: a line for every instruction and every label.  A
comparison needs two labels of its own; a listing numbers its comparisons.
-/

namespace ClassCompiler
namespace Machine

/-- A line: an instruction, or a label that names this place. -/
inductive Line (α : Type) where
  | op (op : α)
  | label (name : String)
  deriving DecidableEq, Repr

/-- The text of a line. -/
def Line.text {α : Type} (opText : α → String) : Line α → String
  | .op o => "    " ++ opText o
  | .label name => name ++ ":"

/-- Lines, and the number of comparisons among them. -/
structure Listing (α : Type) where
  lines : List (Line α) := []
  comparisons : Nat := 0

/-- The label where a comparison that holds goes on. -/
def trueLabel (k : Nat) : String :=
  s!"CMP_TRUE_{k}"

/-- The label after a comparison. -/
def endLabel (k : Nat) : String :=
  s!"CMP_END_{k}"

namespace Listing

variable {α : Type}

/-- One more instruction. -/
def emit (l : Listing α) (op : α) : Listing α :=
  { l with lines := l.lines ++ [.op op] }

/-- One more label. -/
def label (l : Listing α) (name : String) : Listing α :=
  { l with lines := l.lines ++ [.label name] }

/-- The labels of one more comparison. -/
def comparison (l : Listing α) : (String × String) × Listing α :=
  ((trueLabel l.comparisons, endLabel l.comparisons),
    { l with comparisons := l.comparisons + 1 })

end Listing

end Machine
end ClassCompiler
