import ClassCompiler.ThreeAddress.Basic

/-!
# Fresh names

Lowering a method needs temporaries and labels that nothing else in the method is called.  Both are
numbered from zero in every method.  A temporary is `t` and a number, where the numbers are passed
over whose name the program uses itself; the labels of one control structure share a number.
-/

namespace ClassCompiler
namespace ThreeAddress

/-- What has been handed out in a method. -/
structure Fresh where
  /-- Names that no temporary may have. -/
  reserved : List String
  nextTemp : Nat := 0
  nextLabel : Nat := 0
  deriving DecidableEq, Repr

namespace Fresh

/-- The name of a temporary. -/
def tempName (k : Nat) : String :=
  s!"t{k}"

/-- The first number from `k` on whose name is not reserved, among `tries + 1` numbers. -/
def firstFree (reserved : List String) : Nat → Nat → Nat
  | 0, k => k
  | tries + 1, k =>
    if reserved.contains (tempName k) then firstFree reserved tries (k + 1) else k

/-- A new temporary.  Among one more number than there are reserved names, one is free. -/
def temp (f : Fresh) (type : ValueType) : Var × Fresh :=
  let k := firstFree f.reserved f.reserved.length f.nextTemp
  (⟨tempName k, type⟩, { f with nextTemp := k + 1 })

/-- A new number for the labels of a control structure. -/
def label (f : Fresh) : Nat × Fresh :=
  (f.nextLabel, { f with nextLabel := f.nextLabel + 1 })

end Fresh

end ThreeAddress
end ClassCompiler
