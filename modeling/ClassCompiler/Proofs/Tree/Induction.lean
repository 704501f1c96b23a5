import ClassCompiler.Tree.Basic

/-!
# Induction on trees

The children of a node are a list, so the principle that comes with the type speaks of trees and of
lists of trees side by side.  What is proved here is always a statement about one tree that is known
for its children, and `Tree.induction` says just that.

The kinds of statements stand here too.  Any other kind is taken for an expression in the place of a
statement, by everything that reads statements.
-/

namespace ClassCompiler

namespace Kind

/-- The kinds of statements that hold no expression themselves or are no expression. -/
def isStatement : Kind → Bool
  | .returnType _ | .argument _ _ | .localVar _ _ => true
  | .block | .thenBranch | .elseBranch | .conditional | .loop | .expression => true
  | .assignment _ | .arrayAssignment _ | .ret | .condition => true
  | _ => false

/-- The type that a declaration in a method writes. -/
def writtenType? : Kind → Option TypeName
  | .returnType type | .argument _ type | .localVar _ type => some type
  | _ => none

end Kind

namespace Tree

variable {α : Type}

/-- What holds of a node as soon as it holds of its children holds of every tree. -/
@[elab_as_elim]
theorem induction {P : Tree α → Prop} (node : ∀ a ts, (∀ t ∈ ts, P t) → P (.node a ts))
    (t : Tree α) :
    P t := by
  refine @Tree.rec α P (fun ts => ∀ t ∈ ts, P t) node ?_ ?_ t
  · intro t h
    exact absurd h List.not_mem_nil
  · intro t ts ht hts u hu
    rcases List.mem_cons.mp hu with rfl | hu
    · exact ht
    · exact hts u hu

theorem preorderAll_eq_flatMap (ts : List (Tree α)) : preorderAll ts = ts.flatMap preorder := by
  induction ts with
  | nil => rw [preorderAll, List.flatMap_nil]
  | cons t ts ih => rw [preorderAll, ih, List.flatMap_cons]

end Tree
end ClassCompiler
