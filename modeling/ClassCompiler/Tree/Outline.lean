import ClassCompiler.Text.Lines
import ClassCompiler.Tree.Basic

/-!
# Outlines

A tree as text for a reader: one line a node, two blanks deeper than the line of its parent, with or
without the position of the node.
-/

namespace ClassCompiler
namespace Tree

/-- The line of a node without its indentation. -/
def nodeLine (positions : Bool) (n : Node) : String :=
  if positions then s!"{n.kind.text} @{n.position.line}:{n.position.column}" else n.kind.text

mutual

/-- The lines of a tree that stands `level` deep. -/
def outlineLines (positions : Bool) (level : Nat) : Source → List String
  | .node n ts =>
    (String.ofList (List.replicate (2 * level) ' ') ++ nodeLine positions n)
      :: outlineLinesAll positions (level + 1) ts

/-- The lines of trees that follow one another. -/
def outlineLinesAll (positions : Bool) (level : Nat) : List Source → List String
  | [] => []
  | t :: ts => t.outlineLines positions level ++ outlineLinesAll positions level ts

end

/-- The outline of a tree. -/
def outline (positions : Bool) (t : Source) : String :=
  Text.unlines (t.outlineLines positions 0)

end Tree
end ClassCompiler
