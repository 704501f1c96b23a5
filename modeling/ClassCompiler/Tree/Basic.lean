import ClassCompiler.Tree.Kind

/-!
# Syntax trees

One type of finitely branching trees serves twice.  A `Source` is a tree as it is written down: its
labels are the nodes themselves.  An `Ast` is the same tree with its nodes numbered, which is how
the passes see it: a number survives changes of the tree around it, and errors point to it.

* `Tree.number`: the numbering in pre-order, the one every reader of a tree agrees on.
* `Tree.preorder`: the labels in that order.
-/

namespace ClassCompiler

/-- A place in the text that was parsed. -/
structure Position where
  line : Nat := 0
  column : Nat := 0
  deriving DecidableEq, Repr

/-- Extra facts about a node, by increasing name. -/
abbrev Attributes := List (String × String)

namespace Attributes

/-- The attributes with one set; a value that it had is lost. -/
def insert (name value : String) : Attributes → Attributes
  | [] => [(name, value)]
  | (n, v) :: rest =>
    if name < n then (name, value) :: (n, v) :: rest
    else if name = n then (name, value) :: rest
    else (n, v) :: Attributes.insert name value rest

end Attributes

/-- A node by itself, without what is below it. -/
structure Node where
  kind : Kind
  position : Position := {}
  attributes : Attributes := []
  deriving DecidableEq, Repr

/-- A node with its number. -/
structure Numbered extends Node where
  id : Nat
  deriving DecidableEq, Repr

/-- A finitely branching tree with a label at every node. -/
inductive Tree (α : Type) where
  | node (label : α) (children : List (Tree α))
  deriving Repr

/-- A tree as it is written down. -/
abbrev Source := Tree Node

/-- A tree whose nodes are numbered. -/
abbrev Ast := Tree Numbered

namespace Tree

variable {α β : Type}

/-- The label at the root. -/
def label : Tree α → α
  | .node a _ => a

/-- The trees below the root, in order. -/
def children : Tree α → List (Tree α)
  | .node _ ts => ts

mutual

/-- The tree with every label changed. -/
def map (f : α → β) : Tree α → Tree β
  | .node a ts => .node (f a) (mapAll f ts)

/-- Trees with every label changed. -/
def mapAll (f : α → β) : List (Tree α) → List (Tree β)
  | [] => []
  | t :: ts => t.map f :: mapAll f ts

end

mutual

/-- The labels, every node before what is below it. -/
def preorder : Tree α → List α
  | .node a ts => a :: preorderAll ts

/-- The labels of trees that follow one another. -/
def preorderAll : List (Tree α) → List α
  | [] => []
  | t :: ts => t.preorder ++ preorderAll ts

end

mutual

/-- The number of nodes. -/
def size : Tree α → Nat
  | .node _ ts => sizeAll ts + 1

/-- The number of nodes of several trees. -/
def sizeAll : List (Tree α) → Nat
  | [] => 0
  | t :: ts => t.size + sizeAll ts

end

mutual

/-- The tree with its nodes numbered in pre-order from `next` on. -/
def number (next : Nat) : Source → Ast
  | .node n ts => .node { n with id := next } (numberAll (next + 1) ts)

/-- Trees that follow one another, numbered from `next` on. -/
def numberAll (next : Nat) : List Source → List Ast
  | [] => []
  | t :: ts => t.number next :: numberAll (next + t.size) ts

end

/-- The tree without its numbers. -/
def source (t : Ast) : Source :=
  t.map Numbered.toNode

/-- The kind of the root. -/
def kind (t : Ast) : Kind :=
  t.label.kind

/-- The number of the root. -/
def id (t : Ast) : Nat :=
  t.label.id

/-- The position of the root. -/
def position (t : Ast) : Position :=
  t.label.position

mutual

/-- The tree below the node of that number. -/
def find? (id : Nat) : Ast → Option Ast
  | .node n ts => if n.id = id then some (.node n ts) else findAmong? id ts

/-- The tree below the node of that number, which is in one of the trees. -/
def findAmong? (id : Nat) : List Ast → Option Ast
  | [] => none
  | t :: ts =>
    match t.find? id with
    | some found => some found
    | none => findAmong? id ts

end

end Tree
end ClassCompiler
