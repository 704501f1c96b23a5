import ClassCompiler.Error

/-!
# A store of nodes

The nodes of a tree under their numbers, for those who rearrange trees by hand.  Every node knows
its children in order and its parent.  The root has number zero.  A node that is taken out of the
tree stays in the store, without a parent, under its number; new nodes get the next number.

* `Store.ofSource`: the store of a tree, numbered in pre-order.
* `Store.treeAt`: the tree below a node.  Nothing keeps the caller from hanging a node below itself,
  so this may fail.
* `append`, `replaceChild`, `replaceNode`, `insert`, `copy`: rearranging.  The first three change a
  store in its place, as a `Change`.
-/

namespace ClassCompiler

/-- A node with its links. -/
structure Cell where
  node : Node
  children : List Nat := []
  parent : Option Nat := none
  deriving DecidableEq, Repr

/-- Nodes under their numbers. -/
structure Store where
  cells : Array Cell
  deriving DecidableEq, Repr

namespace Store

/-- The number of nodes, with those that were taken out of the tree. -/
def size (s : Store) : Nat :=
  s.cells.size

/-- The number of the root. -/
def root : Nat := 0

/-- The node of a number. -/
def cell (s : Store) (id : Nat) : Except Error Cell :=
  match s.cells[id]? with
  | some c => .ok c
  | none => .error (.noSuchNode id)

/-- The store with a node changed. -/
def update (s : Store) (id : Nat) (f : Cell → Cell) : Store :=
  ⟨s.cells.modify id f⟩

def setParent (s : Store) (id : Nat) (parent : Option Nat) : Store :=
  s.update id fun c => { c with parent }

/-! ## Reading -/

/-- The tree below a node, down to `depth` levels of nodes; none if it goes deeper. -/
def treeWithin (s : Store) : Nat → Nat → Option Ast
  | 0, _ => none
  | depth + 1, id => do
    let c ← s.cells[id]?
    let ts ← c.children.mapM (s.treeWithin depth)
    some (.node { c.node with id } ts)

/-- The tree below a node.  A tree has no more levels than the store has nodes. -/
def treeAt (s : Store) (id : Nat) : Except Error Ast :=
  match s.treeWithin s.size id with
  | some t => .ok t
  | none => .error (.noSuchNode id)

/-- The tree below a node, without what is more than `depth` levels below it.  This is a tree even
where a node hangs below itself. -/
def treeUpTo (s : Store) : Nat → Nat → Except Error Ast
  | 0, id => do
    let c ← s.cell id
    return .node { c.node with id } []
  | depth + 1, id => do
    let c ← s.cell id
    let ts ← c.children.mapM (s.treeUpTo depth)
    return .node { c.node with id } ts

/-- The numbers of a node and of all below it, each before those below. -/
def preorder (s : Store) (id : Nat) : Except Error (List Nat) := do
  return (← s.treeAt id).preorder.map Numbered.id

/-- The place of a node among the children of its parent. -/
def indexInParent? (s : Store) (id : Nat) : Except Error (Option Nat) := do
  match (← s.cell id).parent with
  | none => return none
  | some parent => return (← s.cell parent).children.idxOf? id

/-- A child that must be there. -/
def child (s : Store) (id index : Nat) (expected : String) : Except Error Nat := do
  let c ← s.cell id
  match c.children[index]? with
  | some i => return i
  | none => throw (.missing { c.node with id } index expected)

/-- The first child whose kind passes a test. -/
def findChild? (s : Store) (id : Nat) (test : Kind → Bool) : Except Error (Option Nat) := do
  let c ← s.cell id
  return c.children.find? fun i =>
    match s.cells[i]? with
    | some c => test c.node.kind
    | none => false

/-! ## Adding nodes -/

/-- A new node that stands alone, and its number.  The numbers here have no bound.  Where they are
kept in 32 bits they are the same in a store of up to `numberLimit` nodes (`narrow_history_iff`); in
a larger one the numbers of two nodes would coincide. -/
def add (s : Store) (node : Node) : Store × Nat :=
  (⟨s.cells.push { node }⟩, s.size)

mutual

/-- The store with a tree hung below `parent` as its last child. -/
def graft (s : Store) (parent : Nat) : Source → Store
  | .node n ts =>
    let id := s.size
    let s : Store := ⟨s.cells.push { node := n, parent := some parent }⟩
    graftAll (s.update parent fun c => { c with children := c.children ++ [id] }) id ts

/-- The store with trees hung below `parent`, one after another. -/
def graftAll (s : Store) (parent : Nat) : List Source → Store
  | [] => s
  | t :: ts => graftAll (s.graft parent t) parent ts

end

/-- The store with a tree that stands alone, and the number of its root. -/
def plant (s : Store) : Source → Store × Nat
  | .node n ts =>
    let (s, id) := s.add n
    (s.graftAll id ts, id)

/-- The store of a tree. -/
def ofSource (t : Source) : Store :=
  (plant ⟨#[]⟩ t).1

/-- The store with a tree as the last child of a node, and the number of its root.  The parent has
to be there once the root of the new tree is. -/
def insert (s : Store) (parent : Nat) (t : Source) : Except Error (Store × Nat) :=
  if parent ≤ s.size then .ok (s.graft parent t, s.size)
  else .error (.noSuchNode parent)

/-- The store with a copy of the tree below a node.  The copy stands alone. -/
def copy (s : Store) (id : Nat) : Except Error (Store × Nat) := do
  return s.plant (← s.treeAt id).source

/-! ## Rearranging -/

/-- Only a node without a parent, and not the root, may be hung somewhere. -/
def checkDetached (s : Store) (id : Nat) : Except Error Unit := do
  let c ← s.cell id
  if c.parent.isSome ∨ id = root then throw (.malformedTree id .alreadyAttached)

/-- A change of a store in its place.  Where it fails, what it did before stays done. -/
abbrev Change := EStateM Error Store

namespace Change

/-- What can be read off the store. -/
def ask (f : Store → Except Error α) : Change α := fun s =>
  match f s with
  | .ok a => .ok a s
  | .error e => .error e s

/-- Hangs a node below another as its last child. -/
def append (parent id : Nat) : Change Unit := do
  ask (·.checkDetached id)
  let _ ← ask (·.cell parent)
  modify (·.setParent id (some parent))
  modify (·.update parent fun c => { c with children := c.children ++ [id] })

/-- Puts a node in the place of a child, which is left without a parent.  Gives back that child. -/
def replaceChild (parent index new : Nat) : Change Nat := do
  ask (·.checkDetached new)
  let c ← ask (·.cell parent)
  match c.children[index]? with
  | none => throw (.malformedTree parent (.noChildToReplace index))
  | some old =>
    modify (·.update parent fun c => { c with children := c.children.set index new })
    modify (·.setParent new (some parent))
    modify (·.setParent old none)
    return old

/-- Puts a node in the place of another. -/
def replaceNode (old new : Nat) : Change Unit := do
  match (← ask (·.cell old)).parent with
  | none => throw (.malformedTree old .noParent)
  | some parent =>
    match ← ask (·.indexInParent? old) with
    | none => throw (.malformedTree old .notListed)
    | some index =>
      let _ ← replaceChild parent index new

/-- The store that a change makes of another, and what it gives back. -/
def apply (change : Change α) (s : Store) : Except Error (Store × α) :=
  match change.run s with
  | .ok a s => .ok (s, a)
  | .error e _ => .error e

end Change

def append (s : Store) (parent id : Nat) : Except Error Store :=
  ((Change.append parent id).apply s).map Prod.fst

def replaceChild (s : Store) (parent index new : Nat) : Except Error (Store × Nat) :=
  (Change.replaceChild parent index new).apply s

def replaceNode (s : Store) (old new : Nat) : Except Error Store :=
  ((Change.replaceNode old new).apply s).map Prod.fst

end Store
end ClassCompiler
