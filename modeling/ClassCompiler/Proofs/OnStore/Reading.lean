import ClassCompiler.Proofs.Constant.Walkable
import ClassCompiler.Proofs.Store.Reading

/-!
# Reading a tree where it is stored

The passes are functions on trees.  Here begins a second form of them that works on the nodes of a
store and follows the numbers in the lists of children.  This form can break off in the middle: a
number may belong to no node, or the children behind the first one may be asked of a node that has
none.  Breaking off is an `Abort`, and it is kept apart from the errors that a pass returns.

A computation in a monad `m` that may break off is one in `ExceptT Abort m`, and `sure x` is one
that does not.  The statements about the second form have the shape `f s depth id = sure (g t)`:
where the store has the tree `t` below `id`, the form that reads nodes does not break off, and it
does what the form that reads trees does.
-/

namespace ClassCompiler

/-- Why work on a store breaks off. -/
inductive Abort where
  /-- No node has this number. -/
  | noSuchNode (id : Nat)
  /-- The children behind the first one were asked of a node without children. -/
  | noFirstChild (id : Nat)
  /-- A case was reached that was ruled out before. -/
  | ruledOut
  /-- The work goes on for longer than there are nodes for. -/
  | endless
  /-- All numbers that a node can have are taken. -/
  | outOfNumbers
  deriving DecidableEq, Repr

namespace Tree

/-- A node without what is below it. -/
def leaf (t : Ast) : Ast :=
  .node t.label []

/-- A node and its children, without what is below those. -/
def surface (t : Ast) : Ast :=
  .node t.label (t.children.map leaf)

@[simp] theorem label_leaf (t : Ast) : t.leaf.label = t.label := rfl

@[simp] theorem kind_leaf (t : Ast) : t.leaf.kind = t.kind := rfl

@[simp] theorem id_leaf (t : Ast) : t.leaf.id = t.id := rfl

@[simp] theorem label_surface (t : Ast) : t.surface.label = t.label := rfl

@[simp] theorem kind_surface (t : Ast) : t.surface.kind = t.kind := rfl

@[simp] theorem id_surface (t : Ast) : t.surface.id = t.id := rfl

@[simp] theorem children_surface (t : Ast) : t.surface.children = t.children.map leaf := rfl

@[simp] theorem id_node (n : Numbered) (ts : List Ast) : (Tree.node n ts).id = n.id := rfl

end Tree

namespace OnStore

variable {m : Type → Type} [Monad m] {α β : Type}

/-- A computation that does not break off. -/
def sure (x : m α) : ExceptT Abort m α :=
  ExceptT.lift x

/-- Breaks off. -/
def abort (a : Abort) : ExceptT Abort m α :=
  ExceptT.mk (pure (.error a))

section Lawful

variable [LawfulMonad m]

theorem pure_eq_sure (a : α) : (pure a : ExceptT Abort m α) = sure (pure a) := by
  refine ExceptT.ext ?_
  simp [sure]

theorem sure_bind (x : m α) (f : α → m β) : (sure x >>= fun a => sure (f a)) = sure (x >>= f) := by
  refine ExceptT.ext ?_
  simp [sure]

theorem sure_bind_pure (x : m α) (f : α → β) :
    (sure x >>= fun a => pure (f a)) = sure (x >>= fun a => pure (f a)) := by
  simp only [pure_eq_sure, sure_bind]

/-- One computation after another for the trees of a list. -/
theorem forM_eq_sure {f : Nat → ExceptT Abort m Unit} {g : Ast → m Unit} {ts : List Ast}
    (h : ∀ t ∈ ts, f t.id = sure (g t)) : (ts.map Tree.id).forM f = sure (ts.forM g) := by
  induction ts with
  | nil => exact pure_eq_sure ()
  | cons t ts ih =>
    have hrest := ih fun u hu => h u (List.mem_cons_of_mem t hu)
    simp only [List.map_cons, List.forM_eq_forM, List.forM_cons] at hrest ⊢
    rw [h t List.mem_cons_self, hrest, sure_bind]

end Lawful

/-! ## The node of a number -/

/-- The node of a number with its links. -/
def look (s : Store) (id : Nat) : ExceptT Abort m Cell :=
  match s.cell id with
  | .ok c => pure c
  | .error _ => abort (.noSuchNode id)

/-- The node of a number. -/
def labelAt (s : Store) (id : Nat) : ExceptT Abort m Numbered := do
  return { (← look s id).node with id }

/-- The children of a node. -/
def childrenAt (s : Store) (id : Nat) : ExceptT Abort m (List Nat) := do
  return (← look s id).children

/-- A child that must be there. -/
def childOr (fail : Error → m Nat) (s : Store) (id index : Nat) (expected : String) :
    ExceptT Abort m Nat := do
  match (← childrenAt s id)[index]? with
  | some i => return i
  | none => sure (fail (.missing (← labelAt s id) index expected))

/-- The children of a node behind the first one. -/
def behindFirst (s : Store) (id : Nat) : ExceptT Abort m (List Nat) := do
  match ← childrenAt s id with
  | [] => abort (.noFirstChild id)
  | _ :: ids => return ids

/-- A node without what is below it. -/
def leafAt (s : Store) (id : Nat) : ExceptT Abort m Ast := do
  return .node (← labelAt s id) []

/-- A node and its children, without what is below those. -/
def surfaceAt (s : Store) (id : Nat) : ExceptT Abort m Ast := do
  return .node (← labelAt s id) (← (← childrenAt s id).mapM (leafAt s))

/-- The tree below a node. -/
def treeOf (s : Store) (id : Nat) : ExceptT Abort m Ast :=
  match s.treeAt id with
  | .ok t => pure t
  | .error _ => abort (.noSuchNode id)

/-- The class of the tree: its root, or the first class right below it. -/
def classOr (fail : Error → m Nat) (s : Store) : ExceptT Abort m Nat := do
  match (← surfaceAt s Store.root).classTree.map Tree.id with
  | .ok id => return id
  | .error e => sure (fail e)

end OnStore

/-! ## Where a tree is stored -/

namespace Tree

variable {α : Type}

theorem size_le_sizeAll {t : Tree α} {ts : List (Tree α)} (h : t ∈ ts) : t.size ≤ sizeAll ts := by
  induction ts with
  | nil => exact absurd h List.not_mem_nil
  | cons u us ih =>
    rw [sizeAll]
    rcases List.mem_cons.mp h with rfl | h
    · exact Nat.le_add_right _ _
    · exact Nat.le_add_left_of_le (ih h)

/-- What is left of a depth that is enough for a tree is enough for its children. -/
theorem size_le_of_mem {a : α} {t : Tree α} {ts : List (Tree α)} {depth : Nat}
    (hsize : (node a ts).size ≤ depth + 1) (h : t ∈ ts) : t.size ≤ depth :=
  Nat.le_trans (size_le_sizeAll h) (Nat.le_of_succ_le_succ hsize)

theorem size_le_of_mem_children {t u : Tree α} (h : u ∈ t.children) : u.size ≤ t.size := by
  cases t with
  | node a ts => exact Nat.le_succ_of_le (size_le_sizeAll h)

theorem depth_eq_succ {a : α} {ts : List (Tree α)} {depth : Nat}
    (hsize : (node a ts).size ≤ depth) : ∃ d, depth = d + 1 :=
  ⟨depth - 1, by rw [size] at hsize; omega⟩

end Tree

namespace Store

variable {s : Store} {depth id : Nat} {n : Numbered} {t : Ast} {ts : List Ast}

/-- The store has a node under its number, and the roots of the trees are its children. -/
def Has (s : Store) (n : Numbered) (ts : List Ast) : Prop :=
  ∃ c, s.cell n.id = .ok c ∧ c.node = n.toNode ∧ c.children = ts.map Tree.id

/-- The store has every node of a tree with its children. -/
inductive Holds (s : Store) : Ast → Prop
  | node {n : Numbered} {ts : List Ast} (has : s.Has n ts) (all : ∀ t ∈ ts, Holds s t) :
      Holds s (.node n ts)

/-- A tree that was read is in the store. -/
theorem holds_of_treeWithin (h : s.treeWithin depth id = some t) : s.Holds t := by
  induction depth generalizing id t with
  | zero => cases h
  | succ depth ih =>
    obtain ⟨cell, ts, hcell, hmap, rfl⟩ := treeWithin_succ.mp h
    obtain ⟨hids, htrees⟩ := mapM_treeWithin hmap
    exact .node ⟨cell, cell_eq_ok.mpr hcell, rfl, hids.symm⟩ fun t ht => ih (htrees t ht)

theorem mapM_treeWithin_eq_some (h : ∀ t ∈ ts, s.treeWithin depth t.id = some t) :
    (ts.map Tree.id).mapM (s.treeWithin depth) = some ts := by
  induction ts with
  | nil => rfl
  | cons t ts ih =>
    rw [List.map_cons, List.mapM_cons, h t List.mem_cons_self,
      ih fun u hu => h u (List.mem_cons_of_mem t hu)]
    rfl

/-- A tree that is in the store is read, within a depth that is enough for it. -/
theorem Holds.treeWithin (h : s.Holds t) (hsize : t.size ≤ depth) :
    s.treeWithin depth t.id = some t := by
  induction h generalizing depth with
  | @node n ts has _ ih =>
    obtain ⟨depth, rfl⟩ := Tree.depth_eq_succ hsize
    obtain ⟨cell, hcell, hnode, hchildren⟩ := has
    refine treeWithin_succ.mpr ⟨cell, ts, cell_eq_ok.mp hcell, ?_, by rw [hnode]; rfl⟩
    rw [hchildren]
    exact mapM_treeWithin_eq_some fun u hu => ih u hu (Tree.size_le_of_mem hsize hu)

theorem Holds.children (h : s.Holds t) : ∀ u ∈ t.children, s.Holds u := by
  cases h with
  | node has all => exact all

theorem Holds.classTree {c : Ast} (h : s.Holds t) (hc : t.classTree = .ok c) :
    s.Holds c ∧ c.size ≤ t.size := by
  rcases Constant.classTree_eq_ok.mp hc with ⟨-, rfl⟩ | ⟨-, hfind⟩
  · exact ⟨h, Nat.le_refl _⟩
  · have hmem := List.mem_of_find?_eq_some hfind
    exact ⟨h.children c hmem, Tree.size_le_of_mem_children hmem⟩

end Store

/-! ## Reading there -/

namespace OnStore

variable {m : Type → Type} [Monad m] {s : Store} {n : Numbered} {t : Ast} {ts : List Ast}

theorem treeOf_eq (h : s.Holds t) (hsize : t.size ≤ s.size) :
    (treeOf s t.id : ExceptT Abort m Ast) = pure t := by
  simp only [treeOf, Store.treeAt_eq_ok.mpr (h.treeWithin hsize)]

variable [LawfulMonad m]

theorem labelAt_eq (h : s.Has n ts) : (labelAt s n.id : ExceptT Abort m Numbered) = pure n := by
  obtain ⟨c, hcell, hnode, -⟩ := h
  simp only [labelAt, look, hcell, pure_bind, hnode]

theorem childrenAt_eq (h : s.Has n ts) :
    (childrenAt s n.id : ExceptT Abort m (List Nat)) = pure (ts.map Tree.id) := by
  obtain ⟨c, hcell, -, hchildren⟩ := h
  simp only [childrenAt, look, hcell, pure_bind, hchildren]

theorem childOr_eq (h : s.Has n ts) (fail : Error → m Nat) (index : Nat) (expected : String) :
    childOr fail s n.id index expected =
      match ts[index]? with
      | some t => pure t.id
      | none => sure (fail (.missing n index expected)) := by
  simp only [childOr, labelAt_eq h, childrenAt_eq h, pure_bind, List.getElem?_map]
  cases ts[index]? <;> rfl

theorem behindFirst_eq (h : s.Has n (t :: ts)) :
    (behindFirst s n.id : ExceptT Abort m (List Nat)) = pure (ts.map Tree.id) := by
  simp only [behindFirst, childrenAt_eq h, pure_bind, List.map_cons]

theorem labelAt_id (h : s.Holds t) :
    (labelAt s t.id : ExceptT Abort m Numbered) = pure t.label := by
  cases h with
  | node has all => exact labelAt_eq has

theorem childrenAt_id (h : s.Holds t) :
    (childrenAt s t.id : ExceptT Abort m (List Nat)) = pure (t.children.map Tree.id) := by
  cases h with
  | node has all => exact childrenAt_eq has

theorem leafAt_eq (h : s.Holds t) : (leafAt s t.id : ExceptT Abort m Ast) = pure t.leaf := by
  rw [leafAt, labelAt_id h, pure_bind, Tree.leaf]

theorem mapM_leafAt_eq (h : ∀ t ∈ ts, s.Holds t) :
    ((ts.map Tree.id).mapM (leafAt s) : ExceptT Abort m (List Ast)) = pure (ts.map Tree.leaf) := by
  induction ts with
  | nil => rfl
  | cons t ts ih =>
    rw [List.map_cons, List.mapM_cons, leafAt_eq (h t List.mem_cons_self),
      ih fun u hu => h u (List.mem_cons_of_mem t hu)]
    simp only [pure_bind, List.map_cons]

theorem surfaceAt_eq (h : s.Holds t) :
    (surfaceAt s t.id : ExceptT Abort m Ast) = pure t.surface := by
  rw [surfaceAt, labelAt_id h, childrenAt_id h]
  simp only [pure_bind, mapM_leafAt_eq h.children]
  rfl

/-- The class of a tree can be told from the root and its children. -/
theorem classTree_surface (t : Ast) :
    t.surface.classTree.map Tree.id = t.classTree.map Tree.id := by
  have hfind : (t.children.map Tree.leaf).find? Tree.isClass =
      (t.children.find? Tree.isClass).map Tree.leaf := by
    rw [List.find?_map]
    rfl
  rw [Tree.classTree, Tree.classTree, show t.surface.isClass = t.isClass from rfl,
    Tree.children_surface, hfind]
  split
  · rfl
  · cases t.children.find? Tree.isClass <;> rfl

theorem classOr_eq (h : s.Holds t) (hroot : t.id = Store.root) (fail : Error → m Nat) :
    classOr fail s =
      match t.classTree with
      | .ok c => pure c.id
      | .error e => sure (fail e) := by
  rw [classOr, ← hroot, surfaceAt_eq h, pure_bind, classTree_surface]
  cases t.classTree <;> rfl

end OnStore
end ClassCompiler
