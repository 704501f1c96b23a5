import Mathlib.Data.List.Count
import Mathlib.Data.List.Nodup
import Mathlib.Logic.Function.Basic
import Mathlib.Logic.Relation
import ClassCompiler.Tree.Store

/-!
# The links of a store

A node knows its parent, and the parent lists the node among its children.  Whoever rearranges a
store writes both, and here it is shown that they always agree.

All changes are made of three steps: a node is added, a node without a parent is hung below another,
or it takes the place of a child.  What one step keeps is shown here once.

* `Store.Linked`: parents and children agree, and the root has no parent.
* `Store.Step`: the steps.
* `Steps.linked`, `Steps.keeps`: what they keep.
-/

namespace ClassCompiler
namespace Store

/-! ## Looking at the links -/

/-- The parent of a node. -/
def parentOf (s : Store) (id : Nat) : Option Nat :=
  (s.cells[id]?.map Cell.parent).getD none

/-- The children of a node. -/
def childrenOf (s : Store) (id : Nat) : List Nat :=
  (s.cells[id]?.map Cell.children).getD []

/-- What a node is: its kind, position and attributes. -/
def nodeOf? (s : Store) (id : Nat) : Option Node :=
  s.cells[id]?.map Cell.node

/-- There are this many numbers of 32 bits. -/
def numberLimit : Nat := 4294967296

variable {s s' : Store} {parent id index old new p c : Nat}

theorem cell_eq_ok {cell : Cell} : s.cell id = .ok cell ↔ s.cells[id]? = some cell := by
  unfold Store.cell
  split
  · next h => rw [h, Except.ok.injEq, Option.some.injEq]
  · next h => simp [h]

theorem parentOf_of_cell {cell : Cell} (h : s.cells[id]? = some cell) :
    s.parentOf id = cell.parent := by
  rw [parentOf, h, Option.map_some, Option.getD_some]

theorem childrenOf_of_cell {cell : Cell} (h : s.cells[id]? = some cell) :
    s.childrenOf id = cell.children := by
  rw [childrenOf, h, Option.map_some, Option.getD_some]

theorem exists_cell (h : id < s.size) : ∃ cell, s.cells[id]? = some cell :=
  ⟨_, Array.getElem?_eq_getElem h⟩

theorem lt_size_of_cell {cell : Cell} (h : s.cells[id]? = some cell) : id < s.size :=
  (Array.getElem?_eq_some_iff.mp h).1

theorem lt_size_of_parentOf (h : s.parentOf c = some p) : c < s.size := by
  by_contra hc
  have hnone : s.cells[c]? = none := Array.getElem?_eq_none (Nat.le_of_not_lt hc)
  rw [parentOf, hnone] at h
  exact absurd h.symm (Option.some_ne_none p)

theorem lt_size_of_mem_childrenOf (h : c ∈ s.childrenOf p) : p < s.size := by
  by_contra hp
  have hnone : s.cells[p]? = none := Array.getElem?_eq_none (Nat.le_of_not_lt hp)
  rw [childrenOf, hnone] at h
  exact absurd h List.not_mem_nil

@[simp]
theorem size_update (f : Cell → Cell) : (s.update id f).size = s.size :=
  Array.size_modify

theorem cells_update (f : Cell → Cell) (j : Nat) :
    (s.update id f).cells[j]? = if id = j then s.cells[j]?.map f else s.cells[j]? :=
  Array.getElem?_modify

theorem eq_of_cells (h : ∀ j : Nat, s.cells[j]? = s'.cells[j]?) : s = s' :=
  congrArg Store.mk (Array.ext_getElem? h)

/-- The store with the children of a node changed. -/
def relist (s : Store) (id : Nat) (f : List Nat → List Nat) : Store :=
  s.update id fun c => { c with children := f c.children }

@[simp]
theorem size_setParent (parent : Option Nat) : (s.setParent id parent).size = s.size :=
  size_update _

@[simp]
theorem size_relist (f : List Nat → List Nat) : (s.relist id f).size = s.size :=
  size_update _

/-- What the change of a node does not touch is as before everywhere. -/
theorem map_update {α : Type} (read : Cell → α) {f : Cell → Cell}
    (hf : read ∘ f = read) (j : Nat) :
    (s.update id f).cells[j]?.map read = s.cells[j]?.map read := by
  rw [cells_update]
  split
  · rw [Option.map_map, hf]
  · rfl

theorem parentOf_relist (f : List Nat → List Nat) : (s.relist id f).parentOf = s.parentOf := by
  ext1 j
  rw [parentOf, relist, map_update Cell.parent, parentOf]
  rfl

theorem childrenOf_setParent (parent : Option Nat) :
    (s.setParent id parent).childrenOf = s.childrenOf := by
  ext1 j
  rw [childrenOf, setParent, map_update Cell.children, childrenOf]
  rfl

theorem nodeOf?_setParent (parent : Option Nat) : (s.setParent id parent).nodeOf? = s.nodeOf? := by
  ext1 j
  rw [nodeOf?, setParent, map_update Cell.node, nodeOf?]
  rfl

theorem nodeOf?_relist (f : List Nat → List Nat) : (s.relist id f).nodeOf? = s.nodeOf? := by
  ext1 j
  rw [nodeOf?, relist, map_update Cell.node, nodeOf?]
  rfl

theorem parentOf_setParent (h : id < s.size) (parent : Option Nat) :
    (s.setParent id parent).parentOf = Function.update s.parentOf id parent := by
  obtain ⟨cell, hcell⟩ := exists_cell h
  ext1 j
  rw [parentOf, setParent, cells_update]
  by_cases hj : id = j
  · subst hj
    rw [if_pos rfl, hcell, Function.update_self]
    rfl
  · rw [if_neg hj, Function.update_of_ne (Ne.symm hj), parentOf]

theorem childrenOf_relist (h : id < s.size) (f : List Nat → List Nat) :
    (s.relist id f).childrenOf = Function.update s.childrenOf id (f (s.childrenOf id)) := by
  obtain ⟨cell, hcell⟩ := exists_cell h
  ext1 j
  rw [childrenOf, relist, cells_update]
  by_cases hj : id = j
  · subst hj
    rw [if_pos rfl, hcell, Function.update_self, childrenOf_of_cell hcell]
    rfl
  · rw [if_neg hj, Function.update_of_ne (Ne.symm hj), childrenOf]

/-! ## The three steps -/

/-- The store with a node hung below another, as its last child. -/
def attach (s : Store) (parent id : Nat) : Store :=
  (s.setParent id (some parent)).relist parent (· ++ [id])

/-- The store with `new` in the place of a child, which is left without a parent. -/
def exchange (s : Store) (parent index old new : Nat) : Store :=
  ((s.relist parent (·.set index new)).setParent new (some parent)).setParent old none

@[simp]
theorem size_attach : (s.attach parent id).size = s.size := by
  rw [attach, size_relist, size_setParent]

theorem parentOf_attach (h : id < s.size) :
    (s.attach parent id).parentOf = Function.update s.parentOf id (some parent) := by
  rw [attach, parentOf_relist, parentOf_setParent h]

theorem childrenOf_attach (h : parent < s.size) :
    (s.attach parent id).childrenOf =
      Function.update s.childrenOf parent (s.childrenOf parent ++ [id]) := by
  rw [attach, childrenOf_relist (by simpa using h), childrenOf_setParent]

theorem nodeOf?_attach : (s.attach parent id).nodeOf? = s.nodeOf? := by
  rw [attach, nodeOf?_relist, nodeOf?_setParent]

@[simp]
theorem size_exchange : (s.exchange parent index old new).size = s.size := by
  rw [exchange, size_setParent, size_setParent, size_relist]

theorem parentOf_exchange (hold : old < s.size) (hnew : new < s.size) :
    (s.exchange parent index old new).parentOf =
      Function.update (Function.update s.parentOf new (some parent)) old none := by
  rw [exchange, parentOf_setParent (by simpa using hold), parentOf_setParent (by simpa using hnew),
    parentOf_relist]

theorem childrenOf_exchange (h : parent < s.size) :
    (s.exchange parent index old new).childrenOf =
      Function.update s.childrenOf parent ((s.childrenOf parent).set index new) := by
  rw [exchange, childrenOf_setParent, childrenOf_setParent, childrenOf_relist h]

theorem nodeOf?_exchange : (s.exchange parent index old new).nodeOf? = s.nodeOf? := by
  rw [exchange, nodeOf?_setParent, nodeOf?_setParent, nodeOf?_relist]

@[simp]
theorem size_add (n : Node) : (s.add n).1.size = s.size + 1 :=
  Array.size_push _

theorem cells_add (n : Node) (j : Nat) :
    (s.add n).1.cells[j]? = if j = s.size then some { node := n } else s.cells[j]? :=
  Array.getElem?_push

theorem parentOf_add (n : Node) : (s.add n).1.parentOf = s.parentOf := by
  ext1 j
  rw [parentOf, parentOf, cells_add]
  split
  · next h => rw [h, show s.cells[s.size]? = none from Array.getElem?_size]; rfl
  · rfl

theorem childrenOf_add (n : Node) : (s.add n).1.childrenOf = s.childrenOf := by
  ext1 j
  rw [childrenOf, childrenOf, cells_add]
  split
  · next h => rw [h, show s.cells[s.size]? = none from Array.getElem?_size]; rfl
  · rfl

theorem nodeOf?_add (n : Node) (h : id < s.size) : (s.add n).1.nodeOf? id = s.nodeOf? id := by
  rw [nodeOf?, nodeOf?, cells_add, if_neg (Nat.ne_of_lt h)]

/-! ## Parents and children that agree -/

/-- A parent lists each of its children once, and nothing else. -/
def Listed (parentOf : Nat → Option Nat) (childrenOf : Nat → List Nat) : Prop :=
  ∀ p c, (childrenOf p).count c = if parentOf c = some p then 1 else 0

namespace Listed

variable {up : Nat → Option Nat} {down : Nat → List Nat}

theorem mem_iff (h : Listed up down) : c ∈ down p ↔ up c = some p := by
  rw [← List.count_pos_iff, h p c]
  split <;> simp_all

theorem nodup (h : Listed up down) (p : Nat) : (down p).Nodup := by
  rw [List.nodup_iff_count_le_one]
  intro c
  rw [h p c]
  split <;> simp

/-- A node without a parent is hung below another. -/
theorem attach (h : Listed up down) (hid : up id = none) :
    Listed (Function.update up id (some parent))
      (Function.update down parent (down parent ++ [id])) := by
  intro p c
  have hsum : (Function.update down parent (down parent ++ [id]) p).count c =
      (down p).count c + if p = parent ∧ c = id then 1 else 0 := by
    by_cases hp : p = parent
    · subst hp
      by_cases hc : c = id
      · simp [hc]
      · simp [hc, Ne.symm hc]
    · simp [hp]
  rw [hsum, h p c]
  by_cases hc : c = id
  · subst hc
    simp [hid, eq_comm]
  · simp [hc]

/-- A node without a parent takes the place of a child. -/
theorem exchange (h : Listed up down) (hnew : up new = none)
    (hold : (down parent)[index]? = some old) :
    Listed (Function.update (Function.update up new (some parent)) old none)
      (Function.update down parent ((down parent).set index new)) := by
  obtain ⟨hindex, hat⟩ := List.getElem?_eq_some_iff.mp hold
  have hup : up old = some parent := h.mem_iff.mp (List.mem_of_getElem? hold)
  have hne : new ≠ old := fun heq => by simp [heq, hup] at hnew
  intro p c
  have hcount := h p c
  by_cases hp : p = parent
  · subst hp
    rw [Function.update_self, List.count_set hindex, hat, hcount]
    by_cases hc : c = old
    · subst hc
      simp [hup, hne]
    · by_cases hc' : c = new
      · subst hc'
        simp [Function.update_of_ne hc, hnew, Ne.symm hc]
      · simp [Function.update_of_ne hc, Function.update_of_ne hc', Ne.symm hc, Ne.symm hc']
  · rw [Function.update_of_ne hp, hcount]
    by_cases hc : c = old
    · subst hc
      simp [hup, Ne.symm hp]
    · by_cases hc' : c = new
      · subst hc'
        simp [Function.update_of_ne hc, hnew, Ne.symm hp]
      · simp [Function.update_of_ne hc, Function.update_of_ne hc']

end Listed

/-- Parents and children agree, and the root has no parent. -/
structure Linked (s : Store) : Prop where
  listed : Listed s.parentOf s.childrenOf
  root : s.parentOf Store.root = none
  nonempty : 0 < s.size

theorem Linked.parent_lt (h : s.Linked) (hc : s.parentOf c = some p) : p < s.size :=
  lt_size_of_mem_childrenOf (h.listed.mem_iff.mpr hc)

theorem Linked.child_lt (h : s.Linked) (hc : c ∈ s.childrenOf p) : c < s.size :=
  lt_size_of_parentOf (h.listed.mem_iff.mp hc)

/-! ## What the steps keep -/

/-- A node that may be hung somewhere: it is there, has no parent and is not the root. -/
structure Detached (s : Store) (id : Nat) : Prop where
  lt : id < s.size
  parent : s.parentOf id = none
  ne_root : id ≠ Store.root

/-- The store after a node was hung below another: as its last child, or in the place of a child,
which is left without a parent. -/
inductive Hung (s : Store) (parent id : Nat) : Store → Prop
  | attach (hparent : parent < s.size) (hid : s.Detached id) : Hung s parent id (s.attach parent id)
  | exchange {index old : Nat} (hold : (s.childrenOf parent)[index]? = some old)
      (hid : s.Detached id) : Hung s parent id (s.exchange parent index old id)

/-- The steps that all changes are made of, where `Fits` says what may be hung below what. -/
inductive Step (Fits : Store → Nat → Nat → Prop) (s : Store) : Store → Prop
  | add (n : Node) : Step Fits s (s.add n).1
  | hang {parent id : Nat} {s' : Store} (hfits : Fits s parent id) (h : s.Hung parent id s') :
      Step Fits s s'

/-- A node below which nothing hangs, to be hung below another. -/
def Bare (s : Store) (parent id : Nat) : Prop :=
  parent ≠ id ∧ s.childrenOf id = []

/-- Steps, one after another. -/
abbrev Steps (Fits : Store → Nat → Nat → Prop) : Store → Store → Prop :=
  Relation.ReflTransGen (Step Fits)

/-- Every node is still there and is what it was. -/
structure Keeps (s s' : Store) : Prop where
  size_le : s.size ≤ s'.size
  node : ∀ id < s.size, s'.nodeOf? id = s.nodeOf? id

variable {Fits : Store → Nat → Nat → Prop}

theorem Hung.linked (hhung : s.Hung parent id s') (h : s.Linked) : s'.Linked := by
  cases hhung with
  | attach hparent hid =>
    refine ⟨?_, ?_, ?_⟩
    · rw [parentOf_attach hid.lt, childrenOf_attach hparent]
      exact h.listed.attach hid.parent
    · rw [parentOf_attach hid.lt, Function.update_of_ne hid.ne_root.symm, h.root]
    · rw [size_attach]
      exact h.nonempty
  | @exchange index old hold hid =>
    have hmem : old ∈ s.childrenOf parent := List.mem_of_getElem? hold
    refine ⟨?_, ?_, ?_⟩
    · rw [parentOf_exchange (h.child_lt hmem) hid.lt,
        childrenOf_exchange (lt_size_of_mem_childrenOf hmem)]
      exact h.listed.exchange hid.parent hold
    · rw [parentOf_exchange (h.child_lt hmem) hid.lt]
      by_cases hroot : Store.root = old
      · rw [hroot, Function.update_self]
      · rw [Function.update_of_ne hroot, Function.update_of_ne hid.ne_root.symm, h.root]
    · rw [size_exchange]
      exact h.nonempty

theorem Hung.keeps (hhung : s.Hung parent id s') : s.Keeps s' := by
  cases hhung with
  | attach => exact ⟨Nat.le_of_eq size_attach.symm, fun id _ => by rw [nodeOf?_attach]⟩
  | exchange => exact ⟨Nat.le_of_eq size_exchange.symm, fun id _ => by rw [nodeOf?_exchange]⟩

theorem Step.linked (hstep : Step Fits s s') (h : s.Linked) : s'.Linked := by
  cases hstep with
  | add n =>
    refine ⟨?_, ?_, ?_⟩
    · rw [parentOf_add, childrenOf_add]
      exact h.listed
    · rw [parentOf_add, h.root]
    · rw [size_add]
      exact Nat.succ_pos _
  | hang _ hhung => exact hhung.linked h

theorem Step.keeps (hstep : Step Fits s s') : s.Keeps s' := by
  cases hstep with
  | add n => exact ⟨by rw [size_add]; exact Nat.le_succ _, fun id hid => nodeOf?_add n hid⟩
  | hang _ hhung => exact hhung.keeps

theorem Keeps.refl (s : Store) : s.Keeps s :=
  ⟨Nat.le_refl _, fun _ _ => rfl⟩

theorem Keeps.trans {s₁ s₂ s₃ : Store} (h₁ : s₁.Keeps s₂) (h₂ : s₂.Keeps s₃) : s₁.Keeps s₃ :=
  ⟨Nat.le_trans h₁.size_le h₂.size_le, fun id hid =>
    (h₂.node id (Nat.lt_of_lt_of_le hid h₁.size_le)).trans (h₁.node id hid)⟩

theorem Steps.linked (hsteps : Steps Fits s s') (h : s.Linked) : s'.Linked := by
  induction hsteps with
  | refl => exact h
  | tail _ hstep ih => exact hstep.linked ih

theorem Steps.keeps (hsteps : Steps Fits s s') : s.Keeps s' := by
  induction hsteps with
  | refl => exact .refl s
  | tail _ hstep ih => exact ih.trans hstep.keeps

end Store
end ClassCompiler
