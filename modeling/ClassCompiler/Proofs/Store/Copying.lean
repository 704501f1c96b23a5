import ClassCompiler.Proofs.Store.Folding
import ClassCompiler.Proofs.Store.Numbering

/-!
# Flattening, rebuilding and copying

A tree is flattened into a store, rebuilt from a node of a store, and copied inside a store.  Each
of these undoes or repeats another: what was flattened is rebuilt as it was, and a copy is rebuilt
as its original is.

A store need not be one that was flattened, and its links need not agree: all that is asked of a
node is that there is a tree below it, `Store.Holds`.  On the way down from a node no number can
come twice, since the same number has the same tree below it, and a tree is not a part of itself.
So the way is no longer than the store has nodes, which is how far reading goes.

The copy is made by a function that rebuilds the tree first and then plants it.  One can also follow
the links and copy node after node, in a store that grows meanwhile; `Store.copyNodes` does, and it
ends with the same store.

* `Store.treeAt_eq_ok_iff`: the tree below a node is read if there is one.
* `Store.copyNodes_eq`: copying node by node.
* `Store.flatten_rebuild_copy`: the three together.
-/

namespace ClassCompiler

namespace Tree

variable {α β : Type}

theorem mapAll_eq_map (f : α → β) (ts : List (Tree α)) : mapAll f ts = ts.map (map f) := by
  induction ts with
  | nil => rfl
  | cons t ts ih => rw [mapAll, ih, List.map_cons]

theorem size_pos (t : Tree α) : 0 < t.size := by
  cases t with
  | node a ts => exact Nat.succ_pos _

theorem source_node (n : Numbered) (ts : List Ast) :
    (node n ts).source = node n.toNode (ts.map source) := by
  rw [source, map, mapAll_eq_map]
  rfl

theorem size_source (t : Ast) : t.source.size = t.size := by
  induction t using Tree.induction with
  | node n ts ih =>
    have hall : sizeAll (ts.map source) = sizeAll ts := by
      induction ts with
      | nil => rfl
      | cons t ts ihs =>
        rw [List.map_cons, sizeAll, sizeAll, ih t List.mem_cons_self,
          ihs fun u hu => ih u (List.mem_cons_of_mem t hu)]
    rw [source_node, size, size, hall]

theorem ids_numberAll {ts : List Source}
    (h : ∀ t ∈ ts, ∀ next, (t.number next).preorder.map Numbered.id = List.range' next t.size) :
    ∀ next, (preorderAll (numberAll next ts)).map Numbered.id = List.range' next (sizeAll ts) := by
  induction ts with
  | nil => exact fun _ => rfl
  | cons t ts ih =>
    intro next
    rw [numberAll, preorderAll, List.map_append, h t List.mem_cons_self,
      ih fun u hu => h u (List.mem_cons_of_mem t hu), sizeAll, List.range'_append_1]

/-- The numbers of a numbered tree follow one another. -/
theorem ids_number (t : Source) :
    ∀ next, (t.number next).preorder.map Numbered.id = List.range' next t.size := by
  induction t using Tree.induction with
  | node n ts ih =>
    intro next
    rw [number, preorder, List.map_cons, ids_numberAll ih, size, List.range'_succ]

theorem size_le_of_mem_subtrees {t u : Ast} (h : u ∈ t.subtrees) : u.size ≤ t.size := by
  rw [← length_preorder, ← length_preorder]
  exact (preorder_sublist h).length_le

end Tree

namespace Store

variable {s s' : Store} {t u : Ast} {ts : List Ast} {n : Numbered} {id parent depth : Nat}

/-! ## Reading -/

/-- A number has one tree below it. -/
theorem Holds.eq_of_id (h : s.Holds t) (hu : s.Holds u) (hid : t.id = u.id) : t = u := by
  have ht := h.treeWithin (Nat.le_max_left t.size u.size)
  rw [hid, hu.treeWithin (Nat.le_max_right t.size u.size)] at ht
  exact (Option.some.inj ht).symm

/-- A node is not below itself. -/
theorem Holds.id_not_mem (h : s.Holds (.node n ts)) (hu : u ∈ ts) :
    n.id ∉ u.preorder.map Numbered.id := by
  intro hmem
  rw [Tree.preorder_eq_map, List.map_map] at hmem
  obtain ⟨v, hv, hid⟩ := List.mem_map.mp hmem
  have hsub : v ∈ (Tree.node n ts).subtrees := Tree.mem_subtrees_of_child hu hv
  have heq : v = .node n ts := (h.subtree hsub).eq_of_id h hid
  have hsmall : v.size < (Tree.node n ts).size :=
    Nat.lt_succ_of_le (Nat.le_trans (Tree.size_le_of_mem_subtrees hv) (Tree.size_le_sizeAll hu))
  rw [heq] at hsmall
  exact Nat.lt_irrefl _ hsmall

/-- A tree is read if there are as many levels left as there are nodes that are not above it. -/
theorem Holds.treeWithin_of_above (h : s.Holds t) {above : List Nat} (hnodup : above.Nodup)
    (habove : ∀ a ∈ above, a < s.size ∧ a ∉ t.preorder.map Numbered.id)
    (hdepth : s.size ≤ above.length + depth) : s.treeWithin depth t.id = some t := by
  induction h generalizing depth above with
  | @node n ts has all ih =>
    have hnew : n.id ∉ above := fun hmem => (habove n.id hmem).2 List.mem_cons_self
    have hnodup : (n.id :: above).Nodup := List.nodup_cons.mpr ⟨hnew, hnodup⟩
    have hlt : ∀ a ∈ n.id :: above, a < s.size := by
      intro a ha
      rcases List.mem_cons.mp ha with rfl | ha
      · exact has.lt_size
      · exact (habove a ha).1
    have hlength := (hnodup.subperm fun a ha => List.mem_range.mpr (hlt a ha)).length_le
    rw [List.length_range, List.length_cons] at hlength
    obtain ⟨depth, rfl⟩ : ∃ d, depth = d + 1 := ⟨depth - 1, by omega⟩
    have hchildren : ∀ u ∈ ts, s.treeWithin depth u.id = some u := by
      intro u hu
      refine ih u hu hnodup (fun a ha => ⟨hlt a ha, ?_⟩) (by rw [List.length_cons]; omega)
      rcases List.mem_cons.mp ha with rfl | ha
      · exact (Holds.node has all).id_not_mem hu
      · intro hmem
        refine (habove a ha).2 (List.mem_cons_of_mem _ ?_)
        rw [Tree.preorderAll_eq_flatMap, List.map_flatMap]
        exact List.mem_flatMap.mpr ⟨u, hu, hmem⟩
    obtain ⟨cell, hcell, hnode, hlinks⟩ := has
    refine treeWithin_succ.mpr ⟨cell, ts, cell_eq_ok.mp hcell, ?_, by rw [hnode]; rfl⟩
    rw [hlinks]
    exact mapM_treeWithin_eq_some hchildren

/-- **The tree below a node is read if and only if there is one**, in every store. -/
theorem treeAt_eq_ok_iff : s.treeAt id = .ok t ↔ s.Holds t ∧ t.id = id := by
  rw [treeAt_eq_ok]
  refine ⟨fun h => ⟨holds_of_treeWithin h, id_of_treeWithin h⟩, ?_⟩
  rintro ⟨h, rfl⟩
  exact h.treeWithin_of_above List.nodup_nil (fun _ ha => absurd ha List.not_mem_nil) (by simp)

/-! ## Copying node by node -/

/-- Copies the tree below a node, down to `depth` levels: the node first, then each of its children,
whose copy is hung below that of the node as soon as it is there. -/
def copyNodes : Nat → Nat → Store → Option (Store × Nat)
  | 0, _, _ => none
  | depth + 1, id, s => do
    let c ← s.cells[id]?
    let grown ← c.children.foldlM
      (fun s' child => (copyNodes depth child s').map fun copied =>
        copied.1.attach s.size copied.2) (s.add c.node).1
    return (grown, s.size)

theorem snd_plant (s : Store) (t : Source) : (s.plant t).2 = s.size := by
  cases t with
  | node n ts => rfl

theorem setParent_extend (cell : Cell) (cells : List Cell) (parent : Option Nat) :
    (s.extend (cell :: cells)).setParent s.size parent =
      s.extend ({ cell with parent } :: cells) := by
  refine eq_of_cells fun j => ?_
  rw [setParent, cells_update, cells_extend, cells_extend]
  by_cases hj : s.size = j
  · subst hj
    rw [if_pos rfl, if_neg (Nat.lt_irrefl _), if_neg (Nat.lt_irrefl _), Nat.sub_self]
    rfl
  · rw [if_neg hj]
    split
    · rfl
    · obtain ⟨k, hk⟩ : ∃ k, j - s.size = k + 1 := ⟨j - s.size - 1, by omega⟩
      rw [hk, List.getElem?_cons_succ, List.getElem?_cons_succ]

/-- To plant a tree and then hang it below a node is to hang it there at once. -/
theorem attach_plant (h : parent < s.size) (t : Source) :
    (s.plant t).1.attach parent s.size = s.graft parent t := by
  rw [graft_eq t h, plant_eq, attach]
  cases t with
  | node n ts =>
    rw [cellsOf, setParent_extend, relist_extend h, cellsOf]

/-- A tree that is hung below a node changes no other node. -/
theorem cells_graft (h : parent < s.size) (t : Source) {j : Nat} (hj : j < s.size)
    (hne : parent ≠ j) : (s.graft parent t).cells[j]? = s.cells[j]? := by
  rw [graft_eq t h, cells_extend, size_relist, if_pos hj, relist, cells_update, if_neg hne]

theorem unchanged_of_cells (h : s'.cells[id]? = s.cells[id]?) : s.Unchanged s' id := by
  rw [Unchanged, nodeOf?, nodeOf?, childrenOf, childrenOf, h]
  exact ⟨rfl, rfl⟩

/-- The children of a node, whose copies are hung below its copy one after another.  They are read
in a store that has grown by the copies of those before them. -/
theorem foldlM_copyNodes
    (hts : ∀ t ∈ ts, ∀ {s : Store}, s.Holds t → copyNodes depth t.id s = some (s.plant t.source))
    (hparent : parent < s.size) (hholds : ∀ t ∈ ts, s.Holds t)
    (hapart : ∀ t ∈ ts, parent ∉ t.preorder.map Numbered.id) :
    (ts.map Tree.id).foldlM (fun s' child => (copyNodes depth child s').map fun copied =>
        copied.1.attach parent copied.2) s =
      some (s.graftAll parent (ts.map Tree.source)) := by
  induction ts generalizing s with
  | nil => rfl
  | cons t ts ih =>
    have hfirst : (copyNodes depth t.id s).map (fun copied => copied.1.attach parent copied.2) =
        some (s.graft parent t.source) := by
      rw [hts t List.mem_cons_self (hholds t List.mem_cons_self), Option.map_some, snd_plant,
        attach_plant hparent]
    have hsame : ∀ u ∈ ts, (s.graft parent t.source).Holds u := by
      intro u hu
      have hold := hholds u (List.mem_cons_of_mem t hu)
      refine hold.congr fun n hn =>
        unchanged_of_cells (cells_graft hparent _ (hold.lt_size n hn) ?_)
      rintro rfl
      exact hapart u (List.mem_cons_of_mem t hu) (List.mem_map_of_mem hn)
    have hgrown : parent < (s.graft parent t.source).size := by
      rw [graft_eq _ hparent, size_extend, size_relist]
      omega
    rw [List.map_cons, List.foldlM_cons, hfirst, List.map_cons, graftAll]
    exact ih (fun u hu => hts u (List.mem_cons_of_mem t hu)) hgrown hsame
      fun u hu => hapart u (List.mem_cons_of_mem t hu)

/-- **Copying node by node**, in a store that grows meanwhile, plants the tree. -/
theorem copyNodes_eq (h : s.Holds t) (hsize : t.size ≤ depth) :
    copyNodes depth t.id s = some (s.plant t.source) := by
  induction t using Tree.induction generalizing s depth with
  | node n ts ih =>
    obtain ⟨depth, rfl⟩ := Tree.depth_eq_succ hsize
    have hbelow : ∀ u ∈ ts, s.Holds u := h.children
    have hlt : ∀ u ∈ ts, ∀ m ∈ u.preorder, m.id < s.size := fun u hu => (hbelow u hu).lt_size
    cases h with
    | node has all =>
      obtain ⟨cell, hcell, hnode, hlinks⟩ := has
      have hcell : s.cells[(Tree.node n ts).id]? = some cell := cell_eq_ok.mp hcell
      have hchildren : _ = some ((s.add n.toNode).1.graftAll s.size (ts.map Tree.source)) :=
        foldlM_copyNodes (fun u hu s hs => ih u hu hs (Tree.size_le_of_mem hsize hu))
          (by rw [size_add]; omega)
          (fun u hu => (hbelow u hu).congr fun m hm => unchanged_of_cells (by
            rw [cells_add, if_neg (Nat.ne_of_lt (hlt u hu m hm))]))
          (fun u hu hmem => by
            obtain ⟨m, hm, heq⟩ := List.mem_map.mp hmem
            exact Nat.ne_of_lt (hlt u hu m hm) heq)
      rw [copyNodes, hcell, Option.bind_eq_bind, Option.bind_some, hnode, hlinks, hchildren,
        Tree.source_node]
      rfl

/-! ## What planting leaves -/

theorem size_plant (s : Store) (t : Source) : (s.plant t).1.size = s.size + t.size := by
  rw [plant_eq, size_extend, length_cellsOf]

theorem cells_plant (s : Store) (t : Source) {j : Nat} (hj : j < s.size) :
    (s.plant t).1.cells[j]? = s.cells[j]? := by
  rw [plant_eq, cells_extend, if_pos hj]

theorem detached_plant (h : 0 < s.size) (t : Source) : (s.plant t).1.Detached s.size := by
  refine ⟨?_, ?_, Nat.ne_of_gt h⟩
  · rw [size_plant]
    exact Nat.lt_add_of_pos_right t.size_pos
  · rw [plant_eq]
    cases t with
    | node n ts => rw [cellsOf, parentOf, cells_extend_cons, Option.map_some, Option.getD_some]

/-- A tree that was planted is read, with the numbers that follow those that were there. -/
theorem treeAt_plant (s : Store) (t : Source) :
    (s.plant t).1.treeAt s.size = .ok (t.number s.size) := by
  have hread := treeWithin_extend t s none [] (Nat.le_add_left t.size s.size)
  rw [extend_extend, List.append_nil, ← plant_eq] at hread
  rw [treeAt_eq_ok, size_plant]
  exact hread

theorem preorder_of_treeAt (h : s.treeAt id = .ok t) :
    s.preorder id = .ok (t.preorder.map Numbered.id) := by
  rw [preorder, h]
  rfl

/-- **Flattening, rebuilding and copying.**  A tree that was flattened is rebuilt as it was, and its
nodes have the numbers from zero on, in pre-order.  Wherever there is a tree below a node of a
store, whatever the other links of that store, the tree is copied to a node that stands alone: it is
rebuilt from there as from the original, its nodes are new and have the numbers that follow those
that were there, in pre-order, and no node that was there has changed.  To copy node by node comes
to the same store. -/
theorem flatten_rebuild_copy :
    (∀ t : Source, (ofSource t).preorder root = .ok (List.range (ofSource t).size) ∧
      ∃ rebuilt, (ofSource t).treeAt root = .ok rebuilt ∧ rebuilt.source = t) ∧
    ∀ (s : Store) (t : Ast), s.Holds t →
      s.treeAt t.id = .ok t ∧
      ∃ s', s.copy t.id = .ok (s', s.size) ∧ s'.Detached s.size ∧
        (∃ rebuilt, s'.treeAt s.size = .ok rebuilt ∧ rebuilt.source = t.source) ∧
        s'.preorder s.size = .ok (List.range' s.size t.size) ∧ s'.size = s.size + t.size ∧
        (∀ id < s.size, s'.cells[id]? = s.cells[id]?) ∧
        ∀ depth, t.size ≤ depth → copyNodes depth t.id s = some (s', s.size) := by
  refine ⟨fun t => ⟨?_, t.number 0, treeAt_ofSource t, t.source_number 0⟩, fun s t h => ?_⟩
  · rw [preorder_of_treeAt (treeAt_ofSource t), Tree.ids_number, size_ofSource,
      List.range_eq_range']
  · have hread : s.treeAt t.id = .ok t := treeAt_eq_ok_iff.mpr ⟨h, rfl⟩
    have hplant : s.plant t.source = ((s.plant t.source).1, s.size) :=
      Prod.ext rfl (snd_plant s t.source)
    have hcopy : s.copy t.id = .ok (s.plant t.source) := by
      rw [copy, hread]
      rfl
    have hsome : 0 < s.size := by
      cases h with
      | node has _ => exact Nat.zero_lt_of_lt has.lt_size
    refine ⟨hread, (s.plant t.source).1, ?_, detached_plant hsome _,
      ⟨_, treeAt_plant s _, Tree.source_number _ _⟩, ?_, ?_, fun _ => cells_plant s _, ?_⟩
    · rw [hcopy, ← hplant]
    · rw [preorder_of_treeAt (treeAt_plant s _), Tree.ids_number, Tree.size_source]
    · rw [size_plant, Tree.size_source]
    · intro depth hdepth
      rw [copyNodes_eq h hdepth, ← hplant]

/-- The product in `scaledStore`, with the numbers that its nodes have there. -/
def scaledProduct : Ast :=
  .node ⟨⟨.binary .mul, {}, []⟩, 2⟩ [
    .node ⟨⟨.parenthesis, {}, []⟩, 3⟩ [
      .node ⟨⟨.binary .add, {}, []⟩, 4⟩ [
        .node ⟨⟨.integer 1, {}, []⟩, 5⟩ [],
        .node ⟨⟨.integer 2, {}, []⟩, 6⟩ []]],
    .node ⟨⟨.identifier "y", {}, []⟩, 7⟩ []]

theorem scaledProduct_copied :
    scaledStore.Holds scaledProduct ∧
      ∃ s', scaledStore.copy 2 = .ok (s', 8) ∧ s'.parentOf 8 = none ∧
        s'.preorder 8 = .ok [8, 9, 10, 11, 12, 13] ∧
        (∃ rebuilt, s'.treeAt 8 = .ok rebuilt ∧ rebuilt.source = scaledProduct.source) ∧
        ∀ id < 8, s'.cells[id]? = scaledStore.cells[id]? := by
  have hread : scaledStore.treeAt 2 = .ok scaledProduct := rfl
  have hholds : scaledStore.Holds scaledProduct := (treeAt_eq_ok_iff.mp hread).1
  obtain ⟨-, s', hcopy, hdetached, hrebuilt, hpreorder, -, hframe, -⟩ :=
    flatten_rebuild_copy.2 scaledStore scaledProduct hholds
  exact ⟨hholds, s', hcopy, hdetached.parent, hpreorder, hrebuilt, hframe⟩

end Store
end ClassCompiler
