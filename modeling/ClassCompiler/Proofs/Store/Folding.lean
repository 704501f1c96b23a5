import Mathlib.Data.List.Flatten
import ClassCompiler.Proofs.Constant.Replacement

/-!
# Folding below a node of a store

Folding reads the tree below a node, folds it, and redoes the log in the store.  Each entry of the
log replaces a node that hangs in the tree as it is by then, so none is passed over, and the store
ends with the folded tree.  What is known of the folded tree can then be read off the store: slot by
slot, and again when the same node is folded once more.

* `Bears.subtree`, `Bears.eval`: a store that has a tree has its subtrees, and evaluates them.
* `Redone`: the store in which a log is redone has a tree.
* `Redone.rewrites`: what a chain of rewrites logs can be redone.
* `fold_inPlace`: the same store is reached by replacing the nodes one by one, in their place.
* `SlotFolded`: what a slot held, and what it holds after folding.
* `fold_exact`: folding agrees with evaluation, and is complete in one pass.
-/

namespace ClassCompiler

open Constant (Bracketed Exact FoldState Known Left Log Rewrites foldPass literal ofKind? replaceBy)
open List (Forall₂)
open ClassCompiler.Tree (Frame fill)

theorem Tree.preorder_sublist {t u : Ast} (h : u ∈ t.subtrees) : u.preorder.Sublist t.preorder := by
  induction t using Tree.induction with
  | node n ts ih =>
    rcases Tree.mem_subtrees_node.mp h with rfl | ⟨t, ht, hu⟩
    · exact .refl _
    · have hchild : t.preorder.Sublist (ts.flatMap Tree.preorder) := by
        have hsub := (List.singleton_sublist.mpr ht).flatMap Tree.preorder
        rwa [List.flatMap_singleton] at hsub
      rw [Tree.preorder, Tree.preorderAll_eq_flatMap]
      exact ((ih t ht hu).trans hchild).cons n

namespace Store

variable {s : Store} {depth : Nat} {n : Numbered} {t u : Ast} {ts : List Ast} {F : Frame}
  {C : List Frame} {st : FoldState}

/-! ## Reading subtrees -/

theorem Holds.subtree (h : s.Holds t) (hu : u ∈ t.subtrees) : s.Holds u := by
  induction h with
  | @node n ts has all ih =>
    rcases Tree.mem_subtrees_node.mp hu with rfl | ⟨t, ht, hu⟩
    · exact .node has all
    · exact ih t ht hu

theorem Bears.subtree (h : s.Bears t) (hu : u ∈ t.subtrees) : s.Bears u where
  linked := h.linked
  holds := h.holds.subtree hu
  nodup := h.nodup.sublist ((Tree.preorder_sublist hu).map _)

theorem mapM_treeUpTo (h : ∀ t ∈ ts, s.treeUpTo depth t.id = .ok t) :
    (ts.map Tree.id).mapM (s.treeUpTo depth) = .ok ts := by
  induction ts with
  | nil => rfl
  | cons t ts ih =>
    rw [List.map_cons, List.mapM_cons, h t List.mem_cons_self,
      ih fun u hu => h u (List.mem_cons_of_mem t hu)]
    rfl

/-- A tree that is in the store is read whole, as deep as it goes. -/
theorem Holds.treeUpTo (h : s.Holds t) (hsize : t.size ≤ depth) :
    s.treeUpTo depth t.id = .ok t := by
  induction h generalizing depth with
  | @node n ts has _ ih =>
    obtain ⟨depth, rfl⟩ := Tree.depth_eq_succ hsize
    obtain ⟨c, hcell, hnode, hchildren⟩ := has
    have hread := mapM_treeUpTo fun u hu => ih u hu (Tree.size_le_of_mem hsize hu)
    have hcell' : s.cell (Tree.node n ts).id = .ok c := hcell
    simp only [Store.treeUpTo, hcell', hchildren, hread, hnode, bind, Except.bind]
    rfl

theorem Bears.eval (h : s.Bears t) (ρ : Known) : s.eval ρ t.id = .ok (Constant.eval ρ t) := by
  rw [Store.eval, h.holds.treeUpTo h.size_le]
  rfl

theorem Bears.child (h : s.Bears t) (hu : u ∈ t.children) : s.Bears u := by
  cases t with
  | node n ts => exact h.subtree (Tree.mem_subtrees_of_child hu (Tree.self_mem_subtrees u))

theorem Bears.treeAt (h : s.Bears t) : s.treeAt t.id = .ok t :=
  treeAt_eq_ok.mpr (h.holds.treeWithin h.size_le)

theorem bears_of_treeAt {id : Nat} (h : s.Linked) (ht : s.treeAt id = .ok t) :
    s.Bears t ∧ t.id = id := by
  have hread := treeAt_eq_ok.mp ht
  exact ⟨⟨h, holds_of_treeWithin hread, preorder_nodup h hread⟩, id_of_treeWithin hread⟩

theorem Bears.childrenOf (h : s.Bears t) : s.childrenOf t.id = t.children.map Tree.id := by
  cases h.holds with
  | node has all => exact (has_iff.mp has).2

theorem Bears.cell (h : s.Bears t) : ∃ c, s.cell t.id = .ok c ∧ c.node.kind = t.kind := by
  cases h.holds with
  | node has all =>
    obtain ⟨c, hcell, hnode, -⟩ := has
    exact ⟨c, hcell, by rw [hnode]; rfl⟩

/-! ## Redoing a log -/

theorem redo_concat (s : Store) (edits : List Constant.Edit) (e : Constant.Edit) :
    s.redo (edits ++ [e]) = ((s.redo edits).replaceByLiteral e).toOption.getD (s.redo edits) := by
  rw [redo_append]
  rfl

/-- A node below another is replaced by a literal. -/
theorem Bears.replaceByLiteral (h : s.Bears (fill (.node n ts) (F :: C))) (value : Constant) :
    ∃ s', s.replaceByLiteral ⟨n.id, value⟩ = .ok s' ∧ s'.size = s.size + 1 ∧
      s'.Bears (fill (literal s.size n value) (F :: C)) := by
  have hnode : s.Holds (.node n ts) := Holds.of_fill (C := F :: C) h.holds
  cases hnode with
  | node has all =>
    obtain ⟨c, hcell, hnode, -⟩ := has
    obtain ⟨s', hreplace, hsize, hbears⟩ := h.replace
      (n := { kind := value.kind, position := n.position, id := s.size }) rfl
    refine ⟨s', ?_, hsize, hbears⟩
    simp only [Store.replaceByLiteral, hcell, hnode, bind, Except.bind]
    exact hreplace

/-- The store in which the log is redone has a tree, and its next number is that of the log. -/
structure Redone (s : Store) (st : FoldState) (t : Ast) : Prop where
  bears : (s.redo st.log.edits).Bears t
  next : st.log.next = (s.redo st.log.edits).size

theorem Redone.of_log {st' : FoldState} (h : s.Redone st t) (hlog : st'.log = st.log) :
    s.Redone st' t := by
  refine ⟨?_, ?_⟩
  · rw [hlog]
    exact h.bears
  · rw [hlog]
    exact h.next

theorem Redone.replace (h : s.Redone st (fill (.node n ts) (F :: C))) (value : Constant) :
    s.Redone ((replaceBy n value).lift.run st).2
      (fill ((replaceBy n value).lift.run st).1 (F :: C)) := by
  obtain ⟨s', hreplace, hsize, hbears⟩ := h.bears.replaceByLiteral value
  have hredo : s.redo ((replaceBy n value).lift.run st).2.log.edits = s' := by
    show s.redo (st.log.edits ++ [⟨n.id, value⟩]) = s'
    rw [redo_concat, hreplace]
    rfl
  have htree : ((replaceBy n value).lift.run st).1 =
      literal (s.redo st.log.edits).size n value := by
    show literal st.log.next n value = _
    rw [h.next]
  refine ⟨?_, ?_⟩
  · rw [hredo, htree]
    exact hbears
  · rw [hredo, hsize, ← h.next]
    rfl

/-- **A chain of rewrites can be redone in a store** that has the tree it starts from. -/
theorem Redone.rewrites {p p' : Ast × Log} (h : s.Redone { log := p.2 } p.1) (hp : Rewrites p p') :
    s.Redone { log := p'.2 } p'.1 := by
  induction hp with
  | refl => exact h
  | tail _ hstep ih =>
    cases hstep with
    | replace F C _ => exact ih.replace _

/-- What a pass logs can be redone, and gives the tree that the pass gives. -/
theorem foldPass_redone (h : s.Redone st t) :
    s.Redone ((foldPass t).run st).2 ((foldPass t).run st).1 := by
  have hstart : s.Redone { log := st.log } t := h.of_log rfl
  exact (hstart.rewrites (Constant.foldPass_rewrites t st)).of_log rfl

/-! ## Folding -/

/-- What folding starts with. -/
def foldStart (s : Store) (warned : List Nat) : FoldState :=
  { log := { next := s.size }, warned }

theorem Bears.redone (h : s.Bears t) (warned : List Nat) : s.Redone (s.foldStart warned) t :=
  ⟨h, rfl⟩

/-- Folding a node does what one pass over its tree does. -/
theorem fold_eq {id : Nat} (ht : s.treeAt id = .ok t) (warned : List Nat) :
    s.fold id warned =
      .ok (s.redo ((foldPass t).run (s.foldStart warned)).2.log.edits,
        ((foldPass t).run (s.foldStart warned)).2) := by
  rw [← Constant.fold_eq_foldPass]
  simp only [fold, ht, bind, Except.bind]
  rfl

/-- Where a pass replaces nothing, folding leaves the store as it is. -/
theorem fold_of_log {id : Nat} {warned : List Nat} (ht : s.treeAt id = .ok t)
    (hlog : ((foldPass t).run (s.foldStart warned)).2.log = (s.foldStart warned).log) :
    ∃ state, s.fold id warned = .ok (s, state) ∧ state.count = 0 := by
  refine ⟨((foldPass t).run (s.foldStart warned)).2, ?_, ?_⟩
  · rw [fold_eq ht, hlog]
    rfl
  · rw [FoldState.count, hlog]
    rfl

/-- **Folding in its place.**  Below any node of a store, to walk through the nodes and to replace
them on the way does what folding the tree and redoing the log does, as long as the numbers last:
the store is the same, and so is all that folding keeps. -/
theorem fold_inPlace (hs : s.Linked) {r : Nat} (ht : s.treeAt r = .ok t)
    (hroom : s.size + t.replaceable ≤ numberLimit) (warned : List Nat) :
    ∃ s' state, s.fold r warned = .ok (s', state) ∧
      OnStore.fold r ⟨s, s.foldStart warned⟩ = .ok (.ok (), ⟨s', state⟩) := by
  obtain ⟨hbears, rfl⟩ := bears_of_treeAt hs ht
  have hsound : OnStore.Sound ⟨t.id, 0, t.replaceable⟩ ⟨s, s.foldStart warned⟩ t :=
    { toBears := hbears
      room := hroom
      root := rfl
      next := rfl
      lower := Nat.le_refl 0
      upper := Nat.le_of_eq (Nat.zero_add _) }
  obtain ⟨s', hwalk, -⟩ := OnStore.fold_reaches hsound
  obtain ⟨edits, hlog, hstore⟩ := OnStore.records_fold t.id _ _ _ hwalk
  refine ⟨s', _, ?_, hwalk⟩
  have hedits : ((Constant.fold t) (s.foldStart warned)).2.log.edits = edits := hlog
  simp only [fold, ht, bind, Except.bind]
  show Except.ok (s.redo ((Constant.fold t) (s.foldStart warned)).2.log.edits, _) = _
  rw [hedits, ← hstore]
  rfl

/-- A slot held one node and holds another after folding.  Both evaluate alike whatever is known,
and the new one is a literal if and only if the old one has a value where nothing is known; the
literal is that value. -/
structure SlotFolded (s s' : Store) (old new : Nat) : Prop where
  eval : ∀ ρ, ∃ value, s.eval ρ old = .ok value ∧ s'.eval ρ new = .ok value
  literal : ∃ c, s'.cell new = .ok c ∧ s.eval [] old = .ok (ofKind? c.node.kind)

theorem slotFolded_of_exact {s' : Store} {t' : Ast} (h : s.Bears t) (h' : s'.Bears t')
    (hexact : Exact t t') : SlotFolded s s' t.id t'.id := by
  refine ⟨fun ρ => ⟨Constant.eval ρ t, h.eval ρ, ?_⟩, ?_⟩
  · rw [h'.eval, hexact.eval_eq]
  · obtain ⟨c, hcell, hkind⟩ := h'.cell
    refine ⟨c, hcell, ?_⟩
    rw [h.eval, hkind, hexact.literal_eq]

/-- The slots of a node that folding left, before and after. -/
theorem slots_of_left {s' : Store} {t' u' : Ast} (h : s.Bears t) (h' : s'.Bears t')
    (hu' : u' ∈ t'.subtrees) (hleft : Left s.size t u') :
    Forall₂ (SlotFolded s s') (s.childrenOf u'.id) (s'.childrenOf u'.id) := by
  have hnew : s'.Bears u' := h'.subtree hu'
  rw [hnew.childrenOf]
  cases hleft with
  | literal hfresh hleaf =>
    rw [childrenOf_of_le hfresh, hleaf]
    exact .nil
  | @node u _ hu hlabel hslots =>
    have hold : s.Bears u := h.subtree hu
    have hid : u'.id = u.id := congrArg Numbered.id hlabel.symm
    have hboth : Forall₂ (fun c' c => s'.Bears c' ∧ s.Bears c ∧ Exact c c')
        u'.children u.children := by
      refine (List.forall₂_and_left _ _).mpr ⟨fun c' hc' => hnew.child hc', ?_⟩
      exact ((List.forall₂_and_left _ _).mpr ⟨fun c hc => hold.child hc, hslots⟩).flip
    rw [hid, hold.childrenOf, List.forall₂_map_left_iff, List.forall₂_map_right_iff]
    exact hboth.flip.imp fun c c' hc => slotFolded_of_exact hc.2.1 hc.1 hc.2.2

/-- **Folding agrees with evaluation, and is complete in one pass.**  Fold the tree below any node
of a store, in which every parenthesis holds one expression, whatever was warned about before.  At
every node that is still below that node, each slot has what belongs to its content.  A second pass
changes neither the tree nor what folding keeps; and to fold the node again, whatever was warned
about by then, replaces nothing and leaves the store as it is. -/
theorem fold_exact {s : Store} (hs : s.Linked) {r : Nat} {t : Ast} (ht : s.treeAt r = .ok t)
    (hone : Bracketed t) (warned : List Nat) :
    ∃ s' state t', s.fold r warned = .ok (s', state) ∧ s'.treeAt r = .ok t' ∧
      (∀ p ∈ t'.preorder.map Numbered.id,
        Forall₂ (SlotFolded s s') (s.childrenOf p) (s'.childrenOf p)) ∧
      (foldPass t).run (s.foldStart warned) = (t', state) ∧
      (foldPass t').run state = (t', state) ∧
      ∀ warned', ∃ state', s'.fold r warned' = .ok (s', state') ∧ state'.count = 0 := by
  obtain ⟨hbears, hid⟩ := bears_of_treeAt hs ht
  have hredone := foldPass_redone (hbears.redone warned)
  have htree := hredone.bears.treeAt
  have hroot : ((foldPass t).run (s.foldStart warned)).1.id = r := by
    rw [← hid]
    cases t with
    | node n ts => rfl
  rw [hroot] at htree
  refine ⟨_, _, _, fold_eq ht warned, htree, ?_, rfl, Constant.foldPass_foldPass t _, ?_⟩
  · intro p hp
    obtain ⟨n, hn, rfl⟩ := List.mem_map.mp hp
    rw [Tree.preorder_eq_map] at hn
    obtain ⟨u', hu', rfl⟩ := List.mem_map.mp hn
    exact slots_of_left hbears hredone.bears hu' (Constant.foldPass_left hone _ u' hu')
  · intro warned'
    exact fold_of_log htree (Constant.foldPass_idle t _ _).log

/-- An assignment of the product of a sum in parentheses and a variable. -/
def scaledSum : Source :=
  .node ⟨.assignment "x", {}, []⟩ [
    .node ⟨.binary .mul, {}, []⟩ [
      .node ⟨.parenthesis, {}, []⟩ [
        .node ⟨.binary .add, {}, []⟩ [
          .node ⟨.integer 1, {}, []⟩ [],
          .node ⟨.integer 2, {}, []⟩ []]],
      .node ⟨.identifier "y", {}, []⟩ []]]

/-- The assignment in a block. -/
def scaledStore : Store :=
  ofSource (.node ⟨.block, {}, []⟩ [scaledSum])

/-- The factors have the numbers `3` and `7` below number `2`.  They are folded, and folding again
replaces nothing. -/
theorem scaledStore_fold :
    ∃ s' state, scaledStore.fold 1 [] = .ok (s', state) ∧ s'.childrenOf 2 = [9, 7] ∧
      SlotFolded scaledStore s' 3 9 ∧ SlotFolded scaledStore s' 7 7 ∧
      ∃ state', s'.fold 1 [] = .ok (s', state') ∧ state'.count = 0 := by
  have hlinked : scaledStore.Linked := linked_ofSource _
  have ht : scaledStore.treeAt 1 = .ok (scaledSum.number 1) := rfl
  have hone : Bracketed (scaledSum.number 1) := by
    unfold Bracketed
    decide
  obtain ⟨s', state, t', hfold, -, hslots, hpass, -, hagain⟩ :=
    fold_exact hlinked ht hone []
  have hmem : 2 ∈ ((foldPass (scaledSum.number 1)).run (scaledStore.foldStart [])).1.preorder.map
      Numbered.id := by decide
  have hstore : (scaledStore.fold 1 []).map (fun result => result.1.childrenOf 2) =
      .ok [9, 7] := rfl
  rw [hpass] at hmem
  rw [hfold] at hstore
  have hchildren : s'.childrenOf 2 = [9, 7] := Except.ok.inj hstore
  have hfactors := hslots 2 hmem
  rw [hchildren, show scaledStore.childrenOf 2 = [3, 7] from rfl] at hfactors
  obtain _ | ⟨hfirst, _ | ⟨hsecond, -⟩⟩ := hfactors
  exact ⟨s', state, hfold, hchildren, hfirst, hsecond, hagain []⟩

end Store
end ClassCompiler
