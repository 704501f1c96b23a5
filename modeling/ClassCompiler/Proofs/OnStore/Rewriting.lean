import Mathlib.Data.List.Perm.Basic
import Mathlib.Data.List.Nodup
import ClassCompiler.Proofs.OnStore.Reading
import ClassCompiler.Proofs.Store.Change

/-!
# Replacing nodes where they are stored

A tree that is optimized in its place is changed in the middle: while one node is looked at, all
that is around it waits.  What is around a tree is a list of frames, the innermost one first, and
`fill` puts a tree back into it.  So a change at one place is a change of the tree that fills the
frames.

* `Store.Bears`, `Store.Bears.replace`: a store that has a tree still has it, but for one literal,
  after a new node took the place of another.
* `InPlace`: computations that change a store.  They may break off, and they may end with an error;
  after an error the store is as it was when the error arose.
* `Records`: what a computation does to a store can be redone from its log.
* `Roomy`, `Fit`: the store has a tree, and there are numbers enough for all nodes of it that may
  still be replaced.
* `replaceAt_reaches`: a node that is no literal and not the root is replaced without breaking off,
  and the store has the tree with the literal in its place.
-/

namespace ClassCompiler

open Constant (Edit Folding FoldState)

/-! ## What is around a tree -/

namespace Tree

/-- A node around a tree, with the trees to both sides. -/
structure Frame where
  label : Numbered
  left : List Ast
  right : List Ast

/-- The tree that fills the frames, put back into them. -/
def fill (t : Ast) : List Frame → Ast
  | [] => t
  | F :: C => fill (.node F.label (F.left ++ t :: F.right)) C

@[simp] theorem fill_nil (t : Ast) : fill t [] = t := rfl

/-- The nodes of the frames. -/
def around : List Frame → List Numbered
  | [] => []
  | F :: C => F.label :: (preorderAll F.left ++ preorderAll F.right ++ around C)

theorem preorderAll_append (ts us : List Ast) :
    preorderAll (ts ++ us) = preorderAll ts ++ preorderAll us := by
  simp only [preorderAll_eq_flatMap, List.flatMap_append]

theorem length_preorder (t : Ast) : t.preorder.length = t.size := by
  induction t using Tree.induction with
  | node n ts ih =>
    have hall : (preorderAll ts).length = sizeAll ts := by
      induction ts with
      | nil => rfl
      | cons t ts ihs =>
        rw [preorderAll, sizeAll, List.length_append, ih t List.mem_cons_self,
          ihs fun u hu => ih u (List.mem_cons_of_mem t hu)]
    rw [preorder, size, List.length_cons, hall]

/-- The nodes of a tree in its frames are its own and those of the frames. -/
theorem preorder_fill_perm (t : Ast) (C : List Frame) :
    (fill t C).preorder.Perm (t.preorder ++ around C) := by
  induction C generalizing t with
  | nil => rw [fill, around, List.append_nil]
  | cons F C ih =>
    refine (ih _).trans (List.perm_iff_count.mpr fun n => ?_)
    simp only [preorder, preorderAll_append, preorderAll, around, List.count_append,
      List.count_cons]
    omega

theorem id_fill (t t' : Ast) (h : t.id = t'.id) (C : List Frame) :
    (fill t C).id = (fill t' C).id := by
  induction C generalizing t t' with
  | nil => exact h
  | cons F C ih => exact ih _ _ rfl

theorem id_fill_cons (t t' : Ast) (F : Frame) (C : List Frame) :
    (fill t (F :: C)).id = (fill t' (F :: C)).id :=
  id_fill (.node F.label (F.left ++ t :: F.right)) (.node F.label (F.left ++ t' :: F.right)) rfl C

theorem id_mem_preorder (t : Ast) : t.id ∈ t.preorder.map Numbered.id := by
  cases t with
  | node n ts => exact List.mem_cons_self

/-- The root of a tree in its frames is the node of one of them. -/
theorem id_fill_cons_mem (t : Ast) (F : Frame) (C : List Frame) :
    (fill t (F :: C)).id ∈ (around (F :: C)).map Numbered.id := by
  induction C generalizing t F with
  | nil => exact List.mem_cons_self
  | cons G C ih =>
    obtain ⟨n, hn, hid⟩ := List.mem_map.mp (ih (.node F.label (F.left ++ t :: F.right)) G)
    exact List.mem_map.mpr ⟨n, List.mem_cons_of_mem _ (List.mem_append_right _ hn), hid⟩

/-- The number of nodes that are no literals. -/
def replaceable (t : Ast) : Nat :=
  t.preorder.countP fun n => (Constant.ofKind? n.kind).isNone

theorem replaceable_fill (t : Ast) (C : List Frame) :
    (fill t C).replaceable =
      t.replaceable + (around C).countP fun n => (Constant.ofKind? n.kind).isNone := by
  rw [replaceable, (preorder_fill_perm t C).countP_eq, List.countP_append, replaceable]

end Tree

open ClassCompiler.Tree (Frame fill around)

namespace Store

variable {s s' : Store} {id old new p : Nat} {n : Numbered} {t t' : Ast} {ts : List Ast}
  {C : List Frame}

theorem has_iff :
    s.Has n ts ↔ s.nodeOf? n.id = some n.toNode ∧ s.childrenOf n.id = ts.map Tree.id := by
  constructor
  · rintro ⟨c, hcell, hnode, hchildren⟩
    rw [cell_eq_ok] at hcell
    exact ⟨by rw [nodeOf?, hcell, Option.map_some, hnode],
      by rw [childrenOf_of_cell hcell, hchildren]⟩
  · rintro ⟨hnode, hchildren⟩
    obtain ⟨c, hcell, hnode⟩ := Option.map_eq_some_iff.mp hnode
    exact ⟨c, cell_eq_ok.mpr hcell, hnode, by rw [← hchildren, childrenOf_of_cell hcell]⟩

theorem Has.lt_size (h : s.Has n ts) : n.id < s.size := by
  obtain ⟨c, hcell, -⟩ := h
  exact lt_size_of_cell (cell_eq_ok.mp hcell)

/-- A node is what it was, with the children that it had. -/
def Unchanged (s s' : Store) (id : Nat) : Prop :=
  s'.nodeOf? id = s.nodeOf? id ∧ s'.childrenOf id = s.childrenOf id

theorem Has.congr (h : s.Has n ts) (hsame : s.Unchanged s' n.id) : s'.Has n ts := by
  rw [has_iff] at h ⊢
  exact ⟨hsame.1.trans h.1, hsame.2.trans h.2⟩

theorem Holds.congr (h : s.Holds t) (hsame : ∀ n ∈ t.preorder, s.Unchanged s' n.id) :
    s'.Holds t := by
  induction h with
  | @node n ts has all ih =>
    rw [Tree.preorder, Tree.preorderAll_eq_flatMap] at hsame
    refine .node (has.congr (hsame n List.mem_cons_self)) fun t ht => ih t ht fun m hm => ?_
    exact hsame m (List.mem_cons_of_mem n (List.mem_flatMap.mpr ⟨t, ht, hm⟩))

theorem Holds.lt_size (h : s.Holds t) : ∀ n ∈ t.preorder, n.id < s.size := by
  induction h with
  | @node n ts has all ih =>
    intro m hm
    rw [Tree.preorder, Tree.preorderAll_eq_flatMap] at hm
    rcases List.mem_cons.mp hm with rfl | hm
    · exact has.lt_size
    · obtain ⟨t, ht, hm⟩ := List.mem_flatMap.mp hm
      exact ih t ht m hm

/-- The store has what fills the frames. -/
theorem Holds.of_fill (h : s.Holds (fill t C)) : s.Holds t := by
  induction C generalizing t with
  | nil => exact h
  | cons F C ih => exact (ih h).children t (by simp [Tree.children])

/-- Another tree among others below a node, where the nodes of the others are unchanged. -/
theorem Holds.exchange_among {left right : List Ast} (h : ∀ u ∈ left ++ t :: right, s.Holds u)
    (h' : s'.Holds t')
    (hsame : ∀ n ∈ Tree.preorderAll left ++ Tree.preorderAll right, s.Unchanged s' n.id) :
    ∀ u ∈ left ++ t' :: right, s'.Holds u := by
  rw [Tree.preorderAll_eq_flatMap, Tree.preorderAll_eq_flatMap] at hsame
  intro u hu
  rcases List.mem_append.mp hu with hu | hu
  · refine (h u (List.mem_append_left _ hu)).congr fun n hn => hsame n ?_
    exact List.mem_append_left _ (List.mem_flatMap.mpr ⟨u, hu, hn⟩)
  · rcases List.mem_cons.mp hu with rfl | hu
    · exact h'
    · refine (h u (by simp [hu])).congr fun n hn => hsame n ?_
      exact List.mem_append_right _ (List.mem_flatMap.mpr ⟨u, hu, hn⟩)

/-- Another tree in the frames, where the nodes of the frames are unchanged. -/
theorem Holds.fill_congr (h : s.Holds (fill t C)) (h' : s'.Holds t') (hid : t'.id = t.id)
    (hsame : ∀ n ∈ around C, s.Unchanged s' n.id) : s'.Holds (fill t' C) := by
  induction C generalizing t t' with
  | nil => exact h'
  | cons F C ih =>
    rw [around] at hsame
    have hnode : s.Holds (.node F.label (F.left ++ t :: F.right)) := Holds.of_fill (C := C) h
    cases hnode with
    | node has all =>
      refine ih h (.node ?_ fun u hu => ?_) rfl fun m hm =>
        hsame m (List.mem_cons_of_mem _ (List.mem_append_right _ hm))
      · have hids : (F.left ++ t' :: F.right).map Tree.id =
            (F.left ++ t :: F.right).map Tree.id := by
          simp only [List.map_append, List.map_cons, hid]
        have hframe := hsame F.label List.mem_cons_self
        rw [has_iff] at has ⊢
        exact ⟨hframe.1.trans has.1, by rw [hframe.2, has.2, hids]⟩
      · exact Holds.exchange_among all h' (fun m hm =>
          hsame m (List.mem_cons_of_mem _ (List.mem_append_left _ hm))) u hu

/-- A tree in which no number stands twice has no more nodes than the store. -/
theorem Holds.size_le (h : s.Holds t) (hnodup : (t.preorder.map Numbered.id).Nodup) :
    t.size ≤ s.size := by
  have hsub : t.preorder.map Numbered.id ⊆ List.range s.size := by
    intro id hid
    obtain ⟨n, hn, rfl⟩ := List.mem_map.mp hid
    exact List.mem_range.mpr (h.lt_size n hn)
  have hle := (hnodup.subperm hsub).length_le
  rwa [List.length_range, List.length_map, Tree.length_preorder] at hle

theorem idxOf?_append_cons {left right : List Nat} (h : old ∉ left) :
    (left ++ old :: right).idxOf? old = some left.length := by
  rw [List.idxOf?_eq_some_iff]
  refine ⟨by simp, by simp, fun j hj heq => h ?_⟩
  rw [List.getElem_append_left hj] at heq
  exact heq ▸ List.getElem_mem hj

/-- A node that hangs below another is replaced by one that stands alone. -/
theorem replaceNode_eq (h : s.Linked) {left right : List Nat}
    (hchildren : s.childrenOf p = left ++ old :: right) (hnew : s.Detached new) :
    s.replaceNode old new = .ok (s.exchange p left.length old new) := by
  have hmem : old ∈ s.childrenOf p := by simp [hchildren]
  have hnodup := h.listed.nodup p
  obtain ⟨c, hc⟩ := exists_cell (h.child_lt hmem)
  obtain ⟨d, hd⟩ := exists_cell (lt_size_of_mem_childrenOf hmem)
  obtain ⟨f, hf⟩ := exists_cell hnew.lt
  rw [hchildren] at hnodup
  rw [childrenOf_of_cell hd] at hchildren
  have hcparent : c.parent = some p := by rw [← parentOf_of_cell hc, h.listed.mem_iff.mp hmem]
  have hcheck : s.checkDetached new = .ok () := by
    have hnone : f.parent = none := by rw [← parentOf_of_cell hf, hnew.parent]
    simp [checkDetached, cell_eq_ok.mpr hf, hnone, hnew.ne_root, bind, Except.bind, pure,
      Except.pure]
  have hindex : s.indexInParent? old = .ok (some left.length) := by
    have hleft : old ∉ left :=
      fun hold => List.disjoint_of_nodup_append hnodup hold List.mem_cons_self
    simp only [indexInParent?, cell_eq_ok.mpr hc, cell_eq_ok.mpr hd, hcparent, hchildren,
      idxOf?_append_cons hleft, bind, Except.bind, pure, Except.pure]
  have hat : d.children[left.length]? = some old := by simp [hchildren]
  have hrun : (Change.replaceNode old new).run s =
      .ok () (s.exchange p left.length old new) := by
    simp only [Change.replaceNode, Change.replaceChild, EStateM.run, bind, EStateM.bind,
      Change.ask, cell_eq_ok.mpr hc, cell_eq_ok.mpr hd, hcparent, hindex, hcheck, hat]
    rfl
  rw [replaceNode, Change.apply, hrun]
  rfl

/-- The store after a new node took the place of a tree in its frames. -/
theorem holds_exchange {F : Frame}
    (hholds : s.Holds (fill t (F :: C))) (hid : n.id = s.size)
    (hnodup : ((around (F :: C)).map Numbered.id).Nodup) :
    ((s.add n.toNode).1.exchange F.label.id F.left.length t.id s.size).Holds
      (fill (.node n []) (F :: C)) := by
  have hnode : s.Holds (.node F.label (F.left ++ t :: F.right)) :=
    Holds.of_fill (C := C) hholds
  cases hnode with
  | node has all =>
    have hlt := has.lt_size
    obtain ⟨hlabel, hchildren⟩ := has_iff.mp has
    have hdown : ((s.add n.toNode).1.exchange F.label.id F.left.length t.id s.size).childrenOf =
        Function.update s.childrenOf F.label.id
          (F.left.map Tree.id ++ s.size :: F.right.map Tree.id) := by
      rw [childrenOf_exchange (by rw [size_add]; omega), childrenOf_add,
        hchildren]
      simp
    -- only the node around the place has other children than before
    have hsame : ∀ m ∈ Tree.preorderAll F.left ++ Tree.preorderAll F.right ++ around C,
        s.Unchanged ((s.add n.toNode).1.exchange F.label.id F.left.length t.id s.size) m.id := by
      intro m hm
      have hmlt : m.id < s.size := by
        refine hholds.lt_size m ((Tree.preorder_fill_perm t (F :: C)).mem_iff.mpr ?_)
        exact List.mem_append_right _ (List.mem_cons_of_mem _ hm)
      have hne : m.id ≠ F.label.id := by
        intro heq
        exact (List.nodup_cons.mp hnodup).1 (heq ▸ List.mem_map_of_mem hm)
      refine ⟨?_, ?_⟩
      · rw [nodeOf?_exchange, nodeOf?_add _ hmlt]
      · rw [hdown, Function.update_of_ne hne]
    have hnew : ((s.add n.toNode).1.exchange F.label.id F.left.length t.id s.size).Holds
        (.node n []) := by
      refine .node (has_iff.mpr ⟨?_, ?_⟩) fun t ht => absurd ht List.not_mem_nil
      · rw [nodeOf?_exchange, nodeOf?, hid, cells_add, if_pos rfl]
        rfl
      · rw [hdown, hid, Function.update_of_ne (by omega),
          childrenOf_of_le (Nat.le_refl _)]
        rfl
    refine Holds.fill_congr (C := C) hholds (.node ?_ ?_) rfl
      fun m hm => hsame m (List.mem_append_right _ hm)
    · refine has_iff.mpr ⟨?_, ?_⟩
      · rw [nodeOf?_exchange, nodeOf?_add _ hlt, hlabel]
      · rw [hdown, Function.update_self, List.map_append, List.map_cons, Tree.id_node, hid]
    · exact Holds.exchange_among all hnew fun m hm => hsame m (List.mem_append_left _ hm)

/-- The store is linked and has a tree, each node of it once. -/
structure Bears (s : Store) (t : Ast) : Prop where
  linked : s.Linked
  holds : s.Holds t
  nodup : (t.preorder.map Numbered.id).Nodup

namespace Bears

variable {F : Frame}

theorem size_le (h : s.Bears t) : t.size ≤ s.size :=
  h.holds.size_le h.nodup

theorem nodup_append (h : s.Bears (fill t C)) :
    (t.preorder.map Numbered.id ++ (around C).map Numbered.id).Nodup := by
  rw [← List.map_append]
  exact ((Tree.preorder_fill_perm t C).map Numbered.id).nodup_iff.mp h.nodup

theorem nodup_around (h : s.Bears (fill t C)) : ((around C).map Numbered.id).Nodup :=
  h.nodup_append.of_append_right

/-- A tree below another node is not the whole tree. -/
theorem id_ne (h : s.Bears (fill t (F :: C))) : t.id ≠ (fill t (F :: C)).id := by
  intro heq
  refine List.disjoint_of_nodup_append h.nodup_append (Tree.id_mem_preorder t) ?_
  rw [heq]
  exact Tree.id_fill_cons_mem t F C

theorem hangs (h : s.Bears (fill t (F :: C))) :
    s.childrenOf F.label.id = F.left.map Tree.id ++ t.id :: F.right.map Tree.id := by
  have hnode : s.Holds (.node F.label (F.left ++ t :: F.right)) := Holds.of_fill (C := C) h.holds
  cases hnode with
  | node has all => rw [(has_iff.mp has).2, List.map_append, List.map_cons]

/-- **A new node takes the place of a tree** that hangs below another node. -/
theorem replace (h : s.Bears (fill t (F :: C))) (hid : n.id = s.size) :
    ∃ s', (s.add n.toNode).1.replaceNode t.id s.size = .ok s' ∧ s'.size = s.size + 1 ∧
      s'.Bears (fill (.node n []) (F :: C)) := by
  have hstep : Step Bare s (s.add n.toNode).1 := .add n.toNode
  have hadd : (s.add n.toNode).1.Linked := hstep.linked h.linked
  have hnew : (s.add n.toNode).1.Detached s.size := h.linked.detached_add n.toNode
  have hdown : (s.add n.toNode).1.childrenOf F.label.id =
      F.left.map Tree.id ++ t.id :: F.right.map Tree.id :=
    (congrFun (childrenOf_add _) _).trans h.hangs
  have hreplace := replaceNode_eq hadd hdown hnew
  rw [List.length_map] at hreplace
  refine ⟨_, hreplace, by rw [size_exchange, size_add], ?_⟩
  exact {
    linked := by
      refine Hung.linked (.exchange ?_ hnew) hadd
      rw [hdown, List.getElem?_append_right (by simp)]
      simp
    holds := holds_exchange h.holds hid h.nodup_around
    nodup := by
      refine ((Tree.preorder_fill_perm (.node n []) _).map Numbered.id).nodup_iff.mpr ?_
      refine List.nodup_cons.mpr ⟨fun hmem => ?_, h.nodup_around⟩
      obtain ⟨m, hm, heq⟩ := List.mem_map.mp hmem
      have hlt : m.id < s.size := h.holds.lt_size m
        ((Tree.preorder_fill_perm t (F :: C)).mem_iff.mpr (List.mem_append_right _ hm))
      omega }

end Bears

end Store

/-! ## Computations that change a store -/

namespace OnStore

/-- A store that is optimized, and what the passes keep. -/
structure Work where
  store : Store
  state : FoldState

/-- A computation that changes a store: it breaks off, or it ends with a value or an error. -/
def InPlace (α : Type) : Type :=
  Work → Except Abort (Except Error α × Work)

namespace InPlace

variable {α β : Type}

protected def pure (a : α) : InPlace α := fun w =>
  .ok (.ok a, w)

protected def bind (x : InPlace α) (f : α → InPlace β) : InPlace β := fun w =>
  match x w with
  | .ok (.ok a, w) => f a w
  | .ok (.error e, w) => .ok (.error e, w)
  | .error a => .error a

instance : Monad InPlace where
  pure := InPlace.pure
  bind := InPlace.bind

instance : LawfulMonad InPlace := by
  refine LawfulMonad.mk' InPlace ?_ ?_ ?_
  · intro α x
    funext w
    show InPlace.bind x _ w = _
    rw [InPlace.bind]
    rcases x w with a | ⟨e | a, w⟩ <;> rfl
  · intro α β a f
    rfl
  · intro α β γ x f g
    funext w
    show InPlace.bind (InPlace.bind x f) g w = InPlace.bind x _ w
    rw [InPlace.bind, InPlace.bind, InPlace.bind]
    rcases x w with a | ⟨e | a, w⟩ <;> rfl

theorem bind_eq_ok {x : InPlace α} {f : α → InPlace β} {w w' : Work} {b : β}
    (h : (x >>= f) w = .ok (.ok b, w')) :
    ∃ a w₁, x w = .ok (.ok a, w₁) ∧ f a w₁ = .ok (.ok b, w') := by
  change InPlace.bind x f w = _ at h
  unfold InPlace.bind at h
  split at h
  · next a w₁ hfirst => exact ⟨a, w₁, hfirst, h⟩
  · cases h
  · cases h

/-- Breaks off. -/
def stop (a : Abort) : InPlace α := fun _ =>
  .error a

/-- What can be read off the store. -/
def ask (f : Store → ExceptT Abort (Except Error) α) : InPlace α := fun w =>
  match (f w.store).run with
  | .ok (.ok a) => .ok (.ok a, w)
  | .ok (.error a) => .error a
  | .error e => .ok (.error e, w)

theorem ask_eq_ok {f : Store → ExceptT Abort (Except Error) α} {w w' : Work} {a : α}
    (h : ask f w = .ok (.ok a, w')) : f w.store = pure a ∧ w' = w := by
  unfold ask at h
  split at h
  · next hread =>
    cases h
    exact ⟨hread, rfl⟩
  · cases h
  · cases h

/-- A computation on what the passes keep. -/
def onState (x : Folding α) : InPlace α := fun w =>
  .ok (.ok (x w.state).1, ⟨w.store, (x w.state).2⟩)

end InPlace

open InPlace (ask stop onState)
open Store (numberLimit)

/-- The end of a change: its store, or the store as it was with the error.  That a number belongs to
no node is no error of the change. -/
def settle (s : Store) (state state' : FoldState) :
    Except Error Store → Except Abort (Except Error Unit × Work)
  | .ok s' => .ok (.ok (), ⟨s', state'⟩)
  | .error (.noSuchNode id) => .error (.noSuchNode id)
  | .error e => .ok (.error e, ⟨s, state⟩)

/-- Replaces a node by a literal at its position, and notes it in the log. -/
def replaceAt (e : Edit) : InPlace Unit := do
  let n ← ask (labelAt · e.node)
  fun w =>
    if w.store.size < numberLimit then
      let (s, new) := w.store.add { kind := e.value.kind, position := n.position }
      settle s w.state ((Constant.replaceBy n e.value).lift w.state).2 (s.replaceNode e.node new)
    else .error .outOfNumbers

/-! ## The log of a computation -/

/-- What a computation does to the store is in its log: where it ends without an error, to redo what
it adds to the log comes to the same. -/
def Records {α : Type} (x : InPlace α) : Prop :=
  ∀ w a w', x w = .ok (.ok a, w') →
    ∃ edits, w'.state.log.edits = w.state.log.edits ++ edits ∧ w'.store = w.store.redo edits

namespace Records

variable {α β : Type} {x : InPlace α} {f : α → InPlace β}

theorem of_eq {w w' : Work} (hstore : w'.store = w.store)
    (hlog : w'.state.log.edits = w.state.log.edits) :
    ∃ edits, w'.state.log.edits = w.state.log.edits ++ edits ∧ w'.store = w.store.redo edits :=
  ⟨[], by rw [hlog, List.append_nil], hstore⟩

theorem pure (a : α) : Records (Pure.pure a : InPlace α) := by
  intro w b w' h
  cases h
  exact of_eq rfl rfl

theorem stop (a : Abort) : Records (InPlace.stop a : InPlace α) := by
  intro w b w' h
  cases h

theorem ask (g : Store → ExceptT Abort (Except Error) α) : Records (InPlace.ask g) := by
  intro w a w' h
  obtain ⟨-, rfl⟩ := InPlace.ask_eq_ok h
  exact of_eq rfl rfl

theorem onState {y : Folding α} (hlog : ∀ state, (y state).2.log = state.log) :
    Records (InPlace.onState y) := by
  intro w a w' h
  cases h
  exact of_eq rfl (congrArg Constant.Log.edits (hlog w.state))

theorem bind (hx : Records x) (hf : ∀ a, Records (f a)) : Records (x >>= f) := by
  intro w b w' h
  obtain ⟨a, w₁, hfirst, hrest⟩ := InPlace.bind_eq_ok h
  obtain ⟨edits, hlog, hstore⟩ := hx w a w₁ hfirst
  obtain ⟨edits', hlog', hstore'⟩ := hf a w₁ b w' hrest
  refine ⟨edits ++ edits', ?_, ?_⟩
  · rw [hlog', hlog, List.append_assoc]
  · rw [hstore', hstore, Store.redo_append]

theorem forM {ns : List α} {g : α → InPlace PUnit} (hg : ∀ a, Records (g a)) :
    Records (ForM.forM ns g) := by
  induction ns with
  | nil => exact pure ()
  | cons a ns ih => exact bind (hg a) fun _ => ih

end Records

theorem exists_cell_of_labelAt {s : Store} {id : Nat} {n : Numbered}
    (h : (labelAt s id : ExceptT Abort (Except Error) Numbered) = pure n) :
    ∃ c, s.cell id = .ok c ∧ n = { c.node with id } := by
  cases hcell : s.cell id with
  | error e =>
    simp only [labelAt, look, hcell] at h
    cases h
  | ok c =>
    simp only [labelAt, look, hcell] at h
    cases h
    exact ⟨c, rfl, rfl⟩

theorem settle_eq_ok {s : Store} {state state' : FoldState} {result : Except Error Store}
    {w : Work} (h : settle s state state' result = .ok (.ok (), w)) :
    ∃ s', result = .ok s' ∧ w = ⟨s', state'⟩ := by
  unfold settle at h
  split at h
  · cases h
    exact ⟨_, rfl, rfl⟩
  · cases h
  · cases h

/-- A replacement adds one entry to the log. -/
theorem records_replaceAt (e : Edit) : Records (replaceAt e) := by
  intro w a w' h
  obtain ⟨n, w₁, hlabel, hreplace⟩ := InPlace.bind_eq_ok h
  obtain ⟨hlabel, rfl⟩ := InPlace.ask_eq_ok hlabel
  obtain ⟨c, hcell, rfl⟩ := exists_cell_of_labelAt hlabel
  dsimp only at hreplace
  split at hreplace
  · obtain ⟨s', hnode, rfl⟩ := settle_eq_ok hreplace
    have hredone : w₁.store.replaceByLiteral e = .ok s' := by
      simp only [Store.replaceByLiteral, hcell, bind, Except.bind]
      exact hnode
    refine ⟨[e], rfl, ?_⟩
    show s' = (w₁.store.replaceByLiteral e).toOption.getD w₁.store
    rw [hredone]
    rfl
  · cases hreplace

/-! ## Stores that are fit for the work -/

/-- The store has a tree, and numbers are left for all nodes of it that may be replaced. -/
structure Roomy (s : Store) (t : Ast) : Prop extends s.Bears t where
  room : s.size + t.replaceable ≤ numberLimit

/-- The same of the whole tree of the store. -/
structure Fit (s : Store) (t : Ast) : Prop extends Roomy s t where
  root : t.id = Store.root

/-- What a computation keeps to: the root of the tree that it works on, and between what the number
of replacements lies, with those that may still come. -/
structure Bounds where
  root : Nat
  lower : Nat
  upper : Nat

/-- The store has room for a tree, whose new nodes are numbered by the log. -/
structure Sound (b : Bounds) (w : Work) (t : Ast) : Prop extends Roomy w.store t where
  root : t.id = b.root
  next : w.state.log.next = w.store.size
  lower : b.lower ≤ w.state.count
  upper : w.state.count + t.replaceable ≤ b.upper

/-- A computation ends with a result, and leaves a store that is sound for a tree. -/
def Reaches {α : Type} (b : Bounds) (w : Work) (x : InPlace α) (r : Except Error α)
    (state : FoldState) (t : Ast) : Prop :=
  ∃ s, x w = .ok (r, ⟨s, state⟩) ∧ Sound b ⟨s, state⟩ t

namespace Reaches

variable {α β : Type} {b : Bounds} {w : Work} {x : InPlace α} {f : α → InPlace β} {a : α}
  {r : Except Error β} {state state' : FoldState} {t t' : Ast}

theorem pure (h : Sound b w t) (a : α) : Reaches b w (Pure.pure a) (.ok a) w.state t :=
  ⟨w.store, rfl, h⟩

theorem bind (h : Reaches b w x (.ok a) state t)
    (hf : ∀ s, Sound b ⟨s, state⟩ t → Reaches b ⟨s, state⟩ (f a) r state' t') :
    Reaches b w (x >>= f) r state' t' := by
  obtain ⟨s, hrun, hsound⟩ := h
  obtain ⟨s', hrun', hsound'⟩ := hf s hsound
  refine ⟨s', ?_, hsound'⟩
  show InPlace.bind x f w = _
  rw [InPlace.bind, hrun]
  exact hrun'

theorem bind_error {e : Error} (h : Reaches b w x (.error e) state t) :
    Reaches b w (x >>= f) (.error e) state t := by
  obtain ⟨s, hrun, hsound⟩ := h
  refine ⟨s, ?_, hsound⟩
  show InPlace.bind x f w = _
  rw [InPlace.bind, hrun]

theorem ask {g : Store → ExceptT Abort (Except Error) α} (hg : g w.store = Pure.pure a)
    (h : Reaches b w (f a) r state t) : Reaches b w (InPlace.ask g >>= f) r state t := by
  obtain ⟨s, hrun, hsound⟩ := h
  refine ⟨s, ?_, hsound⟩
  show InPlace.bind (InPlace.ask g) f w = _
  rw [InPlace.bind, InPlace.ask, hg]
  exact hrun

theorem ask_error {g : Store → ExceptT Abort (Except Error) α} {e : Error}
    (hg : g w.store = sure (.error e)) (h : Sound b w t) :
    Reaches b w (InPlace.ask g >>= f) (.error e) w.state t := by
  refine ⟨w.store, ?_, h⟩
  show InPlace.bind (InPlace.ask g) f w = _
  rw [InPlace.bind, InPlace.ask, hg]
  rfl

theorem onState {y : Folding α} (hsound : Sound b ⟨w.store, (y w.state).2⟩ t)
    (h : ∀ s, Sound b ⟨s, (y w.state).2⟩ t →
      Reaches b ⟨s, (y w.state).2⟩ (f (y w.state).1) r state' t') :
    Reaches b w (InPlace.onState y >>= f) r state' t' :=
  bind ⟨w.store, rfl, hsound⟩ h

end Reaches

namespace Sound

variable {b : Bounds} {w : Work} {t : Ast}

/-- Nothing but the log matters of what the passes keep. -/
theorem of_log (h : Sound b w t) {state : FoldState} (hlog : state.log = w.state.log) :
    Sound b ⟨w.store, state⟩ t := by
  have hcount : state.count = w.state.count := by rw [FoldState.count, hlog, FoldState.count]
  exact {
    toRoomy := h.toRoomy, root := h.root, next := hlog ▸ h.next, lower := hcount ▸ h.lower,
    upper := hcount ▸ h.upper }

end Sound

/-! ## One replacement -/

theorem Sound.has {b : Bounds} {w : Work} {n : Numbered} {ts : List Ast} {C : List Frame}
    (h : Sound b w (fill (.node n ts) C)) : w.store.Has n ts := by
  cases Store.Holds.of_fill (C := C) h.holds with
  | node has all => exact has

theorem Sound.exists_look {b : Bounds} {w : Work} {n : Numbered} {ts : List Ast} {C : List Frame}
    (h : Sound b w (fill (.node n ts) C)) :
    ∃ c, (look w.store n.id : ExceptT Abort (Except Error) Cell) = pure c ∧
      c.parent = w.store.parentOf n.id := by
  obtain ⟨c, hcell⟩ := Store.exists_cell h.has.lt_size
  refine ⟨c, ?_, (Store.parentOf_of_cell hcell).symm⟩
  simp only [look, Store.cell_eq_ok.mpr hcell]

theorem Sound.parent_eq {b : Bounds} {w : Work} {t : Ast} {F : Frame} {C : List Frame}
    (h : Sound b w (fill t (F :: C))) :
    w.store.parentOf t.id = some F.label.id := by
  refine h.linked.listed.mem_iff.mp ?_
  rw [h.hangs]
  simp

theorem Sound.ne_root {b : Bounds} {w : Work} {t : Ast} {F : Frame} {C : List Frame}
    (h : Sound b w (fill t (F :: C))) : t.id ≠ b.root := by
  rw [← h.root]
  exact h.id_ne

/-- The literal that replaces a node is nothing to be replaced. -/
theorem replaceable_fill_literal {n : Numbered} {ts : List Ast} (C : List Frame)
    (hkind : Constant.ofKind? n.kind = none) (id : Nat) (value : Constant) :
    (fill (Constant.literal id n value) C).replaceable + 1 ≤
      (fill (.node n ts) C).replaceable := by
  have hleaf : (Constant.literal id n value).replaceable = 0 := by
    cases value <;> rfl
  have hnode : 1 ≤ (Tree.node n ts : Ast).replaceable := by
    rw [Tree.replaceable, Tree.preorder, List.countP_cons_of_pos (by rw [hkind]; rfl)]
    omega
  rw [Tree.replaceable_fill, Tree.replaceable_fill, hleaf]
  omega

/-- **A node that is no literal and not the root is replaced without breaking off**, and the store
has the tree with the literal in its place. -/
theorem replaceAt_reaches {b : Bounds} {w : Work} {n : Numbered} {ts : List Ast} {F : Frame}
    {C : List Frame} (h : Sound b w (fill (.node n ts) (F :: C)))
    (hkind : Constant.ofKind? n.kind = none) (value : Constant) :
    Reaches b w (replaceAt ⟨n.id, value⟩) (.ok ()) ((Constant.replaceBy n value).lift w.state).2
      (fill ((Constant.replaceBy n value).lift w.state).1 (F :: C)) := by
  let literal : Numbered := { kind := value.kind, position := n.position, id := w.state.log.next }
  have hless : (fill ((Constant.replaceBy n value).lift w.state).1 (F :: C)).replaceable + 1 ≤
      (fill (.node n ts) (F :: C)).replaceable :=
    replaceable_fill_literal (F :: C) hkind w.state.log.next value
  have hcount : (((Constant.replaceBy n value).lift w.state).2).count = w.state.count + 1 :=
    List.length_append
  obtain ⟨s, hreplace, hsize, hbears⟩ := h.replace (n := literal) h.next
  have hrun : replaceAt ⟨n.id, value⟩ w =
      .ok (.ok (), ⟨s, ((Constant.replaceBy n value).lift w.state).2⟩) := by
    have hlabel : (labelAt w.store n.id : ExceptT Abort (Except Error) Numbered) = pure n :=
      labelAt_id (Store.Holds.of_fill (C := F :: C) h.holds)
    have hroom : w.store.size < numberLimit := by
      have := h.room
      omega
    show InPlace.bind _ _ w = _
    simp only [InPlace.bind, InPlace.ask, hlabel]
    show (if w.store.size < numberLimit then _ else _) = _
    rw [if_pos hroom]
    show settle _ _ _ ((w.store.add literal.toNode).1.replaceNode n.id w.store.size) = _
    rw [show n.id = (Tree.node n ts).id from rfl, hreplace, settle]
  refine ⟨s, hrun, ?_⟩
  exact {
    toBears := hbears
    root := (Tree.id_fill_cons _ _ F C).trans h.root
    room := by
      have := h.room
      show s.size + _ ≤ _
      omega
    next := by
      show w.state.log.next + 1 = s.size
      rw [hsize, h.next]
    lower := by
      have := h.lower
      rw [hcount]
      omega
    upper := by
      have := h.upper
      rw [hcount]
      omega }

end OnStore
end ClassCompiler
