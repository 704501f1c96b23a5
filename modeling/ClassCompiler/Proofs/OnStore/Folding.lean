import ClassCompiler.Proofs.Constant.Folded
import ClassCompiler.Proofs.OnStore.Rewriting

/-!
# Folding in a store

A pass looks at the nodes below a root from the last one to the first, in the order in which they
were when the pass began.  Nodes that were taken out of the tree since are passed over.  There are
passes until one replaces nothing.

* `foldNode_reaches`: one node.
* `foldPass_reaches`: one pass does what a pass on trees does.
* `fold_reaches`: every pass but the last replaces a node, so the passes come to an end.
* `records_fold`: the log tells all that was done to the store.
-/

namespace ClassCompiler
namespace OnStore

open Constant (Folding FoldState foldHere foldSlot_eq log_warnDivision place)
open InPlace (ask onState stop)
open ClassCompiler.Tree (Frame fill)

variable {b : Bounds} {w : Work} {n : Numbered} {t : Ast} {ts : List Ast} {F : Frame}
  {C : List Frame}

/-- Puts a value, if there is one, in the place of a node.  The root stays. -/
def putValue (root id : Nat) : Option Constant → InPlace Unit
  | none => return ()
  | some value => if id = root then return () else replaceAt ⟨id, value⟩

/-- Folds one node, unless it is no longer part of the tree. -/
def foldNode (root id : Nat) : InPlace Unit := do
  let c ← ask (look · id)
  if id ≠ root ∧ c.parent = none then return ()
  let t ← ask (surfaceAt · id)
  onState (Constant.warnDivision t.label t.children)
  putValue root id (Constant.foldedValue? t.kind t.children)

/-- Folds nodes one after another. -/
def foldNodes (root : Nat) (ns : List Numbered) : InPlace Unit :=
  forM ns fun n => foldNode root n.id

/-- One pass. -/
def foldPass (root : Nat) : InPlace Unit := do
  let t ← ask (treeOf · root)
  foldNodes root t.preorder.reverse

/-- Passes until one replaces nothing. -/
def foldPasses (root : Nat) : Nat → InPlace Unit
  | 0 => stop .endless
  | fuel + 1 => do
    let before ← onState (return (← get).count)
    foldPass root
    let after ← onState (return (← get).count)
    if after = before then return () else foldPasses root fuel

/-- Folds the tree below a node. -/
def fold (root : Nat) : InPlace Unit := do
  let t ← ask (treeOf · root)
  foldPasses root t.size

/-! ## One node -/

theorem foldedValue?_leaf (kind : Kind) (ts : List Ast) :
    Constant.foldedValue? kind (ts.map Tree.leaf) = Constant.foldedValue? kind ts := by
  rcases ts with _ | ⟨l, _ | ⟨r, rest⟩⟩ <;> cases kind <;> rfl

theorem warnDivision_leaf (n : Numbered) (ts : List Ast) :
    Constant.warnDivision n (ts.map Tree.leaf) = Constant.warnDivision n ts := by
  have hzero : ∀ op,
      Constant.dividesByZero op (ts.map Tree.leaf) = Constant.dividesByZero op ts := by
    intro op
    rcases ts with _ | ⟨l, _ | ⟨r, rest⟩⟩ <;> cases op <;> rfl
  simp only [Constant.warnDivision, hzero]

theorem ofKind?_of_foldedValue? {kind : Kind} {value : Constant}
    (h : Constant.foldedValue? kind ts = some value) : Constant.ofKind? kind = none := by
  cases kind <;> first | rfl | cases h

/-- A node that is part of the tree is looked at with its children. -/
theorem foldNode_of_putValue (h : Sound b w (fill (.node n ts) C))
    (hpart : n.id ≠ b.root → w.store.parentOf n.id ≠ none) {state : FoldState}
    (hput : ∀ s, Sound b ⟨s, ((Constant.warnDivision n ts) w.state).2⟩ (fill (.node n ts) C) →
      Reaches b ⟨s, ((Constant.warnDivision n ts) w.state).2⟩
        (putValue b.root n.id (Constant.foldedValue? n.kind ts)) (.ok ()) state t) :
    Reaches b w (foldNode b.root n.id) (.ok ()) state t := by
  obtain ⟨c, hlook, hparent⟩ := h.exists_look
  have hsurface : (surfaceAt w.store n.id : ExceptT Abort (Except Error) Ast) =
      pure (.node n (ts.map Tree.leaf)) :=
    surfaceAt_eq (Store.Holds.of_fill (C := C) h.holds)
  refine .ask hlook ?_
  rw [if_neg fun hout => hpart hout.1 (hparent ▸ hout.2)]
  refine .ask hsurface ?_
  simp only [Tree.label, Tree.children, Tree.kind, warnDivision_leaf, foldedValue?_leaf]
  exact .onState (h.of_log (log_warnDivision n ts w.state)) hput

/-- A node below the root is folded as the pass on trees folds it. -/
theorem foldNode_reaches (h : Sound b w (fill (.node n ts) (F :: C))) :
    Reaches b w (foldNode b.root n.id) (.ok ()) ((foldHere n ts) w.state).2
      (fill ((foldHere n ts) w.state).1 (F :: C)) := by
  have hparent : w.store.parentOf n.id = some F.label.id := h.parent_eq
  have hnroot : n.id ≠ b.root := h.ne_root
  refine foldNode_of_putValue h (fun _ => by simp [hparent]) fun s hsound => ?_
  have hhere : foldHere n ts w.state = place n ts (Constant.foldedValue? n.kind ts)
      ((Constant.warnDivision n ts) w.state).2 := rfl
  rw [hhere]
  cases hvalue : Constant.foldedValue? n.kind ts with
  | none => exact .pure hsound ()
  | some value =>
    rw [putValue, if_neg hnroot]
    exact replaceAt_reaches hsound (ofKind?_of_foldedValue? hvalue) value

/-! ## One pass -/

theorem foldNodes_append (root : Nat) (ns ms : List Numbered) :
    foldNodes root (ns ++ ms) = foldNodes root ns >>= fun _ => foldNodes root ms :=
  List.forM_append

theorem foldNodes_single (root : Nat) (n : Numbered) : foldNodes root [n] = foldNode root n.id := by
  rw [foldNodes, List.forM_cons, List.forM_nil]
  exact bind_pure (foldNode root n.id)

/-- The trees below a node, the last one first. -/
theorem foldSlots_reaches
    (ih : ∀ t ∈ ts, ∀ {F : Frame} {C : List Frame} {w : Work}, Sound b w (fill t (F :: C)) →
      Reaches b w (foldNodes b.root t.preorder.reverse) (.ok ()) ((Constant.foldSlot t) w.state).2
        (fill ((Constant.foldSlot t) w.state).1 (F :: C)))
    {left right : List Ast} (h : Sound b w (fill (.node n (left ++ (ts ++ right))) C)) :
    Reaches b w (foldNodes b.root (Tree.preorderAll ts).reverse) (.ok ())
      ((Constant.foldSlots ts) w.state).2
      (fill (.node n (left ++ (((Constant.foldSlots ts) w.state).1 ++ right))) C) := by
  induction ts generalizing left w with
  | nil =>
    rw [Constant.foldSlots]
    exact .pure h ()
  | cons t ts ihs =>
    have hrest : Reaches b w (foldNodes b.root (Tree.preorderAll ts).reverse) (.ok ())
        ((Constant.foldSlots ts) w.state).2
        (fill (.node n (left ++ t :: (((Constant.foldSlots ts) w.state).1 ++ right))) C) := by
      have hmoved : Sound b w (fill (.node n ((left ++ [t]) ++ (ts ++ right))) C) := by
        simpa using h
      simpa using ihs (fun u hu => ih u (List.mem_cons_of_mem t hu)) hmoved
    rw [Tree.preorderAll, List.reverse_append, foldNodes_append, Constant.foldSlots]
    refine .bind hrest fun s hsound => ?_
    exact ih t List.mem_cons_self
      (F := ⟨n, left, ((Constant.foldSlots ts) w.state).1 ++ right⟩) hsound

/-- A tree below the root, from its last node to its first. -/
theorem foldSlot_reaches (t : Ast) {F : Frame} {C : List Frame} {w : Work}
    (h : Sound b w (fill t (F :: C))) :
    Reaches b w (foldNodes b.root t.preorder.reverse) (.ok ()) ((Constant.foldSlot t) w.state).2
      (fill ((Constant.foldSlot t) w.state).1 (F :: C)) := by
  induction t using Tree.induction generalizing F C w with
  | node n ts ih =>
    have hchildren : Reaches b w (foldNodes b.root (Tree.preorderAll ts).reverse) (.ok ())
        ((Constant.foldSlots ts) w.state).2
        (fill (.node n ((Constant.foldSlots ts) w.state).1) (F :: C)) := by
      have hall : Sound b w (fill (.node n ([] ++ (ts ++ []))) (F :: C)) := by simpa using h
      simpa using foldSlots_reaches ih hall
    rw [Tree.preorder, List.reverse_cons, foldNodes_append, foldNodes_single, foldSlot_eq]
    exact .bind hchildren fun s hsound => foldNode_reaches hsound

/-- The root is looked at last, and stays. -/
theorem foldRoot_reaches (h : Sound b w (.node n ts)) :
    Reaches b w (foldNode b.root n.id) (.ok ()) ((Constant.warnDivision n ts) w.state).2
      (.node n ts) := by
  have hroot : n.id = b.root := h.root
  refine foldNode_of_putValue (C := []) h (absurd hroot) fun s hsound => ?_
  cases Constant.foldedValue? n.kind ts with
  | none => exact .pure hsound ()
  | some value =>
    rw [putValue, if_pos hroot]
    exact .pure hsound ()

/-- **One pass** over the nodes does what a pass over the tree does. -/
theorem foldPass_reaches (h : Sound b w t) :
    Reaches b w (foldPass b.root) (.ok ()) ((Constant.foldPass t) w.state).2
      ((Constant.foldPass t) w.state).1 := by
  cases t with
  | node n ts =>
    have htree : (treeOf w.store b.root : ExceptT Abort (Except Error) Ast) =
        pure (.node n ts) := by
      rw [← h.root, treeOf_eq h.holds h.size_le]
    have hchildren : Reaches b w (foldNodes b.root (Tree.preorderAll ts).reverse) (.ok ())
        ((Constant.foldSlots ts) w.state).2 (.node n ((Constant.foldSlots ts) w.state).1) := by
      have hall : Sound b w (fill (.node n ([] ++ (ts ++ []))) []) := by simpa using h
      simpa using foldSlots_reaches (fun t _ => foldSlot_reaches t) hall
    refine .ask htree ?_
    rw [Tree.preorder, List.reverse_cons, foldNodes_append, foldNodes_single]
    exact .bind hchildren fun s hsound => foldRoot_reaches hsound

/-! ## All passes -/

/-- What a pass gives up: each replacement leaves one node less that can be replaced. -/
theorem foldPass_replaceable (h : Sound b w t) :
    w.state.count ≤ ((Constant.foldPass t) w.state).2.count ∧
      ((Constant.foldPass t) w.state).2.count + ((Constant.foldPass t) w.state).1.replaceable ≤
        w.state.count + t.replaceable := by
  have hnow : Sound ⟨b.root, w.state.count, w.state.count + t.replaceable⟩ w t :=
    { h with
      lower := Nat.le_refl _
      upper := Nat.le_refl _ }
  obtain ⟨s, -, hsound⟩ := foldPass_reaches hnow
  exact ⟨hsound.lower, hsound.upper⟩

theorem label_foldPass (t : Ast) (state : FoldState) :
    ((Constant.foldPass t) state).1.label = t.label := by
  cases t with
  | node n ts => rfl

/-- The number of nodes below the root that are no literals. -/
def replaceableBelow (t : Ast) : Nat :=
  (Tree.preorderAll t.children).countP fun n => (Constant.ofKind? n.kind).isNone

theorem replaceableBelow_lt_size (t : Ast) : replaceableBelow t < t.size := by
  cases t with
  | node n ts =>
    rw [← Tree.length_preorder, Tree.preorder, List.length_cons]
    exact Nat.lt_succ_of_le List.countP_le_length

theorem replaceableBelow_lt {t' : Ast} (hlabel : t'.label = t.label)
    (h : t'.replaceable < t.replaceable) : replaceableBelow t' < replaceableBelow t := by
  cases t with
  | node n ts =>
    cases t' with
    | node m us =>
      obtain rfl : m = n := hlabel
      rw [Tree.replaceable, Tree.replaceable, Tree.preorder, Tree.preorder, List.countP_cons,
        List.countP_cons] at h
      exact Nat.lt_of_add_lt_add_right h

/-- **The passes come to an end**: each but the last leaves fewer nodes that can be replaced, and
the root is never replaced. -/
theorem foldPasses_reaches {fuel : Nat} (h : Sound b w t) (hfuel : replaceableBelow t < fuel) :
    Reaches b w (foldPasses b.root fuel) (.ok ()) ((Constant.foldPasses fuel t) w.state).2
      ((Constant.foldPasses fuel t) w.state).1 := by
  induction fuel generalizing t w with
  | zero => exact absurd hfuel (Nat.not_lt_zero _)
  | succ fuel ih =>
    obtain ⟨hmore, hless⟩ := foldPass_replaceable h
    have hrun : (Constant.foldPasses (fuel + 1) t) w.state =
        if ((Constant.foldPass t) w.state).2.count = w.state.count then
          (Constant.foldPass t) w.state
        else (Constant.foldPasses fuel ((Constant.foldPass t) w.state).1)
          ((Constant.foldPass t) w.state).2 := Constant.foldPasses_succ_run fuel t w.state
    rw [foldPasses, hrun]
    refine .onState h fun s hsound => ?_
    refine .bind (foldPass_reaches hsound) fun s hsound => ?_
    refine .onState hsound fun s hsound => ?_
    show Reaches b _ (if ((Constant.foldPass t) w.state).2.count = w.state.count then pure ()
      else foldPasses b.root fuel) _ _ _
    by_cases hsame : ((Constant.foldPass t) w.state).2.count = w.state.count
    · rw [if_pos hsame, if_pos hsame]
      exact .pure hsound ()
    · rw [if_neg hsame, if_neg hsame]
      have hfewer := replaceableBelow_lt (label_foldPass t w.state) (by omega)
      exact ih hsound (by omega)

/-- **Folding in a store does what folding a tree does**, without breaking off. -/
theorem fold_reaches (h : Sound b w t) :
    Reaches b w (fold b.root) (.ok ()) ((Constant.fold t) w.state).2 ((Constant.fold t) w.state).1 := by
  have htree : (treeOf w.store b.root : ExceptT Abort (Except Error) Ast) = pure t := by
    rw [← h.root, treeOf_eq h.holds h.size_le]
  exact .ask htree (foldPasses_reaches h (replaceableBelow_lt_size t))

/-! ## The log -/

theorem records_putValue (root id : Nat) (value? : Option Constant) :
    Records (putValue root id value?) := by
  cases value? with
  | none => exact .pure ()
  | some value =>
    rw [putValue]
    split
    · exact .pure ()
    · exact records_replaceAt ⟨id, value⟩

theorem records_foldNode (root id : Nat) : Records (foldNode root id) := by
  refine .bind (.ask _) fun c => ?_
  split
  · exact .pure ()
  · refine .bind (.ask _) fun t => ?_
    exact .bind (.onState (log_warnDivision t.label t.children)) fun _ => records_putValue _ _ _

theorem records_foldPass (root : Nat) : Records (foldPass root) :=
  .bind (.ask _) fun _ => .forM fun n => records_foldNode root n.id

theorem records_foldPasses (root fuel : Nat) : Records (foldPasses root fuel) := by
  induction fuel with
  | zero => exact .stop .endless
  | succ fuel ih =>
    refine .bind (.onState fun _ => rfl) fun before => ?_
    refine .bind (records_foldPass root) fun _ => ?_
    refine .bind (.onState fun _ => rfl) fun after => ?_
    split
    · exact .pure ()
    · exact ih

/-- What folding does to a store can be redone from its log. -/
theorem records_fold (root : Nat) : Records (fold root) :=
  .bind (.ask _) fun t => records_foldPasses root t.size

end OnStore
end ClassCompiler
