import ClassCompiler.Constant.Store
import ClassCompiler.Proofs.Meaning.World
import ClassCompiler.Proofs.Store.Links
import ClassCompiler.Proofs.Tree.Induction

/-!
# What changes a store

Each operation on a store is made of the steps that keep its links.  Those that put a tree or a
literal into the store only ever hang a node below which nothing hangs yet.

* `graft_steps`, `plant_steps`, `redo_steps`: operations made of such steps.
* `Change.append_atomic`, `Change.replaceChild_atomic`, `Change.replaceNode_atomic`: a change in its
  place is one step, or fails and leaves the store as it was.
-/

namespace ClassCompiler
namespace Store

open Meaning (except_bind_eq_ok)

variable {s s' : Store} {parent id index old new : Nat}

/-! ## Trees that are put into a store -/

theorem parentOf_of_le (h : s.size ≤ id) : s.parentOf id = none := by
  rw [parentOf, Array.getElem?_eq_none h]
  rfl

theorem childrenOf_of_le (h : s.size ≤ id) : s.childrenOf id = [] := by
  rw [childrenOf, Array.getElem?_eq_none h]
  rfl

/-- A node that was just added may be hung below any other. -/
theorem Linked.detached_add (h : s.Linked) (n : Node) : (s.add n).1.Detached s.size := by
  refine ⟨?_, ?_, Nat.ne_of_gt h.nonempty⟩
  · rw [size_add]
    exact Nat.lt_succ_self _
  · rw [parentOf_add, parentOf_of_le (Nat.le_refl _)]

theorem bare_add (n : Node) (h : parent < s.size) : (s.add n).1.Bare parent s.size := by
  refine ⟨Nat.ne_of_lt h, ?_⟩
  rw [childrenOf_add, childrenOf_of_le (Nat.le_refl _)]

theorem setParent_add (n : Node) (parent : Option Nat) :
    (s.add n).1.setParent s.size parent = ⟨s.cells.push { node := n, parent }⟩ := by
  refine eq_of_cells fun j => ?_
  rw [setParent, cells_update, cells_add, Array.getElem?_push]
  show _ = if j = s.size then _ else s.cells[j]?
  by_cases hj : j = s.size
  · rw [if_pos hj, if_pos hj, if_pos hj.symm, Option.map_some]
  · rw [if_neg hj, if_neg hj, if_neg (Ne.symm hj)]

theorem graft_node (n : Node) (ts : List Source) :
    s.graft parent (.node n ts) =
      ((s.add n).1.attach parent s.size).graftAll s.size ts := by
  rw [graft, attach, setParent_add]
  rfl

theorem graftAll_steps {ts : List Source}
    (hgraft : ∀ t ∈ ts, ∀ {s parent}, s.Linked → parent < s.size → Steps Bare s (s.graft parent t))
    (h : s.Linked) (hparent : parent < s.size) : Steps Bare s (s.graftAll parent ts) := by
  induction ts generalizing s with
  | nil => exact .refl
  | cons t ts ih =>
    have hfirst := hgraft t List.mem_cons_self h hparent
    refine hfirst.trans (ih (fun u hu => hgraft u (List.mem_cons_of_mem t hu)) ?_ ?_)
    · exact Steps.linked hfirst h
    · exact Nat.lt_of_lt_of_le hparent (Steps.keeps hfirst).size_le

theorem graft_steps (t : Source) :
    ∀ {s : Store} {parent : Nat}, s.Linked → parent < s.size →
      Steps Bare s (s.graft parent t) := by
  induction t using Tree.induction with
  | node n ts ih =>
    intro s parent h hparent
    have hadd : Steps Bare s (s.add n).1 := .single (.add n)
    have hattach : Steps Bare s ((s.add n).1.attach parent s.size) :=
      hadd.tail (.hang (bare_add n hparent)
        (.attach (by rw [size_add]; omega) (h.detached_add n)))
    rw [graft_node]
    exact hattach.trans (graftAll_steps ih (Steps.linked hattach h) (by simp))

theorem plant_steps (h : s.Linked) (t : Source) : Steps Bare s (s.plant t).1 := by
  cases t with
  | node n ts =>
    have hadd : Steps Bare s (s.add n).1 := .single (.add n)
    exact hadd.trans (graftAll_steps (fun t _ => graft_steps t) (Steps.linked hadd h) (by simp))

theorem linked_single (n : Node) : ((Store.mk #[]).add n).1.Linked := by
  refine ⟨?_, ?_, Nat.one_pos⟩
  · intro p c
    rw [parentOf_add, childrenOf_add]
    rfl
  · rw [parentOf_add]
    rfl

theorem ofSource_steps (t : Source) : Steps Bare ((Store.mk #[]).add t.label).1 (ofSource t) := by
  cases t with
  | node n ts =>
    exact graftAll_steps (fun t _ => graft_steps t) (linked_single n) Nat.one_pos

theorem linked_ofSource (t : Source) : (ofSource t).Linked :=
  Steps.linked (ofSource_steps t) (linked_single t.label)

/-! ## Changes in their place -/

theorem detached_of_check (h : s.checkDetached id = .ok ()) : s.Detached id := by
  obtain ⟨cell, hcell, hcheck⟩ := except_bind_eq_ok.mp h
  have hcell := cell_eq_ok.mp hcell
  split at hcheck
  · cases hcheck
  · next hfree =>
    obtain ⟨hnone, hroot⟩ := not_or.mp hfree
    refine ⟨lt_size_of_cell hcell, ?_, hroot⟩
    rw [parentOf_of_cell hcell]
    simpa using hnone

namespace Change

variable {α β : Type} {Q : α → Store → Prop}

/-- What a change comes to: it fails and leaves the store as it was, or `Q` holds of what it gives
back and of the store after it. -/
inductive Atomic (s : Store) (Q : α → Store → Prop) : EStateM.Result Error Store α → Prop
  | ok {a : α} {s' : Store} (h : Q a s') : Atomic s Q (.ok a s')
  | error (e : Error) : Atomic s Q (.error e s)

theorem Atomic.eq_of_error {r : EStateM.Result Error Store α} {e : Error} (h : Atomic s Q r)
    (hr : r = .error e s') : s' = s := by
  cases h with
  | ok h => cases hr
  | error e => cases hr; rfl

theorem Atomic.of_ok {r : EStateM.Result Error Store α} {a : α} (h : Atomic s Q r)
    (hr : r = .ok a s') : Q a s' := by
  cases h with
  | ok h => cases hr; exact h
  | error e => cases hr

theorem Atomic.imp {R : α → Store → Prop} {r : EStateM.Result Error Store α} (h : Atomic s Q r)
    (himp : ∀ a s', Q a s' → R a s') : Atomic s R r := by
  cases h with
  | ok h => exact .ok (himp _ _ h)
  | error e => exact .error e

theorem atomic_ask {f : Store → Except Error β} {next : β → Change α}
    (hnext : ∀ b, f s = .ok b → Atomic s Q ((next b).run s)) :
    Atomic s Q ((ask f >>= next).run s) := by
  rw [EStateM.run_bind, EStateM.run, ask]
  cases h : f s with
  | error e => exact .error e
  | ok b => exact hnext b h

theorem Atomic.ignore {R : β → Store → Prop} {x : Change β} (h : Atomic s R (x.run s))
    {Q : Unit → Store → Prop} (himp : ∀ b s', R b s' → Q () s') :
    Atomic s Q ((x >>= fun _ => pure ()).run s) := by
  rw [EStateM.run_bind]
  revert h
  cases x.run s with
  | error e s' => intro h; cases h; exact .error e
  | ok b s' => intro h; cases h with | ok h => exact .ok (himp b s' h)

/-- A node is hung below another. -/
theorem append_atomic (s : Store) (parent id : Nat) :
    Atomic s (fun _ s' => s.Hung parent id s') ((append parent id).run s) := by
  refine atomic_ask fun _ hfree => atomic_ask fun cell hcell => .ok (.attach ?_ ?_)
  · exact lt_size_of_cell (cell_eq_ok.mp hcell)
  · exact detached_of_check hfree

/-- A node takes the place of a child. -/
theorem replaceChild_atomic (s : Store) (parent index new : Nat) :
    Atomic s (fun old s' => (s.childrenOf parent)[index]? = some old ∧ s.Detached new ∧
        s' = s.exchange parent index old new)
      ((replaceChild parent index new).run s) := by
  refine atomic_ask fun _ hfree => atomic_ask fun cell hcell => ?_
  have hchildren := childrenOf_of_cell (cell_eq_ok.mp hcell)
  split
  · exact .error _
  · next old hold => exact .ok ⟨hchildren ▸ hold, detached_of_check hfree, rfl⟩

/-- A node takes the place of another. -/
theorem replaceNode_atomic (s : Store) (old new : Nat) :
    Atomic s (fun _ s' => ∃ parent, s.parentOf old = some parent ∧ s.Hung parent new s')
      ((replaceNode old new).run s) := by
  refine atomic_ask fun cell hcell => ?_
  have hparent := parentOf_of_cell (cell_eq_ok.mp hcell)
  split
  · exact .error _
  · next parent hsome =>
    refine atomic_ask fun place hplace => ?_
    split
    · exact .error _
    · next index =>
      refine (replaceChild_atomic s parent index new).ignore ?_
      rintro old' s' ⟨hold, hnew, rfl⟩
      exact ⟨parent, hparent.trans hsome, .exchange hold hnew⟩

end Change

theorem replaceNode_eq_ok (h : s.replaceNode old new = .ok s') :
    (Change.replaceNode old new).run s = .ok () s' := by
  unfold replaceNode Change.apply at h
  split at h
  · next hrun => cases Except.ok.inj h; exact hrun
  · cases h

/-! ## Operations that are made of steps -/

theorem insert_steps {t : Source} (h : s.Linked) (hparent : parent < s.size)
    (hinsert : s.insert parent t = .ok (s', id)) : Steps Bare s s' := by
  rw [insert, if_pos (Nat.le_of_lt hparent)] at hinsert
  cases Except.ok.inj hinsert
  exact graft_steps t h hparent

theorem copy_steps (h : s.Linked) (hcopy : s.copy id = .ok (s', new)) : Steps Bare s s' := by
  obtain ⟨t, -, hplant⟩ := except_bind_eq_ok.mp hcopy
  have hs' : (s.plant t.source).1 = s' := congrArg Prod.fst (Except.ok.inj hplant)
  exact hs' ▸ plant_steps h t.source

/-- A literal in the place of a node is bare when it is put there. -/
theorem replaceByLiteral_steps {e : Constant.Edit} (h : s.Linked)
    (hreplace : s.replaceByLiteral e = .ok s') : Steps Bare s s' := by
  obtain ⟨cell, -, hreplace⟩ := except_bind_eq_ok.mp hreplace
  let literal : Node := { kind := e.value.kind, position := cell.node.position }
  have hreplace : (s.add literal).1.replaceNode e.node s.size = .ok s' := hreplace
  obtain ⟨parent, hparent, hhung⟩ :=
    (Change.replaceNode_atomic _ _ _).of_ok (replaceNode_eq_ok hreplace)
  rw [parentOf_add] at hparent
  have hadd : Steps Bare s (s.add literal).1 := .single (.add literal)
  exact hadd.tail (.hang (bare_add literal (h.parent_lt hparent)) hhung)

theorem redo_append (s : Store) (edits edits' : List Constant.Edit) :
    s.redo (edits ++ edits') = (s.redo edits).redo edits' :=
  List.foldl_append

/-- What is redone from a log is made of steps. -/
theorem redo_steps (edits : List Constant.Edit) :
    ∀ {s : Store}, s.Linked → Steps Bare s (s.redo edits) := by
  induction edits with
  | nil => exact fun _ => .refl
  | cons e edits ih =>
    intro s h
    have hfirst : Steps Bare s ((s.replaceByLiteral e).toOption.getD s) := by
      cases hreplace : s.replaceByLiteral e with
      | error _ => exact .refl
      | ok s' => exact replaceByLiteral_steps h hreplace
    exact hfirst.trans (ih (Steps.linked hfirst h))

theorem fold_steps {warned : List Nat} {state : Constant.FoldState} (h : s.Linked)
    (hfold : s.fold id warned = .ok (s', state)) : Steps Bare s s' := by
  obtain ⟨t, -, hfold⟩ := except_bind_eq_ok.mp hfold
  cases Except.ok.inj hfold
  exact redo_steps _ h

theorem propagate_steps (h : s.Linked) (T : ClassTable) : Steps Bare s (s.propagate T).1 := by
  unfold propagate
  split
  · exact .refl
  · exact redo_steps _ h

end Store
end ClassCompiler
