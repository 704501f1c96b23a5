import ClassCompiler.Proofs.Store.Folding

/-!
# How much optimizing can do

Old nodes stay in a store, with the children that they had, so the size of a store says nothing
about what is left to do.  What gets smaller is the tree that is read at the root: a literal takes
the place of a variable, an operation or a parenthesis, and what was below it is gone.  The number
of those expressions bounds the replacements, and each replacement adds one node to the store.

The passes of folding go on until one of them replaces nothing.  As a computation they are given a
number that they may not exceed; `FoldLoop` is the loop without it.

* `Tree.reducible`: the number of expressions that a literal may take the place of.
* `Constant.fold_loops`: the loop ends with what folding gives.
* `Store.Shrinks`: replacements in a store, each of which leaves fewer expressions in its tree.
* `Store.Bears.shrinks`: what a chain of rewrites logs is done in a store that way.
* `Store.optimize_replacements_bounded`: what optimizing adds to a store.
-/

namespace ClassCompiler

open Constant (Edit FoldState Log Rewrites isReducible literal)
open ClassCompiler.Tree (Frame fill)

/-! ## Expressions that are left -/

namespace Tree

/-- The number of variables, operations and parentheses. -/
def reducible (t : Ast) : Nat :=
  t.preorder.countP fun n => isReducible n.kind

theorem reducible_fill (t : Ast) (C : List Frame) :
    (fill t C).reducible = t.reducible + (around C).countP fun n => isReducible n.kind := by
  rw [reducible, (preorder_fill_perm t C).countP_eq, List.countP_append, reducible]

/-- A literal in the place of an expression leaves fewer of them. -/
theorem reducible_fill_literal {n : Numbered} (hk : isReducible n.kind = true) (ts : List Ast)
    (id : Nat) (value : Constant) (C : List Frame) :
    (fill (literal id n value) C).reducible < (fill (.node n ts) C).reducible := by
  have hliteral : (literal id n value).reducible = 0 := by cases value <;> rfl
  have hnode : 0 < (Tree.node n ts : Ast).reducible := by
    refine List.countP_pos_iff.mpr ⟨n, ?_, hk⟩
    rw [preorder]
    exact List.mem_cons_self
  rw [reducible_fill, reducible_fill]
  omega

end Tree

/-! ## The loop of folding -/

namespace Constant

/-- Passes over a tree until one replaces nothing, and their number. -/
inductive FoldLoop : Nat → Ast × FoldState → Ast × FoldState → Prop
  | last {t : Ast} {st : FoldState} (h : ((foldPass t).run st).2.count = st.count) :
    FoldLoop 1 (t, st) ((foldPass t).run st)
  | again {passes : Nat} {t : Ast} {st : FoldState} {result : Ast × FoldState}
    (h : ((foldPass t).run st).2.count ≠ st.count)
    (rest : FoldLoop passes ((foldPass t).run st) result) : FoldLoop (passes + 1) (t, st) result

/-- **The loop ends with what folding gives**, after two passes at most. -/
theorem fold_loops (t : Ast) (st : FoldState) :
    ∃ passes, passes ≤ 2 ∧ FoldLoop passes (t, st) ((fold t).run st) := by
  have hsecond := foldPass_foldPass t st
  rw [fold_eq_foldPass]
  by_cases hcount : ((foldPass t).run st).2.count = st.count
  · exact ⟨1, by omega, .last hcount⟩
  · refine ⟨2, by omega, .again hcount ?_⟩
    -- the second pass does nothing, and so it is the last one
    obtain ⟨⟨t', st'⟩, hfirst⟩ : ∃ result, (foldPass t).run st = result := ⟨_, rfl⟩
    rw [hfirst] at hsecond ⊢
    have hlast : FoldLoop 1 (t', st') ((foldPass t').run st') := .last (by rw [hsecond])
    rwa [hsecond] at hlast

/-- The number that optimizing gives back is that of the replacements in the log. -/
theorem count_of_optimize {T : ClassTable} {next total : Nat} {t : Ast}
    (h : (optimize T next t).outcome = .ok total) :
    (optimize T next t).log.edits.length = total := by
  have houtcome : (optimize T next t).outcome =
      (rounds T roundLimit t { log := { next } }).1.2.map fun _ =>
        (optimize T next t).log.edits.length := rfl
  rw [houtcome] at h
  cases hrounds : (rounds T roundLimit t { log := { next } }).1.2 with
  | error e =>
    rw [hrounds] at h
    cases h
  | ok _ =>
    rw [hrounds] at h
    exact Except.ok.inj h

end Constant

/-! ## The store -/

namespace Store

variable {s s' : Store} {t : Ast} {edits : List Edit}

/-- Replacements in a store, one after another.  Each is possible, adds one node, and leaves fewer
variables, operations and parentheses in the tree of the store. -/
inductive Shrinks (s : Store) : List Edit → Store → Prop
  | none : Shrinks s [] s
  | replace {edits : List Edit} {e : Edit} {s₁ s₂ : Store} {t₁ t₂ : Ast}
    (before : Shrinks s edits s₁) (hreplace : s₁.replaceByLiteral e = .ok s₂)
    (hsize : s₂.size = s₁.size + 1) (ht₁ : s₁.treeAt root = .ok t₁)
    (ht₂ : s₂.treeAt root = .ok t₂) (hfewer : t₂.reducible < t₁.reducible) :
    Shrinks s (edits ++ [e]) s₂

theorem Shrinks.size (h : s.Shrinks edits s') : s'.size = s.size + edits.length := by
  induction h with
  | none => rfl
  | replace _ _ hsize _ _ _ ih =>
    rw [hsize, ih, List.length_append, List.length_singleton]
    omega

/-- There are no more replacements than expressions to replace. -/
theorem Shrinks.length_le (h : s.Shrinks edits s') (ht : s.treeAt root = .ok t) :
    ∃ t', s'.treeAt root = .ok t' ∧ edits.length + t'.reducible ≤ t.reducible := by
  induction h with
  | none => exact ⟨t, ht, by rw [List.length_nil, Nat.zero_add]⟩
  | @replace edits e s₁ s₂ t₁ t₂ _ _ _ ht₁ ht₂ hfewer ih =>
    obtain ⟨t', ht', hle⟩ := ih
    obtain rfl : t₁ = t' := Except.ok.inj (ht₁.symm.trans ht')
    refine ⟨t₂, ht₂, ?_⟩
    rw [List.length_append, List.length_singleton]
    omega

/-- **What a chain of rewrites logs** is done in the store replacement by replacement. -/
theorem Bears.shrinks {p : Ast × Log} (hs : s.Bears t) (hid : t.id = root)
    (h : Rewrites (t, { next := s.size }) p) : s.Shrinks p.2.edits (s.redo p.2.edits) := by
  induction h with
  | refl => exact .none
  | tail hsteps hstep ih =>
    have hredone := (hs.redone []).rewrites hsteps
    have hlabel := (Constant.Rewrites.replaced hsteps).label
    cases hstep with
    | @replace n ts log value F C hreduces =>
      obtain ⟨s', hreplace, hsize, hbears⟩ := hredone.bears.replaceByLiteral value
      have hredo : s.redo (log.edits ++ [⟨n.id, value⟩]) = s' := by
        rw [redo_concat, hreplace]
        rfl
      have hroot : (fill (.node n ts) (F :: C)).id = root := by
        rw [Tree.id, hlabel]
        exact hid
      have hroot' : (fill (literal (s.redo log.edits).size n value) (F :: C)).id = root :=
        (Tree.id_fill_cons _ _ F C).trans hroot
      have ht₁ := hredone.bears.treeAt
      have ht₂ := hbears.treeAt
      rw [hroot] at ht₁
      rw [hroot'] at ht₂
      show s.Shrinks (log.edits ++ [⟨n.id, value⟩]) (s.redo (log.edits ++ [⟨n.id, value⟩]))
      rw [hredo]
      exact ih.replace hreplace hsize ht₁ ht₂
        (Tree.reducible_fill_literal hreduces.isReducible ts _ value _)

theorem optimize_eq (ht : s.treeAt root = .ok t) (T : ClassTable) :
    s.optimize T = (s.redo (Constant.optimize T s.size t).log.edits,
      (Constant.optimize T s.size t).diagnostics, (Constant.optimize T s.size t).outcome) := by
  rw [optimize, ht]

/-- The store has the tree that optimizing gives. -/
theorem Bears.optimize (h : s.Bears t) (hid : t.id = root) (T : ClassTable) :
    (s.redo (Constant.optimize T s.size t).log.edits).Bears (Constant.optimize T s.size t).tree ∧
      (Constant.optimize T s.size t).tree.id = root := by
  have hrewrites := Constant.optimize_rewrites T s.size t
  refine ⟨((h.redone []).rewrites hrewrites).bears, ?_⟩
  rw [← hid, Tree.id, (Constant.Rewrites.replaced hrewrites).label, Tree.id]

/-- **Replacements are accounted for, and bounded.**  If optimizing a store gives back a number, the
store has grown by that many nodes.  They were added one by one, and each of them left fewer
variables, operations and parentheses in the tree of the store; so there were that many in the tree
at first.  Whatever tree a round starts from, the loop of folding comes to an end by itself. -/
theorem optimize_replacements_bounded (hs : s.Linked) (T : ClassTable) {total : Nat}
    (hok : (s.optimize T).2.2 = .ok total) :
    (s.optimize T).1.size = s.size + total ∧
      (∃ t, s.treeAt root = .ok t ∧
        (Constant.optimize T s.size t).log.edits.length = total ∧
        s.Shrinks (Constant.optimize T s.size t).log.edits (s.optimize T).1 ∧
        total ≤ t.reducible) ∧
      ∀ (t : Ast) (st : FoldState), ∃ passes, passes ≤ 2 ∧
        Constant.FoldLoop passes (t, st) ((Constant.fold t).run st) := by
  obtain ⟨t, ht⟩ : ∃ t, s.treeAt root = .ok t :=
    treeAt_of_ends hs hs.nonempty (.of_parentless hs.root)
  obtain ⟨hbears, hid⟩ := bears_of_treeAt hs ht
  have hshrinks := hbears.shrinks hid (Constant.optimize_rewrites T s.size t)
  rw [optimize_eq ht] at hok ⊢
  have hcount := Constant.count_of_optimize hok
  obtain ⟨t', -, hle⟩ := hshrinks.length_le ht
  refine ⟨?_, ⟨t, ht, hcount, hshrinks, ?_⟩, Constant.fold_loops⟩
  · rw [← hcount]
    exact hshrinks.size
  · rw [← hcount]
    exact Nat.le_trans (Nat.le_add_right _ _) hle

/-- A method whose result is computed in two rounds. -/
def cancelSource : Source :=
  .classOf "Cancel" none [
    .method .int "zero" [] [
      .localVar .int "x",
      .assign "x" (.binary .mul (.parenthesis (.binary .add (.int 1) (.int 2))) (.int 3)),
      .returnValue (.binary .sub (.identifier "x") (.identifier "x"))]]

/-- All six expressions are replaced. -/
theorem cancelSource_bounded :
    ∃ T, (ClassTable.ofTree (cancelSource.number 0)).outcome = .ok T ∧
      ((ofSource cancelSource).optimize T).2.2 = .ok 6 ∧
      ((ofSource cancelSource).optimize T).1.size = (ofSource cancelSource).size + 6 ∧
      (cancelSource.number 0).reducible = 6 ∧
      ∃ edits, edits.length = 6 ∧
        (ofSource cancelSource).Shrinks edits ((ofSource cancelSource).optimize T).1 := by
  obtain ⟨T, hT, hok⟩ : ∃ T, (ClassTable.ofTree (cancelSource.number 0)).outcome = .ok T ∧
      ((ofSource cancelSource).optimize T).2.2 = .ok 6 := ⟨_, rfl, by decide +kernel⟩
  obtain ⟨hsize, ⟨t, -, hlength, hshrinks, -⟩, -⟩ :=
    optimize_replacements_bounded (linked_ofSource cancelSource) T hok
  exact ⟨T, hT, hok, hsize, by decide, _, hlength, hshrinks⟩

end Store
end ClassCompiler
