import ClassCompiler.Proofs.Constant.Fold

/-!
# What folding leaves

A pass looks at a node after everything below it.  So it decides about the node with the literals of
the operands already in their places, and evaluation without known variables decides with the values
of the operands; where every parenthesis holds one expression, the two come to the same.  Nothing
that a pass leaves can be folded, and all divisions by zero in it have been warned about.  A second
pass therefore does nothing at all.

* `Tree.subtrees`: the trees at the nodes of a tree.
* `Bracketed`: every parenthesis holds one expression.
* `Exact`: how what is folded and what it is folded to belong together.
* `foldSlot_exact`: a tree and what a pass puts in its place.
* `foldPass_left`: where the nodes that a pass leaves come from, and what became of their slots.
* `foldPass_foldPass`: a pass after a pass changes neither the tree nor what folding keeps.
* `fold_eq_foldPass`: folding is complete after one pass.
-/

namespace ClassCompiler

/-! ## Subtrees -/

namespace Tree

variable {α : Type}

mutual

/-- The trees at the nodes of a tree, in pre-order. -/
def subtrees : Tree α → List (Tree α)
  | .node a ts => .node a ts :: subtreesAll ts

/-- The trees at the nodes of trees that follow one another. -/
def subtreesAll : List (Tree α) → List (Tree α)
  | [] => []
  | t :: ts => subtrees t ++ subtreesAll ts

end

theorem subtreesAll_eq_flatMap (ts : List (Tree α)) : subtreesAll ts = ts.flatMap subtrees := by
  induction ts with
  | nil => rw [subtreesAll, List.flatMap_nil]
  | cons t ts ih => rw [subtreesAll, ih, List.flatMap_cons]

theorem mem_subtrees_node {u : Tree α} {a : α} {ts : List (Tree α)} :
    u ∈ (node a ts).subtrees ↔ u = node a ts ∨ ∃ t ∈ ts, u ∈ t.subtrees := by
  rw [subtrees, List.mem_cons, subtreesAll_eq_flatMap, List.mem_flatMap]

theorem self_mem_subtrees (t : Tree α) : t ∈ t.subtrees := by
  cases t with
  | node a ts => exact mem_subtrees_node.mpr (.inl rfl)

theorem mem_subtrees_of_child {u t : Tree α} {a : α} {ts : List (Tree α)} (ht : t ∈ ts)
    (hu : u ∈ t.subtrees) : u ∈ (node a ts).subtrees :=
  mem_subtrees_node.mpr (.inr ⟨t, ht, hu⟩)

/-- The nodes of a tree are the roots of its subtrees. -/
theorem preorder_eq_map (t : Tree α) : t.preorder = t.subtrees.map label := by
  induction t using Tree.induction with
  | node a ts ih =>
    rw [preorder, preorderAll_eq_flatMap, subtrees, subtreesAll_eq_flatMap, List.map_cons,
      List.map_flatMap, label, List.flatMap_congr ih]

end Tree

namespace Constant

open List (Forall₂)
open Meaning (ofKind?_literal foldSlots_cons_run foldSlots_forall₂)

/-- Every parenthesis of a tree holds exactly one expression. -/
def Bracketed (t : Ast) : Prop :=
  ∀ u ∈ t.subtrees, u.kind = .parenthesis → u.children.length = 1

theorem Bracketed.child {n : Numbered} {ts : List Ast} {t : Ast} (h : Bracketed (.node n ts))
    (ht : t ∈ ts) : Bracketed t :=
  fun u hu => h u (Tree.mem_subtrees_of_child ht hu)

/-! ## Evaluation of what is folded -/

theorem eval_of_ofKind? {n : Numbered} {ts : List Ast} {c : Constant}
    (h : ofKind? n.kind = some c) (ρ : Known) : eval ρ (.node n ts) = some c := by
  rw [eval.eq_def]
  cases hk : n.kind <;> simp only [hk, ofKind?, reduceCtorEq] at h ⊢
  all_goals exact h

theorem eval_literal (ρ : Known) (id : Nat) (n : Numbered) (c : Constant) :
    eval ρ (literal id n c) = some c :=
  eval_of_ofKind? (ofKind?_literal id n c) ρ

/-- Operands that evaluate alike may be exchanged. -/
theorem eval_node_congr {ρ : Known} (n : Numbered) {ts us : List Ast}
    (h : Forall₂ (fun t u => eval ρ u = eval ρ t) ts us) :
    eval ρ (.node n us) = eval ρ (.node n ts) := by
  rw [eval.eq_def, eval.eq_def]
  cases h with
  | nil => rfl
  | cons hfirst hrest =>
    cases hrest with
    | nil => cases n.kind <;> simp only [hfirst]
    | cons hsecond _ => cases n.kind <;> simp only [hfirst, hsecond]

/-- **A node whose operands are folded** is a literal, or folds to one, if and only if it has a
value without known variables. -/
theorem foldedValue?_or_ofKind? {n : Numbered} {us : List Ast}
    (hus : ∀ u ∈ us, ofKind? u.kind = eval [] u)
    (hone : n.kind = .parenthesis → us.length = 1) :
    (foldedValue? n.kind us).or (ofKind? n.kind) = eval [] (.node n us) := by
  rw [eval.eq_def]
  cases hk : n.kind <;> simp only [hk]
  case parenthesis =>
    obtain ⟨u, rfl⟩ := List.length_eq_one_iff.mp (hone hk)
    exact (Option.or_none ..).trans (hus u List.mem_cons_self)
  case negation =>
    rcases us with _ | ⟨u, rest⟩
    · rfl
    · have hu := hus u List.mem_cons_self
      change ((ofKind? u.kind).bind negate?).or none = (eval [] u).bind negate?
      rw [hu, Option.or_none]
  case binary op =>
    rcases us with _ | ⟨l, _ | ⟨r, rest⟩⟩
    · rfl
    · rfl
    · have hl := hus l List.mem_cons_self
      have hr := hus r (List.mem_cons_of_mem l List.mem_cons_self)
      change ((ofKind? l.kind).bind fun a => (ofKind? r.kind).bind (binary? op a)).or none =
        (eval [] l).bind fun a => (eval [] r).bind (binary? op a)
      rw [hl, hr, Option.or_none]
  all_goals rfl

/-- What folds has its value whatever is known. -/
theorem eval_of_foldedValue? {n : Numbered} {us : List Ast} {c : Constant}
    (h : foldedValue? n.kind us = some c) (ρ : Known) : eval ρ (.node n us) = some c := by
  have hliteral : ∀ {u : Ast} {a : Constant}, ofKind? u.kind = some a → eval ρ u = some a := by
    intro u a hu
    cases u with
    | node m vs => exact eval_of_ofKind? hu ρ
  rw [eval.eq_def]
  unfold foldedValue? at h
  split at h
  · rename_i op l r rest hk
    obtain ⟨a, ha, h⟩ := Option.bind_eq_some_iff.mp h
    obtain ⟨b, hb, h⟩ := Option.bind_eq_some_iff.mp h
    simp only [hk, hliteral ha, hliteral hb]
    exact h
  · rename_i t rest hk
    obtain ⟨a, ha, h⟩ := Option.bind_eq_some_iff.mp h
    simp only [hk, hliteral ha]
    exact h
  · rename_i t hk
    simp only [hk]
    exact hliteral h
  · cases h

/-! ## One node -/

/-- The tree that takes the place of a node: a literal if there is a value for it. -/
def place (n : Numbered) (ts : List Ast) : Option Constant → Folding Ast
  | some value => (replaceBy n value).lift
  | none => return .node n ts

/-- What a pass does at a node whose children are folded. -/
def foldHere (n : Numbered) (ts : List Ast) : Folding Ast := do
  warnDivision n ts
  place n ts (foldedValue? n.kind ts)

theorem foldSlot_eq (n : Numbered) (ts : List Ast) :
    foldSlot (.node n ts) = foldSlots ts >>= foldHere n := by
  rw [foldSlot]
  rfl

theorem foldSlot_node_run (n : Numbered) (ts : List Ast) (st : FoldState) :
    (foldSlot (.node n ts)).run st =
      (foldHere n ((foldSlots ts).run st).1).run ((foldSlots ts).run st).2 := by
  rw [foldSlot_eq]
  rfl

theorem foldPass_node_run (n : Numbered) (ts : List Ast) (st : FoldState) :
    (foldPass (.node n ts)).run st =
      (.node n ((foldSlots ts).run st).1,
        ((warnDivision n ((foldSlots ts).run st).1).run ((foldSlots ts).run st).2).2) := rfl

/-- A node that a pass warns about. -/
def divides (t : Ast) : Bool :=
  match t.kind with
  | .binary op => dividesByZero op t.children
  | _ => false

theorem warnDivision_eq (n : Numbered) (ts : List Ast) :
    warnDivision n ts = if divides (.node n ts) then modify (FoldState.warn n) else pure () := by
  unfold warnDivision divides
  cases hk : n.kind <;> simp only [Tree.kind, Tree.label, Tree.children, hk]
  all_goals rfl

/-- Nothing is replaced where a warning is given. -/
theorem log_warn (n : Numbered) (st : FoldState) : (st.warn n).log = st.log := by
  rw [FoldState.warn]
  split <;> rfl

theorem log_warnDivision (n : Numbered) (ts : List Ast) (st : FoldState) :
    ((warnDivision n ts).run st).2.log = st.log := by
  rw [warnDivision_eq]
  split
  · exact log_warn n st
  · rfl

/-- There is one warning about a node. -/
theorem warnDivision_of_warned {n : Numbered} {ts : List Ast} {st : FoldState}
    (h : divides (.node n ts) = true → n.id ∈ st.warned) :
    ((warnDivision n ts).run st).2 = st := by
  rw [warnDivision_eq]
  split
  · rename_i hdivides
    have hwarn : FoldState.warn n st = st := if_pos (List.contains_iff_mem.mpr (h hdivides))
    exact hwarn
  · rfl

/-! ## What folding keeps -/

/-- What folding keeps grows: the numbers that it gave away, and the nodes that it warned about. -/
structure Grown (st st' : FoldState) : Prop where
  next : st.log.next ≤ st'.log.next
  warned : ∀ id ∈ st.warned, id ∈ st'.warned

theorem Grown.refl (st : FoldState) : Grown st st :=
  ⟨Nat.le_refl _, fun _ h => h⟩

theorem Grown.trans {st st' st'' : FoldState} (h : Grown st st') (h' : Grown st' st'') :
    Grown st st'' :=
  ⟨Nat.le_trans h.next h'.next, fun id hid => h'.warned id (h.warned id hid)⟩

theorem warnDivision_grown (n : Numbered) (ts : List Ast) (st : FoldState) :
    Grown st ((warnDivision n ts).run st).2 := by
  refine ⟨Nat.le_of_eq (by rw [log_warnDivision]), fun id hid => ?_⟩
  have hwarn : id ∈ (FoldState.warn n st).warned := by
    rw [FoldState.warn]
    split
    · exact hid
    · exact List.mem_cons_of_mem _ hid
  rw [warnDivision_eq]
  split
  · exact hwarn
  · exact hid

/-- Who is warned about is remembered. -/
theorem warned_warnDivision {n : Numbered} {ts : List Ast} (h : divides (.node n ts) = true)
    (st : FoldState) : n.id ∈ ((warnDivision n ts).run st).2.warned := by
  have hwarn : n.id ∈ (FoldState.warn n st).warned := by
    rw [FoldState.warn]
    split
    · rename_i hknown
      exact List.contains_iff_mem.mp hknown
    · exact List.mem_cons_self
  rw [warnDivision_eq, if_pos h]
  exact hwarn

theorem place_grown (n : Numbered) (ts : List Ast) (value : Option Constant) (st : FoldState) :
    Grown st ((place n ts value).run st).2 := by
  cases value with
  | none => exact .refl st
  | some value => exact ⟨Nat.le_succ _, fun _ h => h⟩

theorem foldHere_grown (n : Numbered) (ts : List Ast) (st : FoldState) :
    Grown st ((foldHere n ts).run st).2 :=
  (warnDivision_grown n ts st).trans (place_grown n ts _ _)

theorem foldSlots_grown {ts : List Ast}
    (h : ∀ t ∈ ts, ∀ st, Grown st ((foldSlot t).run st).2) (st : FoldState) :
    Grown st ((foldSlots ts).run st).2 := by
  induction ts generalizing st with
  | nil =>
    rw [foldSlots]
    exact .refl st
  | cons t ts ih =>
    rw [foldSlots_cons_run]
    exact (ih (fun u hu => h u (List.mem_cons_of_mem t hu)) st).trans (h t List.mem_cons_self _)

theorem foldSlot_grown (t : Ast) (st : FoldState) : Grown st ((foldSlot t).run st).2 := by
  induction t using Tree.induction generalizing st with
  | node n ts ih =>
    rw [foldSlot_node_run]
    exact (foldSlots_grown ih st).trans (foldHere_grown n _ _)

/-- A tree that comes out of the folding of a list was folded somewhere on the way. -/
theorem mem_foldSlots {ts : List Ast} {st : FoldState} {t' : Ast}
    (h : t' ∈ ((foldSlots ts).run st).1) :
    ∃ t ∈ ts, ∃ st₁, Grown st st₁ ∧ t' = ((foldSlot t).run st₁).1 ∧
      Grown ((foldSlot t).run st₁).2 ((foldSlots ts).run st).2 := by
  induction ts generalizing st with
  | nil =>
    rw [foldSlots] at h
    exact absurd h List.not_mem_nil
  | cons t ts ih =>
    rw [foldSlots_cons_run] at h ⊢
    rcases List.mem_cons.mp h with rfl | h
    · exact ⟨t, List.mem_cons_self, _, foldSlots_grown (fun u _ => foldSlot_grown u) st, rfl,
        .refl _⟩
    · obtain ⟨u, hu, st₁, hbefore, heq, hafter⟩ := ih h
      exact ⟨u, List.mem_cons_of_mem t hu, st₁, hbefore, heq, hafter.trans (foldSlot_grown t _)⟩

/-! ## Slots -/

/-- What a pass puts in the place of a tree: it evaluates alike whatever is known, and it is a
literal if and only if the tree has a value where nothing is known; the literal is that value. -/
structure Exact (t t' : Ast) : Prop where
  eval_eq : ∀ ρ, eval ρ t' = eval ρ t
  literal_eq : ofKind? t'.kind = eval [] t

theorem foldHere_of_none {n : Numbered} {us : List Ast} (h : foldedValue? n.kind us = none)
    (st : FoldState) : (foldHere n us).run st = (.node n us, ((warnDivision n us).run st).2) := by
  unfold foldHere
  rw [h]
  rfl

theorem foldHere_of_some {n : Numbered} {us : List Ast} {c : Constant}
    (h : foldedValue? n.kind us = some c) (st : FoldState) :
    ((foldHere n us).run st).1 = literal st.log.next n c := by
  unfold foldHere
  rw [h, ← log_warnDivision n us st]
  rfl

/-- A node is folded as it should be once its children are. -/
theorem Exact.node {n : Numbered} {ts us : List Ast} (hslots : Forall₂ Exact ts us)
    (hone : n.kind = .parenthesis → ts.length = 1) (st : FoldState) :
    Exact (.node n ts) ((foldHere n us).run st).1 := by
  have heval : ∀ ρ, eval ρ (.node n us) = eval ρ (.node n ts) := fun ρ =>
    eval_node_congr n (hslots.imp fun _ _ h => h.eval_eq ρ)
  have hfolded : ∀ u ∈ us, ofKind? u.kind = eval [] u := by
    intro u hu
    obtain ⟨t, -, hexact⟩ := forall₂_mem_right hslots hu
    rw [hexact.literal_eq, hexact.eval_eq]
  have hvalue := foldedValue?_or_ofKind? hfolded (n := n) fun hk => hslots.length_eq ▸ hone hk
  cases hfold : foldedValue? n.kind us with
  | none =>
    rw [hfold, Option.none_or] at hvalue
    rw [foldHere_of_none hfold]
    exact ⟨heval, hvalue.trans (heval [])⟩
  | some c =>
    have hconst : ∀ ρ, eval ρ (.node n ts) = some c := fun ρ =>
      (heval ρ).symm.trans (eval_of_foldedValue? hfold ρ)
    rw [foldHere_of_some hfold]
    refine ⟨fun ρ => ?_, ?_⟩
    · rw [eval_literal, hconst]
    · rw [ofKind?_literal, hconst]

/-- **Folding agrees with evaluation**: a tree and what a pass puts in its place. -/
theorem foldSlot_exact {t : Ast} (h : Bracketed t) (st : FoldState) :
    Exact t ((foldSlot t).run st).1 := by
  induction t using Tree.induction generalizing st with
  | node n ts ih =>
    rw [foldSlot_node_run]
    refine .node (foldSlots_forall₂ (fun t ht => ih t ht (h.child ht)) st) ?_ _
    exact h _ (Tree.self_mem_subtrees _)

theorem foldSlots_exact {n : Numbered} {ts : List Ast} (h : Bracketed (.node n ts))
    (st : FoldState) : Forall₂ Exact ts ((foldSlots ts).run st).1 :=
  foldSlots_forall₂ (fun _ ht => foldSlot_exact (h.child ht)) st

/-- Where a node of a folded tree comes from: it is a literal with a number that was not given away
before, or it is the same node as before, and each of its slots is folded as it should be. -/
inductive Left (next : Nat) (t : Ast) : Ast → Prop
  | literal {u' : Ast} (hnew : next ≤ u'.id) (hleaf : u'.children = []) : Left next t u'
  | node {u u' : Ast} (hu : u ∈ t.subtrees) (hlabel : u.label = u'.label)
      (hslots : Forall₂ Exact u.children u'.children) : Left next t u'

theorem Left.of_child {next next' : Nat} {n : Numbered} {ts : List Ast} {t u' : Ast}
    (h : Left next' t u') (hnext : next ≤ next') (ht : t ∈ ts) : Left next (.node n ts) u' := by
  cases h with
  | literal hnew hleaf => exact .literal (Nat.le_trans hnext hnew) hleaf
  | node hu hlabel hslots => exact .node (Tree.mem_subtrees_of_child ht hu) hlabel hslots

/-- The nodes below one whose children are folded. -/
theorem left_of_mem_foldSlots {n : Numbered} {ts : List Ast} {st : FoldState} {t' u' : Ast}
    (ih : ∀ t ∈ ts, ∀ st, ∀ u' ∈ ((foldSlot t).run st).1.subtrees, Left st.log.next t u')
    (ht' : t' ∈ ((foldSlots ts).run st).1) (hu' : u' ∈ t'.subtrees) :
    Left st.log.next (.node n ts) u' := by
  obtain ⟨t, ht, st₁, hgrown, rfl, -⟩ := mem_foldSlots ht'
  exact (ih t ht st₁ u' hu').of_child hgrown.next ht

theorem foldSlot_left {t : Ast} (h : Bracketed t) (st : FoldState) :
    ∀ u' ∈ ((foldSlot t).run st).1.subtrees, Left st.log.next t u' := by
  induction t using Tree.induction generalizing st with
  | node n ts ih =>
    intro u' hu'
    rw [foldSlot_node_run] at hu'
    have hgrown : Grown st ((foldSlots ts).run st).2 :=
      foldSlots_grown (fun t _ => foldSlot_grown t) st
    cases hfold : foldedValue? n.kind ((foldSlots ts).run st).1 with
    | none =>
      rw [foldHere_of_none hfold] at hu'
      rcases Tree.mem_subtrees_node.mp hu' with rfl | ⟨t', ht', hu'⟩
      · exact .node (Tree.self_mem_subtrees _) rfl (foldSlots_exact h st)
      · exact left_of_mem_foldSlots (fun t ht => ih t ht (h.child ht)) ht' hu'
    | some c =>
      rw [foldHere_of_some hfold] at hu'
      rcases Tree.mem_subtrees_node.mp hu' with rfl | ⟨t', ht', -⟩
      · exact .literal hgrown.next rfl
      · exact absurd ht' List.not_mem_nil

/-- **What a pass leaves of a tree**, at each of its nodes.  The root stays. -/
theorem foldPass_left {t : Ast} (h : Bracketed t) (st : FoldState) :
    ∀ u' ∈ ((foldPass t).run st).1.subtrees, Left st.log.next t u' := by
  cases t with
  | node n ts =>
    intro u' hu'
    rw [foldPass_node_run] at hu'
    rcases Tree.mem_subtrees_node.mp hu' with rfl | ⟨t', ht', hu'⟩
    · exact .node (Tree.self_mem_subtrees _) rfl (foldSlots_exact h st)
    · exact left_of_mem_foldSlots (fun t ht => foldSlot_left (h.child ht)) ht' hu'

/-! ## A second pass -/

/-- A node that does not fold, and that was warned about if it divides by zero. -/
structure Settled (warned : List Nat) (u : Ast) : Prop where
  unfolded : foldedValue? u.kind u.children = none
  warned : divides u = true → u.id ∈ warned

theorem Settled.mono {warned warned' : List Nat} {u : Ast} (h : Settled warned u)
    (hsub : ∀ id ∈ warned, id ∈ warned') : Settled warned' u :=
  ⟨h.unfolded, fun hdivides => hsub _ (h.warned hdivides)⟩

theorem settled_literal (warned : List Nat) (id : Nat) (n : Numbered) (c : Constant) :
    Settled warned (literal id n c) := by
  have hdivides : divides (literal id n c) = false := by cases c <;> rfl
  refine ⟨by cases c <;> rfl, fun h => ?_⟩
  rw [hdivides] at h
  cases h

/-- The nodes below one whose children are folded. -/
theorem settled_of_mem_foldSlots {ts : List Ast} {st : FoldState} {t' u' : Ast}
    (ih : ∀ t ∈ ts, ∀ st, ∀ u' ∈ ((foldSlot t).run st).1.subtrees,
      Settled ((foldSlot t).run st).2.warned u')
    (ht' : t' ∈ ((foldSlots ts).run st).1) (hu' : u' ∈ t'.subtrees) :
    Settled ((foldSlots ts).run st).2.warned u' := by
  obtain ⟨t, ht, st₁, -, rfl, hgrown⟩ := mem_foldSlots ht'
  exact (ih t ht st₁ u' hu').mono hgrown.warned

/-- **A pass leaves nothing to fold** and nothing to warn about. -/
theorem foldSlot_settled (t : Ast) (st : FoldState) :
    ∀ u' ∈ ((foldSlot t).run st).1.subtrees, Settled ((foldSlot t).run st).2.warned u' := by
  induction t using Tree.induction generalizing st with
  | node n ts ih =>
    intro u' hu'
    rw [foldSlot_node_run] at hu' ⊢
    cases hfold : foldedValue? n.kind ((foldSlots ts).run st).1 with
    | none =>
      rw [foldHere_of_none hfold] at hu' ⊢
      rcases Tree.mem_subtrees_node.mp hu' with rfl | ⟨t', ht', hu'⟩
      · exact ⟨hfold, fun hdivides => warned_warnDivision hdivides _⟩
      · exact (settled_of_mem_foldSlots ih ht' hu').mono (warnDivision_grown n _ _).warned
    | some c =>
      rw [foldHere_of_some hfold] at hu'
      rcases Tree.mem_subtrees_node.mp hu' with rfl | ⟨t', ht', -⟩
      · exact settled_literal _ _ n c
      · exact absurd ht' List.not_mem_nil

/-- A computation that changes neither a tree nor the log, and nothing at all if the nodes that it
looks at were warned about. -/
structure Idle {α : Type} (a : α) (nodes : List Ast) (st : FoldState) (result : α × FoldState) :
    Prop where
  same : result.1 = a
  log : result.2.log = st.log
  state : (∀ u ∈ nodes, divides u = true → u.id ∈ st.warned) → result.2 = st

theorem foldSlots_idle {ts : List Ast}
    (h : ∀ t ∈ ts, ∀ st, Idle t t.subtrees st ((foldSlot t).run st)) (st : FoldState) :
    Idle ts (Tree.subtreesAll ts) st ((foldSlots ts).run st) := by
  induction ts with
  | nil =>
    rw [foldSlots]
    exact ⟨rfl, rfl, fun _ => rfl⟩
  | cons t ts ih =>
    have hrest := ih fun u hu => h u (List.mem_cons_of_mem t hu)
    have hfirst := h t List.mem_cons_self ((foldSlots ts).run st).2
    rw [foldSlots_cons_run]
    refine ⟨?_, hfirst.log.trans hrest.log, fun hwarned => ?_⟩
    · rw [hfirst.same, hrest.same]
    · have hsame : ((foldSlots ts).run st).2 = st :=
        hrest.state fun u hu => hwarned u (List.mem_append_right _ hu)
      rw [hsame] at hfirst ⊢
      exact hfirst.state fun u hu => hwarned u (List.mem_append_left _ hu)

/-- The children and then the node. -/
theorem Idle.node {n : Numbered} {ts : List Ast} {st : FoldState}
    (h : Idle ts (Tree.subtreesAll ts) st ((foldSlots ts).run st)) :
    Idle (Tree.node n ts) (Tree.node n ts).subtrees st
      (Tree.node n ((foldSlots ts).run st).1,
        ((warnDivision n ((foldSlots ts).run st).1).run ((foldSlots ts).run st).2).2) := by
  refine ⟨by rw [h.same], (log_warnDivision ..).trans h.log, fun hwarned => ?_⟩
  have hsame : ((foldSlots ts).run st).2 = st :=
    h.state fun u hu => hwarned u (List.mem_cons_of_mem _ hu)
  rw [h.same, hsame]
  exact warnDivision_of_warned (hwarned _ (Tree.self_mem_subtrees _))

theorem foldSlot_idle {t : Ast} (h : ∀ u ∈ t.subtrees, foldedValue? u.kind u.children = none)
    (st : FoldState) : Idle t t.subtrees st ((foldSlot t).run st) := by
  induction t using Tree.induction generalizing st with
  | node n ts ih =>
    have hslots := foldSlots_idle (fun t ht =>
      ih t ht fun u hu => h u (Tree.mem_subtrees_of_child ht hu)) st
    have hfold : foldedValue? n.kind ((foldSlots ts).run st).1 = none := by
      rw [hslots.same]
      exact h _ (Tree.self_mem_subtrees _)
    rw [foldSlot_node_run, foldHere_of_none hfold]
    exact hslots.node

/-- Whoever was left by a pass has nothing to fold, whatever was warned about before. -/
theorem foldPass_idle (t : Ast) (st st' : FoldState) :
    Idle ((foldPass t).run st).1 ((foldPass t).run st).1.subtrees st'
      ((foldPass ((foldPass t).run st).1).run st') := by
  cases t with
  | node n ts =>
    rw [foldPass_node_run, foldPass_node_run]
    refine (foldSlots_idle (fun t' ht' => foldSlot_idle fun u hu => ?_) st').node
    exact (settled_of_mem_foldSlots (fun t _ => foldSlot_settled t) ht' hu).unfolded

/-- All divisions by zero that a pass leaves have been warned about. -/
theorem foldPass_warned {t u : Ast} {st : FoldState} (hu : u ∈ ((foldPass t).run st).1.subtrees)
    (hdivides : divides u = true) : u.id ∈ ((foldPass t).run st).2.warned := by
  cases t with
  | node n ts =>
    rw [foldPass_node_run] at hu ⊢
    rcases Tree.mem_subtrees_node.mp hu with rfl | ⟨t', ht', hu⟩
    · exact warned_warnDivision hdivides _
    · refine (warnDivision_grown n _ _).warned _ ?_
      exact (settled_of_mem_foldSlots (fun t _ => foldSlot_settled t) ht' hu).warned hdivides

/-- **A pass after a pass does nothing at all.** -/
theorem foldPass_foldPass (t : Ast) (st : FoldState) :
    (foldPass ((foldPass t).run st).1).run ((foldPass t).run st).2 = (foldPass t).run st := by
  have hidle := foldPass_idle t st ((foldPass t).run st).2
  exact Prod.ext hidle.same (hidle.state fun _ => foldPass_warned)

theorem foldPasses_succ_run (fuel : Nat) (t : Ast) (st : FoldState) :
    (foldPasses (fuel + 1) t).run st =
      if ((foldPass t).run st).2.count = st.count then (foldPass t).run st
      else (foldPasses fuel ((foldPass t).run st).1).run ((foldPass t).run st).2 := by
  rw [foldPasses]
  show (if ((foldPass t).run st).2.count = st.count then pure ((foldPass t).run st).1
    else foldPasses fuel ((foldPass t).run st).1 : Folding Ast).run ((foldPass t).run st).2 = _
  split
  · rfl
  · rfl

/-- Passes over what a pass leaves alone come to an end at once. -/
theorem foldPasses_of_fixed {t : Ast} {st : FoldState} (h : (foldPass t).run st = (t, st))
    (fuel : Nat) : (foldPasses fuel t).run st = (t, st) := by
  cases fuel with
  | zero => rfl
  | succ fuel =>
    rw [foldPasses_succ_run, h]
    exact if_pos rfl

/-- **Folding is complete after one pass.** -/
theorem fold_eq_foldPass (t : Ast) (st : FoldState) : (fold t).run st = (foldPass t).run st := by
  obtain ⟨fuel, hsize⟩ : ∃ fuel, t.size = fuel + 1 := by
    cases t with
    | node n ts => exact ⟨_, rfl⟩
  rw [fold, hsize, foldPasses_succ_run]
  split
  · rfl
  · exact foldPasses_of_fixed (foldPass_foldPass t st) fuel

end Constant
end ClassCompiler
