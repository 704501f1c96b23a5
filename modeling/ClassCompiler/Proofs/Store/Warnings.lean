import ClassCompiler.Proofs.Store.Accounting
import ClassCompiler.Proofs.Store.Copying

/-!
# Warnings about divisions by zero

Folding warns about a division by a literal zero and leaves it there.  Propagation puts literals in
the places of variables, so there are new divisions of that kind from round to round, and folding
comes by the old ones again and again.  Nodes that were warned about are remembered by their
numbers.

What is said about the warnings holds at every step of the way: they belong to different nodes, and
all of these still divide by zero.  For where operations have their operands, and nothing is below a
literal or a variable, no replacement touches such a node.  It does not fold, its operands are
literals already, and whatever is around it has more than literals below it.

The converse needs a round that replaces nothing.  Then the tree is what folding left in that round,
and folding looked at all of it.

* `Formed`, `DividesByZero`: the trees, and the divisions in them.
* `DividesByZero.fill`: what a replacement leaves alone.
* `Reported`, `Moves.reported`: the warnings on the way.
* `replacementCounts`: the number of replacements, round by round.
* `rounds_warned`: a last round without replacements leaves nothing to warn about.
* `Store.optimize_warnings_exact`: the warnings of optimizing.
-/

namespace ClassCompiler

open ClassCompiler.Tree (Frame fill)

/-! ## Subtrees in frames -/

namespace Tree

theorem mem_subtrees_fill {t u : Ast} (hu : u ∈ t.subtrees) (C : List Frame) :
    u ∈ (fill t C).subtrees := by
  induction C generalizing t with
  | nil => exact hu
  | cons F C ih => exact ih (mem_subtrees_of_child (by simp) hu)

/-- A tree in a frame is the one that fills it, or stands beside it. -/
theorem eq_or_mem_frame {t v : Ast} {F : Frame} (hv : v ∈ F.left ++ t :: F.right) :
    v = t ∨ ∀ t', v ∈ F.left ++ t' :: F.right := by
  rcases List.mem_append.mp hv with hv | hv
  · exact .inr fun t' => List.mem_append_left _ hv
  · rcases List.mem_cons.mp hv with rfl | hv
    · exact .inl rfl
    · exact .inr fun t' => List.mem_append_right _ (List.mem_cons_of_mem t' hv)

end Tree

namespace Constant

variable {n : Numbered} {t t' u : Ast} {ts us : List Ast} {C : List Frame}

/-! ## Well-formed expressions -/

/-- The number of children that an expression of some kind has. -/
def arity? : Kind → Option Nat
  | .binary _ => some 2
  | .negation | .parenthesis => some 1
  | .integer _ | .boolean _ | .identifier _ => some 0
  | _ => none

/-- Operations and parentheses hold their operands, and nothing is below literals and variables. -/
def Formed (t : Ast) : Prop :=
  ∀ u ∈ t.subtrees, ∀ k ∈ arity? u.kind, u.children.length = k

instance (t : Ast) : Decidable (Formed t) :=
  inferInstanceAs (Decidable (∀ u ∈ t.subtrees, ∀ k ∈ arity? u.kind, u.children.length = k))

namespace Formed

theorem child (h : Formed (.node n ts)) (ht : t ∈ ts) : Formed t :=
  fun u hu => h u (Tree.mem_subtrees_of_child ht hu)

theorem of_fill (h : Formed (fill t C)) : Formed t :=
  fun u hu => h u (Tree.mem_subtrees_fill hu C)

/-- Another tree fills the frames. -/
theorem fill (h : Formed (fill t C)) (h' : Formed t') : Formed (fill t' C) := by
  induction C generalizing t t' with
  | nil => exact h'
  | cons F C ih =>
    have hnode : Formed (.node F.label (F.left ++ t :: F.right)) := of_fill (C := C) h
    refine ih h fun u hu => ?_
    rcases Tree.mem_subtrees_node.mp hu with rfl | ⟨v, hv, hbelow⟩
    · intro k hk
      have hlength := hnode _ (Tree.self_mem_subtrees _) k hk
      simpa [Tree.children] using hlength
    · rcases Tree.eq_or_mem_frame hv with rfl | hv
      · exact h' u hbelow
      · exact hnode.child (hv t) u hbelow

theorem literal (id : Nat) (n : Numbered) (value : Constant) : Formed (literal id n value) := by
  intro u hu k hk
  rcases Tree.mem_subtrees_node.mp hu with rfl | ⟨v, hv, -⟩
  · cases value <;> exact Option.some.inj hk
  · exact absurd hv List.not_mem_nil

/-- Nothing is below a literal. -/
theorem leaf (h : Formed t) (ht : (ofKind? t.kind).isSome = true) : t.children = [] := by
  have harity : arity? t.kind = some 0 := by
    cases hk : t.kind with
    | integer _ | boolean _ => rfl
    | _ =>
      rw [hk] at ht
      cases ht
  exact List.length_eq_zero_iff.mp (h t (Tree.self_mem_subtrees t) 0 harity)

end Formed

/-! ## Divisions by zero -/

/-- A division whose operands are literals, and the right one is zero. -/
def DividesByZero (u : Ast) : Prop :=
  u.kind = .binary .div ∧
    ∃ l r, u.children = [l, r] ∧ (ofKind? l.kind).isSome = true ∧ r.kind = .integer 0

theorem ofKind?_eq_zero {kind : Kind} (h : ofKind? kind = some (.int 0)) : kind = .integer 0 := by
  cases kind with
  | integer value =>
    rw [ofKind?] at h
    cases h
    rfl
  | _ => cases h

/-- These are the nodes that folding warns about. -/
theorem divides_iff (harity : ∀ k ∈ arity? u.kind, u.children.length = k) :
    divides u = true ↔ DividesByZero u := by
  constructor
  · intro hdivides
    unfold divides at hdivides
    cases hk : u.kind with
    | binary op =>
      rw [hk] at harity
      obtain ⟨l, r, hchildren⟩ := List.length_eq_two.mp (harity 2 rfl)
      simp only [hk, hchildren] at hdivides
      cases op with
      | div =>
        obtain ⟨hl, hr⟩ := Bool.and_eq_true_iff.mp hdivides
        exact ⟨hk, l, r, hchildren, hl, ofKind?_eq_zero (eq_of_beq hr)⟩
      | _ => cases hdivides
    | _ =>
      simp only [hk] at hdivides
      cases hdivides
  · rintro ⟨hk, l, r, hchildren, hl, hr⟩
    unfold divides
    simp only [hk, hchildren, dividesByZero, hl, hr]
    rfl

/-- A division by zero has no value. -/
theorem DividesByZero.foldedValue? (h : DividesByZero u) :
    foldedValue? u.kind u.children = none := by
  obtain ⟨hk, l, r, hchildren, hl, hr⟩ := h
  obtain ⟨a, ha⟩ := Option.isSome_iff_exists.mp hl
  have hvalue : binary? .div a (.int 0) = none := by cases a <;> rfl
  rw [hk, hchildren, Constant.foldedValue?, ha, hr]
  exact hvalue

/-- What folds has literals below it and nothing else. -/
theorem isSome_of_foldedValue? {value : Constant} (hformed : Formed (.node n ts))
    (h : foldedValue? n.kind ts = some value) (ht : t ∈ ts) : (ofKind? t.kind).isSome = true := by
  have harity := hformed _ (Tree.self_mem_subtrees _)
  rw [show (Tree.node n ts : Ast).kind = n.kind from rfl,
    show (Tree.node n ts : Ast).children = ts from rfl] at harity
  cases hk : n.kind with
  | binary op =>
    rw [hk] at h harity
    obtain ⟨l, r, rfl⟩ := List.length_eq_two.mp (harity 2 rfl)
    obtain ⟨a, ha, h⟩ := Option.bind_eq_some_iff.mp h
    obtain ⟨b, hb, -⟩ := Option.bind_eq_some_iff.mp h
    rcases List.mem_pair.mp ht with rfl | rfl
    · rw [ha, Option.isSome_some]
    · rw [hb, Option.isSome_some]
  | negation =>
    rw [hk] at h harity
    obtain ⟨v, rfl⟩ := List.length_eq_one_iff.mp (harity 1 rfl)
    obtain ⟨a, ha, -⟩ := Option.bind_eq_some_iff.mp h
    rw [List.mem_singleton.mp ht, ha, Option.isSome_some]
  | parenthesis =>
    rw [hk] at h harity
    obtain ⟨v, rfl⟩ := List.length_eq_one_iff.mp (harity 1 rfl)
    have hv : ofKind? v.kind = some value := h
    rw [List.mem_singleton.mp ht, hv, Option.isSome_some]
  | _ =>
    rw [hk] at h
    cases h

/-- There is no division by zero in what a literal takes the place of. -/
theorem Reduces.not_dividesByZero {value : Constant} (h : Reduces n ts value)
    (hformed : Formed (.node n ts)) (hu : u ∈ (Tree.node n ts).subtrees) : ¬ DividesByZero u := by
  intro hzero
  rcases Tree.mem_subtrees_node.mp hu with rfl | ⟨t, ht, hu⟩
  · cases h with
    | read hk => cases hk.symm.trans hzero.1
    | folded h => cases h.symm.trans hzero.foldedValue?
  · cases h with
    | read hk =>
      have hnil : ts = [] := by
        refine List.length_eq_zero_iff.mp (hformed _ (Tree.self_mem_subtrees _) 0 ?_)
        rw [show (Tree.node n ts : Ast).kind = n.kind from rfl, hk]
        rfl
      rw [hnil] at ht
      exact absurd ht List.not_mem_nil
    | folded h =>
      have hliteral := isSome_of_foldedValue? hformed h ht
      have hleaf := (hformed.child ht).leaf hliteral
      cases t with
      | node m vs =>
        obtain rfl : vs = [] := hleaf
        rcases Tree.mem_subtrees_node.mp hu with rfl | ⟨v, hv, -⟩
        · rw [hzero.1] at hliteral
          cases hliteral
        · exact absurd hv List.not_mem_nil

/-- A tree in some frames gives way to another.  If the other one has its divisions by zero, and it
is no literal without children itself, then all divisions by zero stay. -/
theorem DividesByZero.fill (hformed : Formed (fill t C))
    (hkeep : ∀ u ∈ t.subtrees, DividesByZero u → u ∈ t'.subtrees)
    (ht : (ofKind? t.kind).isSome = true → t.children ≠ []) (hu : u ∈ (fill t C).subtrees)
    (hzero : DividesByZero u) : u ∈ (fill t' C).subtrees := by
  induction C generalizing t t' with
  | nil => exact hkeep u hu hzero
  | cons F C ih =>
    have hnode : Formed (.node F.label (F.left ++ t :: F.right)) := Formed.of_fill (C := C) hformed
    refine ih hformed (fun v hv hvzero => ?_) (fun _ => by simp [Tree.children]) hu
    rcases Tree.mem_subtrees_node.mp hv with rfl | ⟨w, hw, hbelow⟩
    · -- the node around `t` divides by zero: then `t` is one of two literals
      obtain ⟨-, l, r, hchildren, hl, hr⟩ := hvzero
      have hmem : t ∈ F.left ++ t :: F.right := by simp
      have hliteral : (ofKind? t.kind).isSome = true := by
        rw [show F.left ++ t :: F.right = [l, r] from hchildren] at hmem
        rcases List.mem_pair.mp hmem with rfl | rfl
        · exact hl
        · rw [hr]
          rfl
      exact absurd ((hnode.child hmem).leaf hliteral) (ht hliteral)
    · rcases Tree.eq_or_mem_frame hw with rfl | hw
      · exact Tree.mem_subtrees_of_child (by simp) (hkeep v hbelow hvzero)
      · exact Tree.mem_subtrees_of_child (hw t') hbelow

/-! ## The warnings on the way -/

/-- The warning about a division. -/
def warning (u : Ast) : Diagnostic :=
  ⟨u.position, .constantDivisionByZero⟩

/-- What was warned about: divisions by zero that are in the tree, each of them once. -/
structure Reported (us : List Ast) (t : Ast) (st : FoldState) : Prop where
  warned : st.warned = (us.map Tree.id).reverse
  diagnostics : st.diagnostics = us.map warning
  nodup : (us.map Tree.id).Nodup
  divides : ∀ u ∈ us, u ∈ t.subtrees ∧ DividesByZero u

theorem Reported.severity {st : FoldState} (h : Reported us t st) :
    ∀ d ∈ st.diagnostics, d.problem.severity = .warning := by
  intro d hd
  rw [h.diagnostics] at hd
  obtain ⟨u, -, rfl⟩ := List.mem_map.mp hd
  rfl

/-- Divisions that are warned about stay where they are. -/
theorem Reported.replace {st : FoldState} {value : Constant} {F : Frame}
    (h : Reported us (fill (.node n ts) (F :: C)) st) (hreduces : Reduces n ts value)
    (hformed : Formed (fill (.node n ts) (F :: C))) :
    Reported us (fill ((replaceBy n value).lift st).1 (F :: C))
      ((replaceBy n value).lift st).2 := by
  refine ⟨h.warned, h.diagnostics, h.nodup, fun u hu => ⟨?_, (h.divides u hu).2⟩⟩
  have hnode : Formed (.node n ts) := Formed.of_fill (C := F :: C) hformed
  refine DividesByZero.fill hformed (fun v hv hvzero => ?_) (fun hliteral => ?_)
    (h.divides u hu).1 (h.divides u hu).2
  · exact absurd hvzero (hreduces.not_dividesByZero hnode hv)
  · have hreducible := hreduces.isReducible
    change (ofKind? n.kind).isSome = true at hliteral
    cases hk : n.kind with
    | integer _ | boolean _ =>
      rw [hk] at hreducible
      cases hreducible
    | _ =>
      rw [hk] at hliteral
      cases hliteral

/-- A division is warned about, unless it was before. -/
theorem Reported.warn {st : FoldState} (h : Reported us t st)
    (hu : Tree.node n ts ∈ t.subtrees) (hzero : DividesByZero (.node n ts)) :
    ∃ us', Reported us' t (st.warn n) := by
  rw [FoldState.warn]
  split
  · exact ⟨us, h⟩
  · next hnew =>
    have hfresh : n.id ∉ us.map Tree.id := by
      rw [List.contains_iff_mem, h.warned, List.mem_reverse] at hnew
      exact hnew
    refine ⟨us ++ [.node n ts], ?_, ?_, ?_, fun u hu' => ?_⟩
    · simp only [h.warned, List.map_append, List.map_singleton, List.reverse_append]
      rfl
    · simp only [h.diagnostics, List.map_append, List.map_singleton]
      rfl
    · rw [List.map_append, List.map_singleton, List.nodup_append]
      refine ⟨h.nodup, List.nodup_singleton _, fun id hid id' hid' heq => hfresh ?_⟩
      rw [← show id = n.id from heq.trans (List.mem_singleton.mp hid')]
      exact hid
    · rcases List.mem_append.mp hu' with hu' | hu'
      · exact h.divides u hu'
      · rw [List.mem_singleton.mp hu']
        exact ⟨hu, hzero⟩

/-- One move. -/
theorem Move.reported {p p' : Ast × FoldState} (h : Move p p') (hformed : Formed p.1)
    (hreported : Reported us p.1 p.2) : Formed p'.1 ∧ ∃ us', Reported us' p'.1 p'.2 := by
  cases h with
  | replace F C hreduces =>
    exact ⟨hformed.fill (.literal _ _ _), us, hreported.replace hreduces hformed⟩
  | @warn n ts st C hdivides =>
    have hnode := Tree.mem_subtrees_fill (Tree.self_mem_subtrees (.node n ts)) C
    exact ⟨hformed, hreported.warn hnode ((divides_iff (hformed _ hnode)).mp hdivides)⟩

/-- **The warnings, all the way**: from a tree whose expressions are well formed, and without any
warnings yet. -/
theorem Moves.reported {p : Ast × FoldState} {log : Log} (h : Moves (t, { log }) p)
    (hformed : Formed t) : Formed p.1 ∧ ∃ us, Reported us p.1 p.2 := by
  induction h with
  | refl => exact ⟨hformed, [], rfl, rfl, List.nodup_nil, fun u hu => absurd hu List.not_mem_nil⟩
  | tail _ hmove ih =>
    obtain ⟨hformed, us, hreported⟩ := ih
    exact Move.reported hmove hformed hreported

/-! ## Rounds without replacements -/

/-- The numbers of replacements in the rounds that are done. -/
def replacementCounts (T : ClassTable) : Nat → Ast → FoldState → List Nat
  | 0, _, _ => []
  | left + 1, t, st =>
    let result := (OnStore.round T t).run st
    (result.2.count - st.count) ::
      if result.1.2.isOk = false ∨ result.2.count = st.count then []
      else replacementCounts T left result.1.1 result.2

variable {T : ClassTable} {st : FoldState}

theorem count_le_round (T : ClassTable) (t : Ast) (st : FoldState) :
    st.count ≤ ((OnStore.round T t).run st).2.count :=
  (round_moves t st).rewrites.length_le

/-- After a round without replacements the tree is what its folding left. -/
theorem round_warned (h : ((OnStore.round T t).run st).2.count = st.count)
    (hu : u ∈ ((OnStore.round T t).run st).1.1.subtrees) (hdivides : divides u = true) :
    u.id ∈ ((OnStore.round T t).run st).2.warned := by
  have hpass : (fold t) st = (foldPass t).run st := fold_eq_foldPass t st
  have hround : (OnStore.round T t).run st = (propagate T ((fold t) st).1).lift ((fold t) st).2 :=
    rfl
  rw [hpass] at hround
  have hfold := (foldPass_rewrites t st).length_le
  have hsame : ((propagate T ((foldPass t).run st).1) ((foldPass t).run st).2.log).1.1 =
      ((foldPass t).run st).1 := by
    rcases (propagate_rewrites (T := T) ((foldPass t).run st).1
      ((foldPass t).run st).2.log).eq_or_lt with heq | hlt
    · exact congrArg Prod.fst heq
    · rw [hround] at h
      have hcount : ((propagate T ((foldPass t).run st).1)
          ((foldPass t).run st).2.log).2.edits.length = st.log.edits.length := h
      dsimp only at hfold hlt
      omega
  rw [hround] at hu ⊢
  change u ∈ ((propagate T ((foldPass t).run st).1)
    ((foldPass t).run st).2.log).1.1.subtrees at hu
  rw [hsame] at hu
  exact foldPass_warned hu hdivides

theorem replacementCounts_of_error {st' : FoldState} {e : Error} {left : Nat}
    (h : (OnStore.round T t).run st = ((t', .error e), st')) :
    replacementCounts T (left + 1) t st = [st'.count - st.count] := by
  rw [replacementCounts, h]
  exact congrArg _ (if_pos (.inl rfl))

theorem replacementCounts_of_ok {st' : FoldState} {left : Nat}
    (h : (OnStore.round T t).run st = ((t', .ok ()), st')) :
    replacementCounts T (left + 1) t st =
      (st'.count - st.count) ::
        if st'.count = st.count then [] else replacementCounts T left t' st' := by
  rw [replacementCounts, h]
  by_cases hsame : st'.count = st.count
  · rw [if_pos hsame]
    exact congrArg _ (if_pos (.inr hsame))
  · rw [if_neg hsame]
    exact congrArg _ (if_neg fun hor => hor.elim (fun hok => by cases hok) hsame)

/-- The rounds together replace what they replace one by one. -/
theorem count_rounds (left : Nat) (t : Ast) (st : FoldState) :
    ((rounds T left t).run st).2.count =
      st.count + (replacementCounts T left t st).foldr (· + ·) 0 := by
  induction left generalizing t st with
  | zero => rfl
  | succ left ih =>
    have hle := count_le_round T t st
    obtain ⟨⟨⟨t', e | ⟨⟩⟩, st'⟩, hrun⟩ : ∃ r, (OnStore.round T t).run st = r := ⟨_, rfl⟩
    · have hrounds : (rounds T (left + 1) t).run st = _ := OnStore.rounds_of_error hrun
      rw [hrun] at hle
      rw [hrounds, replacementCounts_of_error hrun, List.foldr_cons, List.foldr_nil]
      dsimp only at hle ⊢
      omega
    · have hrounds : (rounds T (left + 1) t).run st = _ := OnStore.rounds_of_ok hrun
      rw [hrun] at hle
      rw [hrounds, replacementCounts_of_ok hrun, List.foldr_cons]
      by_cases hsame : st'.count = st.count
      · rw [if_pos hsame, if_pos hsame, List.foldr_nil]
        dsimp only at hle ⊢
        omega
      · rw [if_neg hsame, if_neg hsame]
        have hrest := ih t' st'
        change ((rounds T left t').run st').2.count = _
        dsimp only at hle
        omega

/-- **A last round without replacements leaves nothing to warn about.** -/
theorem rounds_warned {left : Nat} (hlast : (replacementCounts T left t st).getLast? = some 0)
    (hu : u ∈ ((rounds T left t).run st).1.1.subtrees) (hdivides : divides u = true) :
    u.id ∈ ((rounds T left t).run st).2.warned := by
  induction left generalizing t st with
  | zero => cases hlast
  | succ left ih =>
    have hle := count_le_round T t st
    have hround : ((OnStore.round T t).run st).2.count = st.count →
        u ∈ ((OnStore.round T t).run st).1.1.subtrees →
        u.id ∈ ((OnStore.round T t).run st).2.warned :=
      fun hsame hu => round_warned hsame hu hdivides
    obtain ⟨⟨⟨t', e | ⟨⟩⟩, st'⟩, hrun⟩ : ∃ r, (OnStore.round T t).run st = r := ⟨_, rfl⟩
    · have hrounds : (rounds T (left + 1) t).run st = _ := OnStore.rounds_of_error hrun
      rw [hrun] at hle hround
      rw [hrounds] at hu ⊢
      rw [replacementCounts_of_error hrun] at hlast
      have hnone : st'.count - st.count = 0 := Option.some.inj hlast
      exact hround (by dsimp only at hle ⊢; omega) hu
    · have hrounds : (rounds T (left + 1) t).run st = _ := OnStore.rounds_of_ok hrun
      rw [hrun] at hle hround
      rw [hrounds] at hu ⊢
      rw [replacementCounts_of_ok hrun] at hlast
      by_cases hsame : st'.count = st.count
      · rw [if_pos hsame] at hu ⊢
        exact hround hsame hu
      · rw [if_neg hsame] at hu hlast ⊢
        refine ih ?_ hu
        -- some round follows, for the count of this one is not zero
        cases hrest : replacementCounts T left t' st' with
        | nil =>
          rw [hrest] at hlast
          have hnone : st'.count - st.count = 0 := Option.some.inj hlast
          dsimp only at hle
          omega
        | cons count counts =>
          rw [hrest, List.getLast?_cons_cons] at hlast
          exact hlast

end Constant

/-! ## The store -/

namespace Store

open Constant (DividesByZero FoldState Formed Reported replacementCounts roundLimit)

variable {s : Store}

/-- Nodes of one number are one node. -/
theorem Holds.mem_of_reported {t u : Ast} {us : List Ast} {st : FoldState} (h : s.Holds t)
    (hreported : Reported us t st) (hu : u ∈ t.subtrees) (hwarned : u.id ∈ st.warned) :
    u ∈ us := by
  rw [hreported.warned, List.mem_reverse] at hwarned
  obtain ⟨v, hv, hid⟩ := List.mem_map.mp hwarned
  have hsame : v = u := (h.subtree (hreported.divides v hv).1).eq_of_id (h.subtree hu) hid
  rwa [hsame] at hv

/-- **The warnings about divisions by zero are exact.**  Optimize a store in whose tree operations
and parentheses hold their operands and nothing is below literals and variables.  What is reported
are warnings about different nodes.  All of them are in the tree afterwards, as divisions of a
literal by a literal zero.  If the last round replaced nothing, all such divisions in the tree were
warned about. -/
theorem optimize_warnings_exact (hs : s.Linked) {t : Ast} (ht : s.treeAt root = .ok t)
    (hformed : Formed t) (T : ClassTable) {total : Nat} (hok : (s.optimize T).2.2 = .ok total) :
    ∃ (t' : Ast) (us : List Ast), (s.optimize T).1.treeAt root = .ok t' ∧
      (s.optimize T).2.1 = us.map Constant.warning ∧
      (∀ d ∈ (s.optimize T).2.1, d.problem.severity = .warning) ∧
      (us.map Tree.id).Nodup ∧
      (∀ u ∈ us, u ∈ t'.subtrees ∧ DividesByZero u) ∧
      ∃ counts, replacementCounts T roundLimit t { log := { next := s.size } } = counts ∧
        counts.foldr (· + ·) 0 = total ∧
        (counts.getLast? = some 0 → ∀ u ∈ t'.subtrees, DividesByZero u → u ∈ us) := by
  obtain ⟨hbears, hid⟩ := bears_of_treeAt hs ht
  obtain ⟨hbears', hid'⟩ := hbears.optimize hid T
  have hmoves := Constant.rounds_moves (T := T) roundLimit t { log := { next := s.size } }
  obtain ⟨hformed', us, hreported⟩ := hmoves.reported hformed
  rw [optimize_eq ht] at hok ⊢
  refine ⟨(Constant.optimize T s.size t).tree, us, ?_, hreported.diagnostics, hreported.severity,
    hreported.nodup, hreported.divides, _, rfl, ?_, fun hlast u hu hzero => ?_⟩
  · rw [← hid']
    exact hbears'.treeAt
  · have hcount := Constant.count_rounds (T := T) roundLimit t { log := { next := s.size } }
    rw [← Constant.count_of_optimize hok]
    exact (hcount.trans (Nat.zero_add _)).symm
  · have hdivides := (Constant.divides_iff (hformed' u hu)).mpr hzero
    exact hbears'.holds.mem_of_reported hreported hu (Constant.rounds_warned hlast hu hdivides)

/-- Three divisions.  The first divides by zero as it stands, the second once its divisor is folded,
and the third once a variable is replaced. -/
def zeroSource : Source :=
  .classOf "Zero" none [
    .method .int "divide" [] [
      .localVar .int "x",
      .localVar .int "y",
      .assign "x" (.int 0),
      .assign "y" (.binary .div (.int 1) (.int 0)),
      .assign "y" (.binary .div (.int 6) (.parenthesis (.binary .sub (.int 2) (.int 2)))),
      .returnValue (.binary .div (.int 4) (.identifier "x"))]]

/-- There are three warnings, and nothing else divides by zero. -/
theorem zeroSource_warnings :
    Formed (zeroSource.number 0) ∧
      ∃ T, (ClassTable.ofTree (zeroSource.number 0)).outcome = .ok T ∧
        ((ofSource zeroSource).optimize T).2.2 = .ok 3 ∧
        ((ofSource zeroSource).optimize T).2.1.length = 3 ∧
        ∃ (t' : Ast) (us : List Ast), ((ofSource zeroSource).optimize T).1.treeAt root = .ok t' ∧
          us.length = 3 ∧ (us.map Tree.id).Nodup ∧
          ∀ u ∈ t'.subtrees, DividesByZero u ↔ u ∈ us := by
  have hformed : Formed (zeroSource.number 0) := by decide
  obtain ⟨T, hT, hok, hlength, hlast⟩ :
      ∃ T, (ClassTable.ofTree (zeroSource.number 0)).outcome = .ok T ∧
        ((ofSource zeroSource).optimize T).2.2 = .ok 3 ∧
        ((ofSource zeroSource).optimize T).2.1.length = 3 ∧
        (replacementCounts T roundLimit (zeroSource.number 0)
          { log := { next := (ofSource zeroSource).size } }).getLast? = some 0 :=
    ⟨_, rfl, by decide +kernel, by decide +kernel, by decide +kernel⟩
  obtain ⟨t', us, ht', hreports, -, hnodup, hus, counts, rfl, -, hall⟩ :=
    optimize_warnings_exact (linked_ofSource zeroSource) (treeAt_ofSource zeroSource) hformed T hok
  have hcount : us.length = 3 := by rw [← hlength, hreports, List.length_map]
  refine ⟨hformed, T, hT, hok, hlength, t', us, ht', hcount, hnodup, fun u hu => ?_⟩
  exact ⟨hall hlast u hu, fun hmem => (hus u hmem).2⟩

end Store
end ClassCompiler
