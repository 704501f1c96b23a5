import Mathlib.Logic.Relation
import ClassCompiler.Proofs.Constant.Folded
import ClassCompiler.Proofs.OnStore.Compilation

/-!
# What optimizing replaces

Folding and propagation go through a tree in different orders, and up to thirty-two times.  What
they do to it is said once: a *rewrite* puts a literal in the place of one expression below the
root, gives it the next number, and enters it in the log.  Folding also gives warnings; a *move* is
a rewrite or a warning.  Every pass is a chain of moves, so whatever a move keeps is kept by
optimizing, also where an error ended it.

A pass that works inside a tree works whatever is around that tree.  `Reworks` and `ReworksAll` say
so for a tree below some node and for trees that follow one another there.

* `Reduces`: what a literal may take the place of.
* `Rewrite`, `Rewrites`: one rewrite, and chains of them.
* `Move`, `Moves`: the same with warnings.
* `foldSlot_reworks`, `substitute_reworks`, `walk_reworks`: the passes, below the root.
* `rounds_moves`: all rounds.
* `Replaced`, `ReplacedBelow`: literals have taken the place of expressions.
* `Rewrites.replaced`: what a chain of rewrites comes to.
-/

namespace ClassCompiler
namespace Constant

open List (Forall₂)
open Relation (ReflTransGen)
open ClassCompiler.Tree (Frame fill)

/-- The kinds of expressions that a literal may take the place of. -/
def isReducible : Kind → Bool
  | .identifier _ | .binary _ | .negation | .parenthesis => true
  | _ => false

theorem isReducible_of_foldedValue? {kind : Kind} {ts : List Ast} {value : Constant}
    (h : foldedValue? kind ts = some value) : isReducible kind = true := by
  unfold foldedValue? at h
  split at h
  all_goals first | rfl | cases h

/-! ## Rewrites -/

/-- What a literal may take the place of: a variable, whatever is known of it, or an expression that
folds to the literal. -/
inductive Reduces (n : Numbered) (ts : List Ast) (value : Constant) : Prop
  | read {name : String} (hk : n.kind = .identifier name) : Reduces n ts value
  | folded (h : foldedValue? n.kind ts = some value) : Reduces n ts value

theorem Reduces.isReducible {n : Numbered} {ts : List Ast} {value : Constant}
    (h : Reduces n ts value) : isReducible n.kind = true := by
  cases h with
  | read hk => rw [hk, Constant.isReducible]
  | folded h => exact isReducible_of_foldedValue? h

/-- A literal takes the place of an expression below the root of a tree. -/
inductive Rewrite : Ast × Log → Ast × Log → Prop
  | replace {n : Numbered} {ts : List Ast} {log : Log} {value : Constant} (F : Frame)
    (C : List Frame) (h : Reduces n ts value) :
    Rewrite (fill (.node n ts) (F :: C), log)
      (fill (replaceBy n value log).1 (F :: C), (replaceBy n value log).2)

/-- One rewrite after another. -/
abbrev Rewrites : Ast × Log → Ast × Log → Prop :=
  ReflTransGen Rewrite

/-- What can happen on the way: a rewrite, or a warning about a node of the tree. -/
inductive Move : Ast × FoldState → Ast × FoldState → Prop
  | replace {n : Numbered} {ts : List Ast} {st : FoldState} {value : Constant} (F : Frame)
    (C : List Frame) (h : Reduces n ts value) :
    Move (fill (.node n ts) (F :: C), st)
      (fill ((replaceBy n value).lift st).1 (F :: C), ((replaceBy n value).lift st).2)
  | warn {n : Numbered} {ts : List Ast} {st : FoldState} (C : List Frame)
    (h : divides (.node n ts) = true) :
    Move (fill (.node n ts) C, st) (fill (.node n ts) C, st.warn n)

/-- One move after another. -/
abbrev Moves : Ast × FoldState → Ast × FoldState → Prop :=
  ReflTransGen Move

/-- Without the warnings, moves are rewrites. -/
theorem Moves.rewrites {p p' : Ast × FoldState} (h : Moves p p') :
    Rewrites (p.1, p.2.log) (p'.1, p'.2.log) := by
  induction h with
  | refl => exact .refl
  | tail _ hmove ih =>
    cases hmove with
    | replace F C h => exact ih.tail (.replace F C h)
    | warn C h =>
      rw [log_warn]
      exact ih

/-- Where nothing is warned about, rewrites are moves. -/
theorem Rewrites.moves {p p' : Ast × Log} (h : Rewrites p p') (st : FoldState) :
    Moves (p.1, { st with log := p.2 }) (p'.1, { st with log := p'.2 }) := by
  induction h with
  | refl => exact .refl
  | tail _ hstep ih =>
    cases hstep with
    | replace F C h => exact ih.tail (.replace F C h)

/-- Rewrites that change anything are in the log. -/
theorem Rewrites.eq_or_lt {p p' : Ast × Log} (h : Rewrites p p') :
    p' = p ∨ p.2.edits.length < p'.2.edits.length := by
  induction h with
  | refl => exact .inl rfl
  | @tail q r _ hstep ih =>
    have hnext : r.2.edits.length = q.2.edits.length + 1 := by
      cases hstep with
      | replace F C _ => exact List.length_append
    rcases ih with rfl | hlt
    · exact .inr (by omega)
    · exact .inr (by omega)

theorem Rewrites.length_le {p p' : Ast × Log} (h : Rewrites p p') :
    p.2.edits.length ≤ p'.2.edits.length := by
  rcases h.eq_or_lt with rfl | hlt
  · exact Nat.le_refl _
  · exact Nat.le_of_lt hlt

/-! ## Steps inside a tree -/

section Inside

variable {σ : Type}

/-- A tree changes by steps, whatever node it is below. -/
def Reworks (R : Ast × σ → Ast × σ → Prop) (old new : Ast × σ) : Prop :=
  ∀ F C, ReflTransGen R (fill old.1 (F :: C), old.2) (fill new.1 (F :: C), new.2)

/-- Trees that follow one another below a node change by steps, whatever stands beside them. -/
def ReworksAll (R : Ast × σ → Ast × σ → Prop) (old new : List Ast × σ) : Prop :=
  ∀ n left right C, ReflTransGen R (fill (.node n (left ++ (old.1 ++ right))) C, old.2)
    (fill (.node n (left ++ (new.1 ++ right))) C, new.2)

variable {R : Ast × σ → Ast × σ → Prop} {n : Numbered} {t t' : Ast} {ts ts' : List Ast}
  {a a' : σ}

namespace ReworksAll

variable {p q r : List Ast × σ}

theorem refl (p : List Ast × σ) : ReworksAll R p p :=
  fun _ _ _ _ => .refl

theorem trans (h : ReworksAll R p q) (h' : ReworksAll R q r) : ReworksAll R p r :=
  fun n left right C => (h n left right C).trans (h' n left right C)

theorem head (h : Reworks R (t, a) (t', a')) (ts : List Ast) :
    ReworksAll R (t :: ts, a) (t' :: ts, a') :=
  fun n left right C => h ⟨n, left, ts ++ right⟩ C

theorem tail (h : ReworksAll R (ts, a) (ts', a')) (t : Ast) :
    ReworksAll R (t :: ts, a) (t :: ts', a') := by
  intro n left right C
  have hmoved := h n (left ++ [t]) right C
  rwa [List.append_assoc, List.append_assoc] at hmoved

/-- Below the root. -/
theorem steps (h : ReworksAll R (ts, a) (ts', a')) :
    ReflTransGen R (.node n ts, a) (.node n ts', a') := by
  have hall := h n [] [] []
  simpa using hall

end ReworksAll

namespace Reworks

variable {p q r : Ast × σ}

theorem refl (p : Ast × σ) : Reworks R p p :=
  fun _ _ => .refl

theorem trans (h : Reworks R p q) (h' : Reworks R q r) : Reworks R p r :=
  fun F C => (h F C).trans (h' F C)

theorem node (h : ReworksAll R (ts, a) (ts', a')) :
    Reworks R (.node n ts, a) (.node n ts', a') := by
  intro F C
  have hall := h n [] [] (F :: C)
  simpa using hall

end Reworks

end Inside

variable {n : Numbered} {t t' : Ast} {ts ts' : List Ast} {log log' : Log}

/-! ## Folding -/

/-- A node is warned about if it divides by zero, wherever it stands. -/
theorem warnDivision_moves (n : Numbered) (ts : List Ast) (st : FoldState) (C : List Frame) :
    Moves (fill (.node n ts) C, st) (fill (.node n ts) C, ((warnDivision n ts).run st).2) := by
  rw [warnDivision_eq]
  split
  · next hdivides => exact .single (.warn C hdivides)
  · exact .refl

/-- A node is folded once its children are. -/
theorem foldHere_reworks (n : Numbered) (ts : List Ast) (st : FoldState) :
    Reworks Move (.node n ts, st) ((foldHere n ts).run st) := by
  have hhere : (foldHere n ts).run st = (place n ts (foldedValue? n.kind ts)).run
      ((warnDivision n ts).run st).2 := rfl
  intro F C
  refine (warnDivision_moves n ts st (F :: C)).trans ?_
  rw [hhere]
  cases hvalue : foldedValue? n.kind ts with
  | none => exact .refl
  | some value => exact .single (.replace F C (.folded hvalue))

theorem foldSlots_reworks
    (hts : ∀ t ∈ ts, ∀ st : FoldState, Reworks Move (t, st) ((foldSlot t).run st))
    (st : FoldState) : ReworksAll Move (ts, st) ((foldSlots ts).run st) := by
  induction ts with
  | nil =>
    rw [foldSlots]
    exact .refl _
  | cons t ts ih =>
    -- the last tree is folded first
    have hrest := ih fun u hu => hts u (List.mem_cons_of_mem t hu)
    rw [Meaning.foldSlots_cons_run]
    exact (hrest.tail t).trans (.head (hts t List.mem_cons_self _) _)

theorem foldSlot_reworks (t : Ast) (st : FoldState) :
    Reworks Move (t, st) ((foldSlot t).run st) := by
  induction t using Tree.induction generalizing st with
  | node n ts ih =>
    rw [foldSlot_node_run]
    exact (Reworks.node (foldSlots_reworks ih st)).trans (foldHere_reworks n _ _)

theorem foldPass_moves (t : Ast) (st : FoldState) : Moves (t, st) ((foldPass t).run st) := by
  cases t with
  | node n ts =>
    have hchildren : ReworksAll Move (ts, st) ((foldSlots ts).run st) :=
      foldSlots_reworks (fun t _ => foldSlot_reworks t) st
    rw [foldPass_node_run]
    exact hchildren.steps.trans (warnDivision_moves n _ _ [])

theorem foldPass_rewrites (t : Ast) (st : FoldState) :
    Rewrites (t, st.log) (((foldPass t).run st).1, ((foldPass t).run st).2.log) :=
  (foldPass_moves t st).rewrites

/-! ## Propagation -/

variable {ρ : Known} {tracked : String → Bool}

theorem replacing_bind {α β : Type} (x : Replacing α) (f : α → Replacing β) (log : Log) :
    (x >>= f) log = f (x log).1 (x log).2 := rfl

theorem substituteAll_reworks
    (hts : ∀ t ∈ ts, ∀ log, Reworks Rewrite (t, log) (substitute ρ t log)) (log : Log) :
    ReworksAll Rewrite (ts, log) (substituteAll ρ ts log) := by
  induction ts generalizing log with
  | nil =>
    rw [substituteAll]
    exact .refl _
  | cons t ts ih =>
    have hrest := ih fun u hu => hts u (List.mem_cons_of_mem t hu)
    rw [substituteAll]
    exact (ReworksAll.head (hts t List.mem_cons_self log) ts).trans ((hrest _).tail _)

theorem substitute_reworks (t : Ast) (log : Log) :
    Reworks Rewrite (t, log) (substitute ρ t log) := by
  induction t using Tree.induction generalizing log with
  | node n ts ih =>
    cases hvalue : OnStore.valueOf? ρ n.kind with
    | some value =>
      have hreduces : Reduces n ts value := by
        cases hk : n.kind with
        | identifier name => exact .read hk
        | _ =>
          rw [hk] at hvalue
          cases hvalue
      rw [OnStore.substitute_eq_replaceBy hvalue]
      exact fun F C => .single (.replace F C hreduces)
    | none =>
      rw [OnStore.substitute_eq_substituteAll hvalue]
      split
      · exact .node (substituteAll_reworks ih log)
      · exact .refl _

/-- A statement is rewritten, whatever is known before it. -/
def WalkReworks (tracked : String → Bool) (t : Ast) : Prop :=
  ∀ ρ log, Reworks Rewrite (t, log) ((walk tracked ρ t log).1.1, (walk tracked ρ t log).2)

theorem walkAll_reworks (hts : ∀ t ∈ ts, WalkReworks tracked t) (ρ : Known) (log : Log) :
    ReworksAll Rewrite (ts, log)
      ((walkAll tracked ρ ts log).1.1, (walkAll tracked ρ ts log).2) := by
  induction ts generalizing ρ log with
  | nil =>
    rw [walkAll]
    exact .refl _
  | cons t ts ih =>
    have ht := hts t List.mem_cons_self ρ log
    rw [walkAll, replacing_bind]
    generalize walk tracked ρ t log = walked at ht ⊢
    obtain ⟨⟨t', e | ρ'⟩, log'⟩ := walked
    · exact .head ht ts
    · have hrest := ih (fun u hu => hts u (List.mem_cons_of_mem t hu)) ρ' log'
      exact (ReworksAll.head ht ts).trans (hrest.tail t')

/-- The parts of a conditional, as far as the walk gets. -/
theorem walkReworks_conditional (hk : n.kind = .conditional)
    (hts : ∀ t ∈ ts, WalkReworks tracked t) : WalkReworks tracked (.node n ts) := by
  intro ρ log
  rw [walk.eq_def]
  simp only [hk]
  rcases ts with _ | ⟨c, branches⟩
  · exact .refl _
  · have hc := hts c List.mem_cons_self ρ log
    simp only [replacing_bind]
    generalize walk tracked ρ c log = walked at hc ⊢
    obtain ⟨⟨c', e | ρ⟩, log'⟩ := walked
    · exact .node (.head hc branches)
    · rcases branches with _ | ⟨t, rest⟩
      · exact .node (.head hc [])
      · have ht := hts t (by simp) ρ log'
        have hfirst := (ReworksAll.head hc (t :: rest)).trans ((ReworksAll.head ht rest).tail c')
        simp only [replacing_bind]
        generalize walk tracked ρ t log' = walked at ht hfirst ⊢
        obtain ⟨⟨t', e | afterThen⟩, log''⟩ := walked
        · exact .node hfirst
        · rcases rest with _ | ⟨e, rest⟩
          · exact .node hfirst
          · have he := hts e (by simp) ρ log''
            exact .node (hfirst.trans (((ReworksAll.head he rest).tail t').tail c'))

/-- The condition of a loop, and then its body. -/
theorem walkReworks_loop (hk : n.kind = .loop) (hts : ∀ t ∈ ts, WalkReworks tracked t) :
    WalkReworks tracked (.node n ts) := by
  intro ρ log
  rw [walk.eq_def]
  simp only [hk]
  rcases ts with _ | ⟨c, body⟩
  · exact .refl _
  · have hc := hts c List.mem_cons_self
      (ρ.forgetAll (assignedNames (.node n (c :: body)))) log
    simp only [replacing_bind]
    generalize walk tracked _ c log = walked at hc ⊢
    obtain ⟨⟨c', e | known⟩, log'⟩ := walked
    · exact .node (.head hc body)
    · have hbody := walkAll_reworks (fun u hu => hts u (List.mem_cons_of_mem c hu)) known log'
      exact .node ((ReworksAll.head hc body).trans (hbody.tail c'))

theorem walk_reworks (t : Ast) : WalkReworks tracked t := by
  induction t using Tree.induction with
  | node n ts ih =>
    cases hk : n.kind with
    | conditional => exact walkReworks_conditional hk ih
    | loop => exact walkReworks_loop hk ih
    | block | thenBranch | elseBranch =>
      intro ρ log
      rw [walk.eq_def]
      simp only [hk]
      exact .node (walkAll_reworks ih ρ log)
    | assignment name =>
      intro ρ log
      rw [walk.eq_def]
      simp only [hk]
      rcases ts with _ | ⟨v, rest⟩
      · exact .refl _
      · exact .node (.head (substitute_reworks v log) rest)
    | condition =>
      intro ρ log
      rw [walk.eq_def]
      simp only [hk]
      rcases ts with _ | ⟨e, rest⟩
      · exact .refl _
      · exact .node (.head (substitute_reworks e log) rest)
    | arrayAssignment _ | expression | ret =>
      intro ρ log
      rw [walk.eq_def]
      simp only [hk]
      exact .node (substituteAll_reworks (fun t _ => substitute_reworks t) log)
    | returnType _ | argument _ _ | localVar _ _ =>
      intro ρ log
      rw [walk.eq_def]
      simp only [hk]
      exact .refl _
    | _ =>
      intro ρ log
      rw [walk.eq_def]
      simp only [hk]
      exact substitute_reworks _ log

variable {T : ClassTable}

theorem walkMembers_reworks (ts : List Ast) (log : Log) :
    ReworksAll Rewrite (ts, log) ((walkMembers T ts log).1.1, (walkMembers T ts log).2) := by
  induction ts generalizing log with
  | nil =>
    rw [walkMembers]
    exact .refl _
  | cons t ts ih =>
    cases t with
    | node m us =>
      rw [walkMembers.eq_def]
      cases hname : m.kind.methodName? with
      | none =>
        simp only [hname, replacing_bind]
        exact (ih log).tail _
      | some method =>
        have hus : ∀ u ∈ us, WalkReworks (isTracked T method) u := fun u _ => walk_reworks u
        have hbody := walkAll_reworks hus [] log
        simp only [hname, replacing_bind]
        generalize walkAll (isTracked T method) [] us log = walked at hbody ⊢
        obtain ⟨⟨us', e | known⟩, log'⟩ := walked
        · exact .head (.node hbody) ts
        · exact (ReworksAll.head (.node hbody) ts).trans ((ih log').tail _)

theorem walkFirstClass_reworks (root : Numbered) (ts : List Ast) (log : Log) :
    ReworksAll Rewrite (ts, log)
      ((walkFirstClass T root ts log).1.1, (walkFirstClass T root ts log).2) := by
  induction ts generalizing log with
  | nil =>
    rw [walkFirstClass]
    exact .refl _
  | cons t ts ih =>
    cases t with
    | node m us =>
      rw [walkFirstClass.eq_def]
      dsimp only
      split
      · exact .head (.node (walkMembers_reworks us log)) ts
      · exact (ih log).tail _

theorem propagate_rewrites (t : Ast) (log : Log) :
    Rewrites (t, log) ((propagate T t log).1.1, (propagate T t log).2) := by
  cases t with
  | node n ts =>
    rw [propagate]
    split
    · exact (walkMembers_reworks ts log).steps
    · exact (walkFirstClass_reworks n ts log).steps

/-! ## Rounds -/

theorem round_moves (t : Ast) (st : FoldState) :
    Moves (t, st) ((OnStore.round T t st).1.1, (OnStore.round T t st).2) := by
  have hfold : Moves (t, st) (fold t st) := by
    have hpass : fold t st = (foldPass t).run st := fold_eq_foldPass t st
    rw [hpass]
    exact foldPass_moves t st
  exact hfold.trans ((propagate_rewrites _ _).moves (fold t st).2)

/-- **All rounds of optimizing** are one chain of moves. -/
theorem rounds_moves (left : Nat) (t : Ast) (st : FoldState) :
    Moves (t, st) ((rounds T left t st).1.1, (rounds T left t st).2) := by
  induction left generalizing t st with
  | zero => exact .refl
  | succ left ih =>
    have hround := round_moves (T := T) t st
    obtain ⟨⟨⟨t', e | ⟨⟩⟩, st'⟩, hrun⟩ : ∃ r, OnStore.round T t st = r := ⟨_, rfl⟩
    · rw [OnStore.rounds_of_error hrun]
      rwa [hrun] at hround
    · rw [OnStore.rounds_of_ok hrun]
      rw [hrun] at hround
      split
      · exact hround
      · exact hround.trans (ih t' st')

theorem optimize_rewrites (T : ClassTable) (next : Nat) (t : Ast) :
    Rewrites (t, { next }) ((optimize T next t).tree, (optimize T next t).log) :=
  (rounds_moves roundLimit t { log := { next } }).rewrites

/-! ## Replaced expressions -/

/-- A tree in which literals have taken the place of expressions.  Each of them stands where the
expression stood, at its position, with nothing below it and with a number from `first` on.  All
other nodes are as they were. -/
inductive Replaced (first : Nat) : Ast → Ast → Prop
  | kept (n : Numbered) {ts ts' : List Ast} (h : Forall₂ (Replaced first) ts ts') :
    Replaced first (.node n ts) (.node n ts')
  | literal {n : Numbered} {ts : List Ast} {id : Nat} (hk : isReducible n.kind) (hid : first ≤ id)
    (value : Constant) : Replaced first (.node n ts) (Constant.literal id n value)

namespace Replaced

variable {first : Nat} {t'' : Ast}

theorem refl (t : Ast) : Replaced first t t := by
  induction t using Tree.induction with
  | node n ts ih => exact .kept n (List.forall₂_same.mpr ih)

theorem refl_all (ts : List Ast) : Forall₂ (Replaced first) ts ts :=
  List.forall₂_same.mpr fun t _ => .refl t

theorem trans (h : Replaced first t t') (h' : Replaced first t' t'') : Replaced first t t'' := by
  induction t using Tree.induction generalizing t' t'' with
  | node n ts ih =>
    cases h with
    | kept _ hts =>
      cases h' with
      | kept _ hts' => exact .kept n (forall₂_trans_of_mem (fun t ht _ _ => ih t ht) hts hts')
      | literal hk hid value => exact .literal hk hid value
    | literal hk hid value =>
      -- a literal is not replaced again, and there is nothing below it
      generalize hnew : Constant.literal _ n value = new at h'
      cases h' with
      | kept m hts' =>
        cases hnew
        cases hts'
        exact .literal hk hid value
      | literal hk' _ _ =>
        cases hnew
        cases value <;> cases hk'

end Replaced

/-- The root of a tree is as it was, and expressions below it were replaced. -/
structure ReplacedBelow (first : Nat) (t t' : Ast) : Prop where
  label : t'.label = t.label
  children : Forall₂ (Replaced first) t.children t'.children

namespace ReplacedBelow

variable {first : Nat} {t'' : Ast}

theorem refl (t : Ast) : ReplacedBelow first t t :=
  ⟨rfl, Replaced.refl_all t.children⟩

theorem trans (h : ReplacedBelow first t t') (h' : ReplacedBelow first t' t'') :
    ReplacedBelow first t t'' :=
  ⟨h'.label.trans h.label,
    forall₂_trans_of_mem (fun _ _ _ _ => Replaced.trans) h.children h'.children⟩

theorem of_fill (h : Replaced first t t') (F : Frame) (C : List Frame) :
    ReplacedBelow first (fill t (F :: C)) (fill t' (F :: C)) := by
  have hframe := List.rel_append (Replaced.refl_all F.left) (.cons h (Replaced.refl_all F.right))
  induction C generalizing t t' F with
  | nil => exact ⟨rfl, hframe⟩
  | cons G C ih =>
    have hnode := Replaced.kept F.label hframe
    exact ih hnode G (List.rel_append (Replaced.refl_all G.left)
      (.cons hnode (Replaced.refl_all G.right)))

end ReplacedBelow

theorem Rewrite.replaced {first : Nat} (h : Rewrite (t, log) (t', log'))
    (hfirst : first ≤ log.next) : ReplacedBelow first t t' ∧ first ≤ log'.next := by
  cases h with
  | replace F C hreduces =>
    exact ⟨.of_fill (.literal hreduces.isReducible hfirst _) F C, Nat.le_succ_of_le hfirst⟩

/-- **What a chain of rewrites comes to**: the root stays, and below it literals with new numbers
have taken the place of expressions. -/
theorem Rewrites.replaced {p p' : Ast × Log} (h : Rewrites p p') :
    ReplacedBelow p.2.next p.1 p'.1 := by
  have hall : ReplacedBelow p.2.next p.1 p'.1 ∧ p.2.next ≤ p'.2.next := by
    induction h with
    | refl => exact ⟨.refl _, Nat.le_refl _⟩
    | tail _ hstep ih =>
      obtain ⟨hreplaced, hnext⟩ := Rewrite.replaced hstep ih.2
      exact ⟨ih.1.trans hreplaced, hnext⟩
  exact hall.1

end Constant
end ClassCompiler
