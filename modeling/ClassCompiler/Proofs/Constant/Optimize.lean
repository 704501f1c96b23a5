import ClassCompiler.Constant.Optimize
import ClassCompiler.Proofs.Constant.Propagate

/-!
# Optimizing keeps the meaning of every method

A pass changes the bodies of the methods of one class and leaves the class where it is: a member
that is a method stays a method of its name, and the first class below the root stays the first.  So
the methods of the tree, each with its meaning, are the same list before and after the pass, and
rounds of passes compose by transitivity.

Nothing is asked of the tree or the table.  An optimization that ends in an error has changed part
of the tree, and that part means what it meant.

* `meanings_node`: when two trees with one root have the same methods.
* `meanings_fold`, `meanings_propagate`: the two passes.
* `optimize_preserves_meaning`: all of it.
-/

namespace ClassCompiler
namespace Meaning

open Constant
open List (Forall₂)

variable {T : ClassTable}

/-! ## Where the methods of a tree are -/

/-- Bodies that execute alike give a method one meaning. -/
theorem meaningOf_congr {name : String} {body body' : List Ast}
    (h : ∀ (σ : Type) (w : World σ) isStatic receiver limit,
      let A : Activation := { table := T, method := name, isStatic, receiver }
      execStatements w A limit body' = execStatements w A limit body) :
    meaningOf T name body' = meaningOf T name body := by
  funext σ w isStatic receiver limit isVoid s
  unfold meaningOf runBody
  rw [h σ w isStatic receiver limit]

theorem meanings_of_isClass {t : Ast} (h : t.isClass) : meanings T t = classMeanings T t := by
  unfold meanings Tree.classTree
  rw [if_pos h]

theorem meanings_of_not_isClass {t : Ast} (h : ¬ t.isClass) :
    meanings T t = ((t.children.find? Tree.isClass).map (classMeanings T)).getD [] := by
  unfold meanings Tree.classTree
  rw [if_neg h]
  cases t.children.find? Tree.isClass <;> rfl

/-- Two trees with one root have the same methods if, where the root is a class, their members do,
and otherwise the first classes below it do. -/
theorem meanings_node {n : Numbered} {ts ts' : List Ast}
    (hmembers : (Tree.node n ts : Ast).isClass →
      ts'.filterMap (memberMeaning? T) = ts.filterMap (memberMeaning? T))
    (hclass : ¬ (Tree.node n ts : Ast).isClass →
      (ts'.find? Tree.isClass).map (classMeanings T) =
        (ts.find? Tree.isClass).map (classMeanings T)) :
    meanings T (.node n ts') = meanings T (.node n ts) := by
  have hroot : (Tree.node n ts' : Ast).isClass = (Tree.node n ts : Ast).isClass := rfl
  by_cases h : (Tree.node n ts : Ast).isClass
  · rw [meanings_of_isClass h, meanings_of_isClass (hroot ▸ h)]
    exact hmembers h
  · rw [meanings_of_not_isClass h, meanings_of_not_isClass (hroot ▸ h)]
    exact congrArg (·.getD []) (hclass h)

theorem filterMap_cons_congr {α β : Type*} {f : α → Option β} {a a' : α} {as as' : List α}
    (h : f a' = f a) (hs : as'.filterMap f = as.filterMap f) :
    (a' :: as').filterMap f = (a :: as).filterMap f := by
  rw [List.filterMap_cons, List.filterMap_cons, h, hs]

/-! ## Folding -/

theorem foldedValue?_of_methodName? {k : Kind} {name : String} (h : k.methodName? = some name)
    (ts : List Ast) : foldedValue? k ts = none := by
  cases k <;> simp only [Kind.methodName?, reduceCtorEq] at h <;> rfl

/-- A member that is a method stays one of its name and meaning, and no other member becomes one. -/
theorem memberMeaning?_foldSlot (t : Ast) (s : FoldState) :
    memberMeaning? T ((foldSlot t).run s).1 = memberMeaning? T t := by
  obtain ⟨n, ts⟩ := t
  obtain ⟨id, hrun⟩ := foldSlot_run n ts s
  rw [hrun]
  cases hname : n.kind.methodName? with
  | some name =>
    rw [foldedValue?_of_methodName? hname]
    unfold memberMeaning?
    simp only [Tree.kind, Tree.label, Tree.children, hname, Option.map_some]
    rw [meaningOf_congr fun σ w isStatic receiver limit =>
      Alike.execStatements_eq (foldSlots_alike ts s) limit]
  | none =>
    have hnone : memberMeaning? T (.node n ts) = none := by
      simp [memberMeaning?, Tree.kind, Tree.label, hname]
    rw [hnone]
    split
    · rename_i value _
      cases value <;> rfl
    · simp [memberMeaning?, Tree.kind, Tree.label, hname]

theorem filterMap_foldSlots (ts : List Ast) (s : FoldState) :
    ((foldSlots ts).run s).1.filterMap (memberMeaning? T) = ts.filterMap (memberMeaning? T) := by
  have h := foldSlots_forall₂ (R := fun t t' => memberMeaning? T t' = memberMeaning? T t)
    (fun t (_ : t ∈ ts) s => memberMeaning?_foldSlot t s) s
  generalize ((foldSlots ts).run s).1 = ts' at h ⊢
  induction h with
  | nil => rfl
  | cons h _ ih => exact filterMap_cons_congr h ih

/-- A class stays a class with the same methods, and nothing else becomes one. -/
theorem isClass_foldSlot (t : Ast) (s : FoldState) :
    ((foldSlot t).run s).1.isClass = t.isClass ∧
      (t.isClass → classMeanings T ((foldSlot t).run s).1 = classMeanings T t) := by
  obtain ⟨n, ts⟩ := t
  obtain ⟨id, hrun⟩ := foldSlot_run n ts s
  rw [hrun]
  split
  · -- What folds is an operation and no class, and so is its literal.
    rename_i value hvalue
    have hroot : (Tree.node n ts : Ast).isClass = false := by
      unfold Tree.isClass
      rw [Tree.kind, Tree.label]
      cases hk : n.kind <;> simp [foldedValue?, hk] at hvalue ⊢
    rw [hroot]
    exact ⟨by cases value <;> rfl, fun h => absurd h (by simp)⟩
  · exact ⟨rfl, fun _ => filterMap_foldSlots ts s⟩

theorem find?_foldSlots (ts : List Ast) (s : FoldState) :
    (((foldSlots ts).run s).1.find? Tree.isClass).map (classMeanings T) =
      (ts.find? Tree.isClass).map (classMeanings T) := by
  have h := foldSlots_forall₂
    (R := fun t t' => t'.isClass = t.isClass ∧
      (t.isClass → classMeanings T t' = classMeanings T t))
    (fun t (_ : t ∈ ts) s => isClass_foldSlot t s) s
  generalize ((foldSlots ts).run s).1 = ts' at h ⊢
  induction h with
  | nil => rfl
  | @cons t t' _ _ h _ ih =>
    rw [List.find?_cons, List.find?_cons, h.1]
    cases hclass : t.isClass with
    | true => exact congrArg some (h.2 hclass)
    | false => exact ih

theorem meanings_foldPasses (fuel : Nat) (t : Ast) (s : FoldState) :
    meanings T ((foldPasses fuel t).run s).1 = meanings T t := by
  induction fuel generalizing t s with
  | zero => rfl
  | succ fuel ih =>
    have hpass : meanings T ((foldPass t).run s).1 = meanings T t := by
      obtain ⟨n, ts⟩ := t
      exact meanings_node (fun _ => filterMap_foldSlots ts s) fun _ => find?_foldSlots ts s
    have hrun : (foldPasses (fuel + 1) t).run s =
        (if ((foldPass t).run s).2.count = s.count then pure ((foldPass t).run s).1
          else foldPasses fuel ((foldPass t).run s).1 : Folding Ast).run
        ((foldPass t).run s).2 := by
      rw [foldPasses]
      rfl
    rw [hrun]
    split
    · exact hpass
    · rw [ih, hpass]

/-- **Folding keeps the methods and their meanings.** -/
theorem meanings_fold (t : Ast) (s : FoldState) :
    meanings T ((fold t).run s).1 = meanings T t :=
  meanings_foldPasses t.size t s

/-! ## Propagation -/

/-- Nothing is known when a method starts, so its walk keeps its meaning altogether. -/
theorem memberMeaning?_walkAll {n : Numbered} {name : String}
    (hname : n.kind.methodName? = some name)
    (ts : List Ast) (log : Log) :
    memberMeaning? T (.node n ((walkAll (isTracked T name) [] ts).run log).1.1) =
      memberMeaning? T (.node n ts) := by
  unfold memberMeaning?
  simp only [Tree.kind, Tree.label, Tree.children, hname, Option.map_some]
  rw [meaningOf_congr]
  intro σ w isStatic receiver limit A
  funext s
  exact (walkAll_keeps (A := A) ts [] log limit s .nil).1

theorem filterMap_walkMembers (members : List Ast) (log : Log) :
    ((walkMembers T members).run log).1.1.filterMap (memberMeaning? T) =
      members.filterMap (memberMeaning? T) := by
  induction members generalizing log with
  | nil => rfl
  | cons member members ih =>
    obtain ⟨n, ts⟩ := member
    rw [walkMembers.eq_def]
    dsimp only
    cases hname : n.kind.methodName? with
    | none => exact filterMap_cons_congr rfl (ih log)
    | some name =>
      have hmember := memberMeaning?_walkAll (T := T) hname ts log
      dsimp only
      rw [StateM.run_bind]
      generalize (walkAll (isTracked T name) [] ts).run log = r at hmember ⊢
      obtain ⟨⟨ts', _ | _⟩, log'⟩ := r
      · exact filterMap_cons_congr hmember rfl
      · exact filterMap_cons_congr hmember (ih log')

theorem find?_walkFirstClass (root : Numbered) (ts : List Ast) (log : Log) :
    (((walkFirstClass T root ts).run log).1.1.find? Tree.isClass).map (classMeanings T) =
      (ts.find? Tree.isClass).map (classMeanings T) := by
  induction ts with
  | nil => rfl
  | cons t ts ih =>
    obtain ⟨n, children⟩ := t
    rw [walkFirstClass.eq_def]
    dsimp only
    split
    · rename_i hclass
      have hclass' : (Tree.node n ((walkMembers T children).run log).1.1 : Ast).isClass := hclass
      rw [StateM.run_bind, List.find?_cons_of_pos hclass, Option.map_some]
      refine (congrArg _ (List.find?_cons_of_pos hclass')).trans (congrArg some ?_)
      exact filterMap_walkMembers children log
    · rename_i hclass
      rw [StateM.run_bind, List.find?_cons_of_neg hclass, ← ih]
      exact congrArg _ (List.find?_cons_of_neg hclass)

/-- **Propagation keeps the methods and their meanings.** -/
theorem meanings_propagate (t : Ast) (log : Log) :
    meanings T ((propagate T t).run log).1.1 = meanings T t := by
  obtain ⟨n, ts⟩ := t
  rw [propagate]
  split
  · rename_i hclass
    exact meanings_node (fun _ => filterMap_walkMembers ts log) fun h => absurd hclass h
  · rename_i hclass
    exact meanings_node (fun h => absurd h hclass) fun _ => find?_walkFirstClass n ts log

/-! ## Rounds -/

theorem Replacing.lift_run {α : Type} (r : Replacing α) (s : FoldState) :
    r.lift.run s = ((r.run s.log).1, { s with log := (r.run s.log).2 }) := rfl

theorem meanings_rounds (left : Nat) (t : Ast) (s : FoldState) :
    meanings T ((rounds T left t).run s).1.1 = meanings T t := by
  induction left generalizing t s with
  | zero => rfl
  | succ left ih =>
    have hpass : meanings T ((propagate T ((fold t).run s).1).run ((fold t).run s).2.log).1.1 =
        meanings T t :=
      (meanings_propagate _ _).trans (meanings_fold t s)
    rw [rounds, StateM.run_bind, StateM.run_get, StateM.run_bind, StateM.run_bind,
      Replacing.lift_run]
    dsimp only
    generalize (propagate T ((fold t).run s).1).run ((fold t).run s).2.log = r at hpass ⊢
    obtain ⟨⟨t', _ | _⟩, log⟩ := r
    · exact hpass
    · dsimp only
      rw [StateM.run_bind, StateM.run_get]
      split
      · exact hpass
      · exact (ih t' _).trans hpass

/-- **Optimizing preserves meaning.**  Every method does before and after it the same, in every
world, on every object and from all values of its variables: it asks the same of the world in the
same order, ends in the same way with the same result and the same variables, or runs for ever. -/
theorem optimize_preserves_meaning (T : ClassTable) (next : Nat) (t : Ast) :
    meanings T (optimize T next t).tree = meanings T t :=
  meanings_rounds roundLimit t { log := { next } }

end Meaning
end ClassCompiler
