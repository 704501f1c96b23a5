import ClassCompiler.Proofs.OnStore.Rewriting

/-!
# Propagation in a store

The walk through the methods, on the nodes of a store.  The list of the children of a node is taken
before the first of them is walked through.  What was replaced by then has another number, but those
that are still to come have theirs.

* `substitute_reaches`, `walk_reaches`: an expression and a statement.
* `propagate_reaches`: the walk does what the walk through a tree does; where that ends with an
  error, so does this, with the store changed as far.
-/

namespace ClassCompiler
namespace OnStore

open Constant (FoldState Known Replacing)
open InPlace (ask stop)
open ClassCompiler.Tree (Frame fill)

variable {b : Bounds} {w : Work} {n : Numbered} {t : Ast} {ts : List Ast} {F : Frame}
  {C : List Frame} {depth : Nat} {ρ : Known} {tracked : String → Bool}

/-- The value of a variable that is known. -/
def valueOf? (ρ : Known) : Kind → Option Constant
  | .identifier name => ρ.get? name
  | _ => none

/-- The kinds of expressions in whose operands variables are replaced. -/
def holdsOperands : Kind → Bool
  | .binary _ | .negation | .parenthesis => true
  | .arrayAccess | .arrayLength | .newArray | .invocation _ => true
  | _ => false

/-- Replaces the known variables in an expression.  The root stays. -/
def substitute (ρ : Known) : Nat → Nat → InPlace Unit
  | 0, _ => stop .endless
  | depth + 1, id => do
    let n ← ask (labelAt · id)
    match valueOf? ρ n.kind with
    | some value =>
      if (← ask (look · id)).parent = none then return () else replaceAt ⟨id, value⟩
    | none =>
      if holdsOperands n.kind then forM (← ask (childrenAt · id)) (substitute ρ depth)
      else return ()

/-- What is known after a loop, if it can be run on constants. -/
def exitOf? (tracked : String → Bool) (ρ : Known) : Ast → Option Known
  | .node _ [] => none
  | .node n (c :: body) =>
    Constant.simulate tracked c body (Constant.assignedNames (.node n (c :: body))) ρ

/-- Walks through a statement. -/
def walk (tracked : String → Bool) : Nat → Known → Nat → InPlace Known
  | 0, _, _ => stop .endless
  | depth + 1, ρ, id => do
    let n ← ask (labelAt · id)
    match n.kind with
    | .returnType _ => return ρ
    | .argument _ _ => return ρ
    | .localVar _ _ => return ρ
    | .block => List.foldlM (walk tracked depth) ρ (← ask (childrenAt · id))
    | .thenBranch => List.foldlM (walk tracked depth) ρ (← ask (childrenAt · id))
    | .elseBranch => List.foldlM (walk tracked depth) ρ (← ask (childrenAt · id))
    | .assignment name =>
      substitute ρ depth (← ask (childOr .error · id 0 "value"))
      let value ← ask (childOr .error · id 0 "value")
      return ρ.assign tracked name (← ask (leafAt · value))
    | .conditional =>
      let ρ ← walk tracked depth ρ (← ask (childOr .error · id 0 "condition"))
      let afterThen ← walk tracked depth ρ (← ask (childOr .error · id 1 "then branch"))
      match (← ask (childrenAt · id))[2]? with
      | none => return ρ.agree afterThen
      | some e => return (← walk tracked depth ρ e).agree afterThen
    | .loop =>
      let c ← ask (childOr .error · id 0 "condition")
      let body ← ask (behindFirst · id)
      let loop ← ask (treeOf · id)
      let head := ρ.forgetAll (Constant.assignedNames loop)
      let known ← walk tracked depth head c
      let _ ← List.foldlM (walk tracked depth) known body
      return (exitOf? tracked ρ loop).getD head
    | .condition =>
      substitute ρ depth (← ask (childOr .error · id 0 "guard expression"))
      return ρ
    | .arrayAssignment _ =>
      forM (← ask (childrenAt · id)) (substitute ρ depth)
      return ρ
    | .expression =>
      forM (← ask (childrenAt · id)) (substitute ρ depth)
      return ρ
    | .ret =>
      forM (← ask (childrenAt · id)) (substitute ρ depth)
      return ρ
    | _ =>
      substitute ρ (depth + 1) id
      return ρ

/-- Walks through a member of the class, if it is a method. -/
def walkMember (T : ClassTable) (depth id : Nat) : InPlace Unit := do
  match (← ask (labelAt · id)).kind.methodName? with
  | none => return ()
  | some method =>
    let _ ← List.foldlM (walk (Constant.isTracked T method) depth) [] (← ask (childrenAt · id))
    return ()

/-- Propagates constants through every method of the class. -/
def propagate (T : ClassTable) : InPlace Unit := do
  let c ← ask (classOr .error)
  let depth ← ask fun s => pure s.size
  forM (← ask (childrenAt · c)) (walkMember T depth)

/-! ## Reading below a node -/

theorem Sound.size_below_le (h : Sound b w (fill t C)) : t.size ≤ w.store.size := by
  have hlen := (Tree.preorder_fill_perm t C).length_eq
  have hle := h.size_le
  rw [List.length_append, Tree.length_preorder, Tree.length_preorder] at hlen
  omega

namespace Reaches

variable {α : Type} {f : Nat → InPlace α} {r : Except Error α} {state : FoldState} {index : Nat}
  {expected : String} {t' : Ast}

theorem label {f : Numbered → InPlace α} (h : Sound b w (fill (.node n ts) C))
    (hf : Reaches b w (f n) r state t') :
    Reaches b w (InPlace.ask (labelAt · n.id) >>= f) r state t' :=
  .ask (labelAt_eq h.has) hf

theorem children {f : List Nat → InPlace α} (h : Sound b w (fill (.node n ts) C))
    (hf : Reaches b w (f (ts.map Tree.id)) r state t') :
    Reaches b w (InPlace.ask (childrenAt · n.id) >>= f) r state t' :=
  .ask (childrenAt_eq h.has) hf

theorem child (h : Sound b w (fill (.node n ts) C)) (hchild : ts[index]? = some t)
    (hf : Reaches b w (f t.id) r state t') :
    Reaches b w (InPlace.ask (childOr .error · n.id index expected) >>= f) r state t' := by
  refine .ask ?_ hf
  rw [childOr_eq h.has, hchild]

theorem child_missing (h : Sound b w (fill (.node n ts) C)) (hchild : ts[index]? = none) :
    Reaches b w (InPlace.ask (childOr .error · n.id index expected) >>= f)
      (.error (.missing n index expected)) w.state (fill (.node n ts) C) := by
  refine .ask_error ?_ h
  rw [childOr_eq h.has, hchild]

end Reaches

theorem lift_bind_run {α β : Type} (x : Replacing α) (f : α → Replacing β) (state : FoldState) :
    (x >>= f).lift state = (f (x.lift state).1).lift (x.lift state).2 := rfl

theorem lift_pure_run {α : Type} (a : α) (state : FoldState) :
    (pure a : Replacing α).lift state = (a, state) := rfl

/-! ## Expressions -/

theorem substitute_eq_replaceBy {value : Constant} (hvalue : valueOf? ρ n.kind = some value)
    (ts : List Ast) : Constant.substitute ρ (.node n ts) = Constant.replaceBy n value := by
  rw [Constant.substitute.eq_def]
  dsimp only
  cases hk : n.kind with
  | identifier name =>
    rw [hk, valueOf?] at hvalue
    simp only [hvalue]
  | _ =>
    rw [hk] at hvalue
    cases hvalue

theorem substitute_eq_substituteAll (hvalue : valueOf? ρ n.kind = none) (ts : List Ast) :
    Constant.substitute ρ (.node n ts) =
      if holdsOperands n.kind then Constant.substituteAll ρ ts >>= fun ts => pure (.node n ts)
      else pure (.node n ts) := by
  rw [Constant.substitute.eq_def]
  dsimp only
  cases hk : n.kind with
  | identifier name =>
    rw [hk, valueOf?] at hvalue
    simp only [hvalue]
    rfl
  | _ => rfl

theorem ofKind?_of_valueOf? {kind : Kind} {value : Constant}
    (h : valueOf? ρ kind = some value) : Constant.ofKind? kind = none := by
  cases kind <;> first | rfl | cases h

/-- In the store variables are replaced as in the expression, wherever it stands. -/
def Substitutes (b : Bounds) (ρ : Known) (depth : Nat) (t : Ast) : Prop :=
  ∀ ⦃F : Frame⦄ ⦃C : List Frame⦄ ⦃w : Work⦄, Sound b w (fill t (F :: C)) →
    Reaches b w (substitute ρ depth t.id) (.ok ()) ((Constant.substitute ρ t).lift w.state).2
      (fill ((Constant.substitute ρ t).lift w.state).1 (F :: C))

/-- Expressions that stand one after another below a node, with what was done on their left. -/
theorem substituteAll_between (hts : ∀ t ∈ ts, Substitutes b ρ depth t) {left right : List Ast}
    (h : Sound b w (fill (.node n (left ++ (ts ++ right))) C)) :
    Reaches b w (forM (ts.map Tree.id) (substitute ρ depth)) (.ok ())
      ((Constant.substituteAll ρ ts).lift w.state).2
      (fill (.node n (left ++ (((Constant.substituteAll ρ ts).lift w.state).1 ++ right))) C) := by
  induction ts generalizing left w with
  | nil =>
    rw [Constant.substituteAll]
    exact .pure h ()
  | cons t ts ih =>
    rw [List.map_cons, List.forM_cons, Constant.substituteAll, lift_bind_run, lift_bind_run,
      lift_pure_run]
    refine .bind (hts t List.mem_cons_self (F := ⟨n, left, ts ++ right⟩) h) fun s hsound => ?_
    generalize (Constant.substitute ρ t).lift w.state = changed at hsound ⊢
    have hmoved : Sound b ⟨s, changed.2⟩
        (fill (.node n ((left ++ [changed.1]) ++ (ts ++ right))) C) := by
      rw [List.append_assoc, List.singleton_append]
      exact hsound
    have hrest := ih (fun u hu => hts u (List.mem_cons_of_mem t hu)) hmoved
    rwa [List.append_assoc, List.singleton_append] at hrest

/-- The children of a node, if all of them are expressions. -/
theorem substituteAll_reaches (hts : ∀ t ∈ ts, Substitutes b ρ depth t)
    (h : Sound b w (fill (.node n ts) C)) :
    Reaches b w (forM (ts.map Tree.id) (substitute ρ depth)) (.ok ())
      ((Constant.substituteAll ρ ts).lift w.state).2
      (fill (.node n ((Constant.substituteAll ρ ts).lift w.state).1) C) := by
  have hall : Sound b w (fill (.node n ([] ++ (ts ++ []))) C) := by
    rwa [List.nil_append, List.append_nil]
  have hrun := substituteAll_between hts hall
  rwa [List.nil_append, List.append_nil] at hrun

/-- **Variables are replaced in an expression without breaking off.** -/
theorem substitute_reaches (t : Ast) (hsize : t.size ≤ depth) : Substitutes b ρ depth t := by
  induction t using Tree.induction generalizing depth with
  | node n ts ih =>
    obtain ⟨depth, rfl⟩ := Tree.depth_eq_succ hsize
    intro F C w h
    rw [Tree.id_node, substitute]
    refine .label h ?_
    cases hvalue : valueOf? ρ n.kind with
    | some value =>
      obtain ⟨c, hlook, hparent⟩ := h.exists_look
      have hparent : c.parent = some F.label.id := hparent.trans h.parent_eq
      rw [substitute_eq_replaceBy hvalue]
      refine .ask hlook ?_
      rw [if_neg (by simp [hparent])]
      exact replaceAt_reaches h (ofKind?_of_valueOf? hvalue) value
    | none =>
      rw [substitute_eq_substituteAll hvalue]
      by_cases hoperands : holdsOperands n.kind
      · simp only [if_pos hoperands]
        refine .children h ?_
        exact substituteAll_reaches (fun u hu => ih u hu (Tree.size_le_of_mem hsize hu)) h
      · simp only [if_neg hoperands]
        exact .pure h ()

/-! ## Statements -/

/-- In the store the walk goes as through the statement, wherever that stands. -/
def Walks (b : Bounds) (tracked : String → Bool) (depth : Nat) (t : Ast) : Prop :=
  ∀ ⦃ρ : Known⦄ ⦃F : Frame⦄ ⦃C : List Frame⦄ ⦃w : Work⦄, Sound b w (fill t (F :: C)) →
    Reaches b w (walk tracked depth ρ t.id) ((Constant.walk tracked ρ t).lift w.state).1.2
      ((Constant.walk tracked ρ t).lift w.state).2
      (fill ((Constant.walk tracked ρ t).lift w.state).1.1 (F :: C))

/-- Statements that stand one after another below a node, with what was done on their left. -/
theorem walkAll_between (hts : ∀ t ∈ ts, Walks b tracked depth t) {left right : List Ast}
    (h : Sound b w (fill (.node n (left ++ (ts ++ right))) C)) :
    Reaches b w (List.foldlM (walk tracked depth) ρ (ts.map Tree.id))
      ((Constant.walkAll tracked ρ ts).lift w.state).1.2
      ((Constant.walkAll tracked ρ ts).lift w.state).2
      (fill (.node n (left ++ (((Constant.walkAll tracked ρ ts).lift w.state).1.1 ++ right)))
        C) := by
  induction ts generalizing left ρ w with
  | nil =>
    rw [Constant.walkAll]
    exact .pure h ρ
  | cons t ts ih =>
    have ht := hts t List.mem_cons_self (ρ := ρ) (F := ⟨n, left, ts ++ right⟩) h
    rw [List.map_cons, List.foldlM_cons, Constant.walkAll, lift_bind_run]
    generalize (Constant.walk tracked ρ t).lift w.state = walked at ht ⊢
    obtain ⟨⟨t', e | ρ'⟩, state⟩ := walked
    · exact .bind_error ht
    · refine .bind ht fun s hsound => ?_
      have hmoved : Sound b ⟨s, state⟩ (fill (.node n ((left ++ [t']) ++ (ts ++ right))) C) := by
        rw [List.append_assoc, List.singleton_append]
        exact hsound
      have hrest := ih (fun u hu => hts u (List.mem_cons_of_mem t hu)) (ρ := ρ') hmoved
      rwa [List.append_assoc, List.singleton_append] at hrest

/-- The children of a node, if all of them are statements. -/
theorem walkAll_reaches (hts : ∀ t ∈ ts, Walks b tracked depth t)
    (h : Sound b w (fill (.node n ts) C)) :
    Reaches b w (List.foldlM (walk tracked depth) ρ (ts.map Tree.id))
      ((Constant.walkAll tracked ρ ts).lift w.state).1.2
      ((Constant.walkAll tracked ρ ts).lift w.state).2
      (fill (.node n ((Constant.walkAll tracked ρ ts).lift w.state).1.1) C) := by
  have hall : Sound b w (fill (.node n ([] ++ (ts ++ []))) C) := by
    rwa [List.nil_append, List.append_nil]
  have hrun := walkAll_between hts (ρ := ρ) hall
  rwa [List.nil_append, List.append_nil] at hrun

/-- The value of an assignment is looked at again after variables in it were replaced. -/
theorem walks_assignment {name : String} (hk : n.kind = .assignment name)
    (hts : ∀ t ∈ ts, t.size ≤ depth) : Walks b tracked (depth + 1) (.node n ts) := by
  intro ρ F C w h
  rw [Tree.id_node, walk, Constant.walk.eq_def]
  refine .label h ?_
  simp only [hk]
  rcases ts with _ | ⟨v, rest⟩
  · exact .child_missing h rfl
  · rw [lift_bind_run]
    refine .child h rfl ?_
    refine .bind (substitute_reaches v (hts v List.mem_cons_self) (F := ⟨n, [], rest⟩)
      (C := F :: C) h)
      fun s hsound => ?_
    generalize (Constant.substitute ρ v).lift w.state = changed at hsound ⊢
    have hvalue : s.Holds changed.1 :=
      Store.Holds.of_fill (C := ⟨n, [], rest⟩ :: F :: C) hsound.holds
    refine .child (n := n) (C := F :: C) hsound rfl ?_
    exact .ask (leafAt_eq hvalue) (.pure hsound _)

/-- A condition is an expression. -/
theorem walks_condition (hk : n.kind = .condition) (hts : ∀ t ∈ ts, t.size ≤ depth) :
    Walks b tracked (depth + 1) (.node n ts) := by
  intro ρ F C w h
  rw [Tree.id_node, walk, Constant.walk.eq_def]
  refine .label h ?_
  simp only [hk]
  rcases ts with _ | ⟨e, rest⟩
  · exact .child_missing h rfl
  · refine .child h rfl ?_
    refine .bind (substitute_reaches e (hts e List.mem_cons_self) (F := ⟨n, [], rest⟩)
      (C := F :: C) h)
      fun s hsound => ?_
    exact .pure hsound ρ

/-- The branches of a conditional are looked up after its condition was walked through. -/
theorem walks_conditional (hk : n.kind = .conditional)
    (hts : ∀ t ∈ ts, Walks b tracked depth t) : Walks b tracked (depth + 1) (.node n ts) := by
  intro ρ F C w h
  rw [Tree.id_node, walk, Constant.walk.eq_def]
  refine .label h ?_
  simp only [hk]
  rcases ts with _ | ⟨c, branches⟩
  · exact .child_missing h rfl
  · have hc := hts c List.mem_cons_self (ρ := ρ) (F := ⟨n, [], branches⟩) (C := F :: C) h
    refine .child h rfl ?_
    simp only [lift_bind_run]
    generalize (Constant.walk tracked ρ c).lift w.state = walked at hc ⊢
    obtain ⟨⟨c', e | ρ⟩, state⟩ := walked
    · exact .bind_error hc
    · refine .bind hc fun s hsound => ?_
      rcases branches with _ | ⟨t, rest⟩
      · exact .child_missing (C := F :: C) hsound rfl
      · have ht := hts t (by simp) (ρ := ρ) (F := ⟨n, [c'], rest⟩) (C := F :: C) hsound
        refine .child (n := n) (C := F :: C) hsound rfl ?_
        simp only [lift_bind_run]
        generalize (Constant.walk tracked ρ t).lift state = walked at ht ⊢
        obtain ⟨⟨t', e | afterThen⟩, state⟩ := walked
        · exact .bind_error ht
        · refine .bind ht fun s hsound => ?_
          refine .children (n := n) (C := F :: C) hsound ?_
          rcases rest with _ | ⟨e, rest⟩
          · exact .pure hsound _
          · have he := hts e (by simp) (ρ := ρ) (F := ⟨n, [c', t'], rest⟩) (C := F :: C) hsound
            simp only [lift_bind_run]
            generalize (Constant.walk tracked ρ e).lift state = walked at he ⊢
            obtain ⟨⟨e', error | afterElse⟩, state⟩ := walked
            · exact .bind_error he
            · exact .bind he fun s hsound => .pure hsound _

/-- The children behind the condition of a loop are asked of a node that has a child. -/
theorem walks_loop (hk : n.kind = .loop) (hts : ∀ t ∈ ts, Walks b tracked depth t) :
    Walks b tracked (depth + 1) (.node n ts) := by
  intro ρ F C w h
  rw [Tree.id_node, walk, Constant.walk.eq_def]
  refine .label h ?_
  simp only [hk]
  rcases ts with _ | ⟨c, body⟩
  · exact .child_missing h rfl
  · have hbody : (behindFirst w.store n.id : ExceptT Abort (Except Error) (List Nat)) =
        pure (body.map Tree.id) := behindFirst_eq h.has
    have hloop : (treeOf w.store n.id : ExceptT Abort (Except Error) Ast) =
        pure (.node n (c :: body)) :=
      treeOf_eq (Store.Holds.of_fill (C := F :: C) h.holds) h.size_below_le
    refine .child h rfl (.ask hbody (.ask hloop ?_))
    simp only [lift_bind_run, exitOf?]
    have hc := hts c List.mem_cons_self
      (ρ := ρ.forgetAll (Constant.assignedNames (.node n (c :: body)))) (F := ⟨n, [], body⟩)
      (C := F :: C) h
    generalize (Constant.walk tracked _ c).lift w.state = walked at hc ⊢
    obtain ⟨⟨c', e | known⟩, state⟩ := walked
    · exact .bind_error hc
    · refine .bind hc fun s hsound => ?_
      have hrest : Sound b ⟨s, state⟩ (fill (.node n ([c'] ++ (body ++ []))) (F :: C)) := by
        rwa [List.append_nil]
      have hbody := walkAll_between (fun u hu => hts u (List.mem_cons_of_mem c hu)) (ρ := known)
        hrest
      rw [List.append_nil] at hbody
      simp only [lift_bind_run]
      generalize (Constant.walkAll tracked known body).lift state = walked at hbody ⊢
      obtain ⟨⟨body', e | after⟩, state⟩ := walked
      · exact .bind_error hbody
      · exact .bind hbody fun s hsound => .pure hsound _

/-- **The walk through a statement does not break off.** -/
theorem walk_reaches (t : Ast) (hsize : t.size ≤ depth) : Walks b tracked depth t := by
  induction t using Tree.induction generalizing depth with
  | node n ts ih =>
    obtain ⟨depth, rfl⟩ := Tree.depth_eq_succ hsize
    have hexprs : ∀ t ∈ ts, t.size ≤ depth := fun t ht => Tree.size_le_of_mem hsize ht
    have hts : ∀ t ∈ ts, Walks b tracked depth t := fun t ht => ih t ht (hexprs t ht)
    cases hk : n.kind with
    | assignment name => exact walks_assignment hk hexprs
    | conditional => exact walks_conditional hk hts
    | loop => exact walks_loop hk hts
    | condition => exact walks_condition hk hexprs
    | block | thenBranch | elseBranch =>
      intro ρ F C w h
      rw [Tree.id_node, walk, Constant.walk.eq_def]
      refine .label h ?_
      simp only [hk]
      exact .children h (walkAll_reaches hts h)
    | arrayAssignment _ | expression | ret =>
      intro ρ F C w h
      rw [Tree.id_node, walk, Constant.walk.eq_def]
      refine .label h ?_
      simp only [hk]
      refine .children h (.bind (substituteAll_reaches ?_ h) fun s hsound => .pure hsound ρ)
      exact fun t ht => substitute_reaches t (hexprs t ht)
    | returnType _ | argument _ _ | localVar _ _ =>
      intro ρ F C w h
      rw [Tree.id_node, walk, Constant.walk.eq_def]
      refine .label h ?_
      simp only [hk]
      exact .pure h ρ
    | _ =>
      intro ρ F C w h
      rw [Tree.id_node, walk, Constant.walk.eq_def]
      refine .label h ?_
      simp only [hk]
      exact .bind (substitute_reaches _ hsize h) fun s hsound => .pure hsound ρ

/-! ## The class -/

variable {T : ClassTable}

theorem walkMember_other (h : Sound b w (fill (.node n ts) C)) (hname : n.kind.methodName? = none) :
    Reaches b w (walkMember T depth n.id) (.ok ()) w.state (fill (.node n ts) C) := by
  refine .label h ?_
  simp only [hname]
  exact .pure h ()

theorem walkMember_method {method : String} (h : Sound b w (fill (.node n ts) C))
    (hname : n.kind.methodName? = some method) (hsize : ∀ t ∈ ts, t.size ≤ depth) :
    Reaches b w (walkMember T depth n.id)
      (((Constant.walkAll (Constant.isTracked T method) [] ts).lift w.state).1.2.map fun _ => ())
      ((Constant.walkAll (Constant.isTracked T method) [] ts).lift w.state).2
      (fill (.node n ((Constant.walkAll (Constant.isTracked T method) [] ts).lift w.state).1.1)
        C) := by
  refine .label h ?_
  simp only [hname]
  refine .children h ?_
  have hts : ∀ t ∈ ts, Walks b (Constant.isTracked T method) depth t :=
    fun t ht => walk_reaches t (hsize t ht)
  have hbody := walkAll_reaches hts (ρ := []) h
  generalize (Constant.walkAll _ [] ts).lift w.state = walked at hbody ⊢
  obtain ⟨⟨ts', e | known⟩, state⟩ := walked
  · exact .bind_error hbody
  · exact .bind hbody fun s hsound => .pure hsound ()

/-- The members of a class, with those on the left already done. -/
theorem walkMembers_behind {left : List Ast} (hsize : ∀ t ∈ ts, t.size ≤ depth)
    (h : Sound b w (fill (.node n (left ++ ts)) C)) :
    Reaches b w (forM (ts.map Tree.id) (walkMember T depth))
      ((Constant.walkMembers T ts).lift w.state).1.2 ((Constant.walkMembers T ts).lift w.state).2
      (fill (.node n (left ++ ((Constant.walkMembers T ts).lift w.state).1.1)) C) := by
  induction ts generalizing left w with
  | nil =>
    rw [Constant.walkMembers]
    exact .pure h ()
  | cons t ts ih =>
    cases t with
    | node m us =>
      have hbelow : ∀ u ∈ us, u.size ≤ depth := fun u hu =>
        Nat.le_trans (Tree.size_le_of_mem_children (t := .node m us) hu)
          (hsize _ List.mem_cons_self)
      have hrest : ∀ {m' : Ast} {s : Store} {state : FoldState},
          Sound b ⟨s, state⟩ (fill (.node n (left ++ m' :: ts)) C) →
          Reaches b ⟨s, state⟩ (forM (ts.map Tree.id) (walkMember T depth))
            ((Constant.walkMembers T ts).lift state).1.2 ((Constant.walkMembers T ts).lift state).2
            (fill (.node n (left ++ m' :: ((Constant.walkMembers T ts).lift state).1.1)) C) := by
        intro m' s state hsound
        have hmoved : Sound b ⟨s, state⟩ (fill (.node n ((left ++ [m']) ++ ts)) C) := by
          rwa [List.append_assoc, List.singleton_append]
        have hrun := ih (fun u hu => hsize u (List.mem_cons_of_mem _ hu)) hmoved
        rwa [List.append_assoc, List.singleton_append] at hrun
      rw [List.map_cons, List.forM_cons, Constant.walkMembers.eq_def]
      cases hname : m.kind.methodName? with
      | none =>
        simp only [hname, lift_bind_run]
        exact .bind (walkMember_other (C := ⟨n, left, ts⟩ :: C) h hname)
          fun s hsound => hrest hsound
      | some method =>
        simp only [hname, lift_bind_run]
        have hmember := walkMember_method (T := T) (C := ⟨n, left, ts⟩ :: C) h hname hbelow
        generalize (Constant.walkAll _ [] us).lift w.state = walked at hmember ⊢
        obtain ⟨⟨us', e | known⟩, state⟩ := walked
        · exact .bind_error hmember
        · exact .bind hmember fun s hsound => hrest hsound

/-- The first class below a node, with what is on its left passed over. -/
theorem walkFirstClass_behind {left : List Ast} {c : Ast} (hc : ts.find? Tree.isClass = some c)
    (hsize : c.size ≤ depth) (h : Sound b w (fill (.node n (left ++ ts)) C)) :
    Reaches b w (forM (c.children.map Tree.id) (walkMember T depth))
      ((Constant.walkFirstClass T n ts).lift w.state).1.2
      ((Constant.walkFirstClass T n ts).lift w.state).2
      (fill (.node n (left ++ ((Constant.walkFirstClass T n ts).lift w.state).1.1)) C) := by
  induction ts generalizing left with
  | nil => cases hc
  | cons t ts ih =>
    cases t with
    | node m us =>
      rw [Constant.walkFirstClass.eq_def]
      by_cases hclass : (Tree.node m us : Ast).isClass
      · obtain rfl : Tree.node m us = c := by simpa [hclass] using hc
        simp only [hclass, if_true]
        have hmembers : Sound b w (fill (.node m ([] ++ us)) (⟨n, left, ts⟩ :: C)) := h
        exact walkMembers_behind
          (fun u hu => Nat.le_trans (Tree.size_le_of_mem_children hu) hsize) hmembers
      · have hmoved : Sound b w (fill (.node n ((left ++ [.node m us]) ++ ts)) C) := by
          rwa [List.append_assoc, List.singleton_append]
        have hrun := ih (by simpa [hclass] using hc) hmoved
        rw [List.append_assoc, List.singleton_append] at hrun
        simp only [hclass]
        exact hrun

theorem walkFirstClass_of_none (hc : ts.find? Tree.isClass = none) :
    Constant.walkFirstClass T n ts = pure (ts, .error (.malformedTree n.id .noClass)) := by
  induction ts with
  | nil => rfl
  | cons t ts ih =>
    cases t with
    | node m us =>
      obtain ⟨hclass, hrest⟩ : (Tree.node m us : Ast).isClass = false ∧
          ts.find? Tree.isClass = none := by simpa using hc
      rw [Constant.walkFirstClass.eq_def]
      simp only [hclass, ih hrest]
      rfl

/-- **Propagation in a store does what propagation in a tree does**, without breaking off. -/
theorem propagate_reaches (hroot : b.root = Store.root) (h : Sound b w t) :
    Reaches b w (propagate T) ((Constant.propagate T t).lift w.state).1.2
      ((Constant.propagate T t).lift w.state).2 ((Constant.propagate T t).lift w.state).1.1 := by
  cases t with
  | node n ts =>
    have hread := classOr_eq (m := Except Error) h.holds (h.root.trans hroot) .error
    have hall : Sound b w (fill (.node n ([] ++ ts)) []) := h
    have hsize : (fill (.node n ts) []).size ≤ w.store.size := h.size_le
    rw [Constant.propagate]
    by_cases hclass : (Tree.node n ts : Ast).isClass
    · rw [Constant.classTree_eq_ok.mpr (.inl ⟨hclass, rfl⟩)] at hread
      simp only [hclass, if_true]
      refine .ask hread (.ask rfl (.children (C := []) h ?_))
      exact walkMembers_behind
        (fun u hu => Nat.le_trans (Tree.size_le_of_mem_children hu) hsize) hall
    · have hclass : (Tree.node n ts : Ast).isClass = false := by simpa using hclass
      simp only [hclass]
      cases hfind : ts.find? Tree.isClass with
      | none =>
        have hnone : (Tree.node n ts : Ast).classTree = .error (.malformedTree n.id .noClass) := by
          simp [Tree.classTree, hclass, Tree.children, hfind]
        rw [hnone] at hread
        rw [walkFirstClass_of_none hfind]
        exact .ask_error hread h
      | some c =>
        have hclassTree : (Tree.node n ts : Ast).classTree = .ok c :=
          Constant.classTree_eq_ok.mpr (.inr ⟨hclass, hfind⟩)
        obtain ⟨hholds, hle⟩ := h.holds.classTree hclassTree
        rw [hclassTree] at hread
        refine .ask hread (.ask rfl (.ask (childrenAt_id hholds) ?_))
        exact walkFirstClass_behind hfind (Nat.le_trans hle h.size_le) hall

end OnStore
end ClassCompiler
