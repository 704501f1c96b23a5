import ClassCompiler.Proofs.Constant.Edited

/-!
# Optimizing edits a class

Propagation puts a constant in the place of a variable, so that is an edit only if the variable and
the constant have the same element.  In the domain of types it asks that the variable holds nothing
but constants of the type it was declared with.  The checker does not see to that for a variable
whose type is the superclass, which may be assigned anything.  So it is asked of the assignments
here: `StoresWell` says of one that what it assigns has no element, or that of the variable.  In the
domain in which all constants are the same, every assignment does.

A walk through statements that have all their parts and store well comes to its end, and carries
along constants with the right elements.  What it makes of the statements are edits, after which
they store as well as before.  So rounds of passes do what one pass does.

* `Walkable`: what a statement must be like.
* `walk_walks`: the walk through a statement.
* `EditedClass`: a class whose methods were edited.
* `optimize_edited`: all of it.
-/

namespace ClassCompiler
namespace Constant

open List (Forall₂)

variable {κ : Type} {D : Domain κ} {tracked : String → Bool}

/-! ## Known constants with the right elements -/

/-- Every entry names a variable that has the element of its constant. -/
def Fits (D : Domain κ) (ρ : Known) : Prop :=
  ∀ x c, (x, c) ∈ ρ → D.ofName? x = some (D.ofConstant c)

namespace Fits

variable {ρ ρ' : Known}

theorem nil : Fits D [] :=
  fun _ _ h => absurd h List.not_mem_nil

/-- Fewer entries say less. -/
theorem mono (h : Fits D ρ) (hsub : ∀ e ∈ ρ', e ∈ ρ) : Fits D ρ' :=
  fun x c hx => h x c (hsub _ hx)

theorem forget (h : Fits D ρ) (name : String) : Fits D (ρ.forget name) :=
  h.mono fun _ he => (List.mem_filter.mp he).1

theorem forgetAll (h : Fits D ρ) (names : List String) :
    Fits D (ρ.forgetAll names) :=
  h.mono fun _ he => (List.mem_filter.mp he).1

theorem agree (h : Fits D ρ) (ρ' : Known) : Fits D (ρ.agree ρ') :=
  h.mono fun _ he => (List.mem_filter.mp he).1

theorem set (h : Fits D ρ) {name : String} {c : Constant}
    (hname : D.ofName? name = some (D.ofConstant c)) : Fits D (ρ.set name c) := by
  intro x d hx
  rcases List.mem_cons.mp hx with hx | hx
  · obtain ⟨rfl, rfl⟩ := Prod.mk.inj hx
    exact hname
  · exact h.forget name x d hx

end Fits

/-- An expression that the known constants determine has the element of its value. -/
theorem eval?_of_eval {ρ : Known} (hρ : Fits D ρ) {t : Ast} {c : Constant}
    (h : eval ρ t = some c) : D.eval? t = some (D.ofConstant c) := by
  induction t using Tree.induction generalizing c with
  | node n ts ih =>
    rw [eval.eq_def] at h
    cases hk : n.kind <;> simp only [hk, evalLeaf, ofKind?, reduceCtorEq] at h
    case integer v | boolean v =>
      refine Domain.eval?_of_ofKind? ?_
      rw [Tree.kind, Tree.label, hk, ofKind?, h]
    case identifier x =>
      rw [Domain.eval?_identifier hk]
      exact hρ x c (Meaning.mem_of_get? h)
    case parenthesis =>
      cases ts with
      | nil => cases h
      | cons t _ =>
        rw [Domain.eval?_parenthesis hk]
        exact ih t List.mem_cons_self h
    case negation =>
      cases ts with
      | nil => cases h
      | cons t _ =>
        obtain ⟨a, ha, hc⟩ := Option.bind_eq_some_iff.mp h
        exact Domain.eval?_negation hk (ih t List.mem_cons_self ha) (D.negate?_ofConstant a c hc)
    case binary op =>
      rcases ts with - | ⟨l, - | ⟨r, rest⟩⟩
      · cases h
      · cases h
      · obtain ⟨a, ha, h⟩ := Option.bind_eq_some_iff.mp h
        obtain ⟨b, hb, hc⟩ := Option.bind_eq_some_iff.mp h
        exact Domain.eval?_binary hk (ih l List.mem_cons_self ha)
          (ih r (List.mem_cons_of_mem _ List.mem_cons_self) hb) (D.binary?_ofConstant op a b c hc)

/-- **To put known constants in the place of variables edits an expression.** -/
theorem substitute_edited {ρ : Known} (hρ : Fits D ρ) (t : Ast) (log : Log) :
    Edited D t ((substitute ρ t).run log).1 := by
  induction t using Tree.induction generalizing log with
  | node n ts ih =>
    rcases Meaning.substitute_run ρ n ts log with ⟨name, c, id, hk, hx, hrun⟩ | hrun | hrun
    · rw [hrun]
      refine .of_literal ?_
      rw [Domain.eval?_identifier hk]
      exact hρ name c (Meaning.mem_of_get? hx)
    · rw [hrun]
      exact .refl _
    · rw [hrun]
      exact .node n (Meaning.substituteAll_forall₂ ih log)

theorem substituteAll_edited {ρ : Known} (hρ : Fits D ρ) (ts : List Ast) (log : Log) :
    Forall₂ (Edited D) ts ((substituteAll ρ ts).run log).1 :=
  Meaning.substituteAll_forall₂ (fun t _ log => substitute_edited hρ t log) log

/-! ## Statements that propagation gets through -/

/-- An assignment puts nothing but constants with its own element into a variable that is kept
track of. -/
def StoresWell (tracked : String → Bool) (D : Domain κ) (name : String) (v : Ast) : Prop :=
  ∀ x, D.eval? v = some x → tracked name = true → D.ofName? name = some x

theorem Edited.storesWell {v v' : Ast} (h : Edited D v v') {name : String}
    (hv : StoresWell tracked D name v) : StoresWell tracked D name v' :=
  fun x hx => hv x (h.eval? hx)

/-- The kinds of statements that a walk goes into, and the condition. -/
def isWalkedInto : Kind → Bool
  | .block | .thenBranch | .elseBranch | .conditional | .loop | .assignment _ | .condition => true
  | _ => false

/-- A statement that has all its parts, and in which variables are assigned constants with their own
elements only. -/
inductive Walkable (tracked : String → Bool) (D : Domain κ) : Ast → Prop
  | sequence {n : Numbered} {ts : List Ast}
    (hk : n.kind = .block ∨ n.kind = .thenBranch ∨ n.kind = .elseBranch)
    (h : ∀ t ∈ ts, Walkable tracked D t) : Walkable tracked D (.node n ts)
  | conditional {n : Numbered} {c t : Ast} {rest : List Ast} (hk : n.kind = .conditional)
    (hc : Walkable tracked D c) (ht : Walkable tracked D t)
    (he : ∀ e ∈ rest.head?, Walkable tracked D e) : Walkable tracked D (.node n (c :: t :: rest))
  | loop {n : Numbered} {c : Ast} {body : List Ast} (hk : n.kind = .loop)
    (hc : Walkable tracked D c) (hb : ∀ t ∈ body, Walkable tracked D t) :
    Walkable tracked D (.node n (c :: body))
  | assignment {n : Numbered} {name : String} {v : Ast} {rest : List Ast}
    (hk : n.kind = .assignment name) (hstore : StoresWell tracked D name v) :
    Walkable tracked D (.node n (v :: rest))
  | condition {n : Numbered} {e : Ast} {rest : List Ast} (hk : n.kind = .condition) :
    Walkable tracked D (.node n (e :: rest))
  | other {n : Numbered} {ts : List Ast} (hk : isWalkedInto n.kind = false) :
    Walkable tracked D (.node n ts)

/-- A literal is walked through. -/
theorem Walkable.of_ofKind? {n : Numbered} {c : Constant} (h : ofKind? n.kind = some c)
    (ts : List Ast) : Walkable tracked D (.node n ts) := by
  refine .other ?_
  cases hk : n.kind <;> rw [hk] at h <;> simp only [ofKind?, reduceCtorEq] at h <;> rfl

/-- Edits leave a statement one that propagation gets through. -/
theorem Walkable.edited {t t' : Ast} (h : Walkable tracked D t) (hedit : Edited D t t') :
    Walkable tracked D t' := by
  induction t using Tree.induction generalizing t' with
  | node n ts ih =>
    cases hedit with
    | literal _ hk => exact .of_ofKind? hk []
    | node _ hts =>
      cases h with
      | sequence hk h =>
        refine .sequence hk fun t' ht' => ?_
        obtain ⟨t, ht, hedit⟩ := forall₂_mem_right hts ht'
        exact ih t ht (h t ht) hedit
      | conditional hk hc ht he =>
        cases hts with
        | cons hc' hts =>
          cases hts with
          | cons ht' hrest =>
            refine .conditional hk (ih _ (by simp) hc hc') (ih _ (by simp) ht ht') ?_
            cases hrest with
            | nil => exact fun _ h => absurd h (by simp)
            | cons he' _ =>
              intro e' hmem
              cases Option.some.inj (Option.mem_def.mp hmem)
              exact ih _ (by simp) (he _ rfl) he'
      | loop hk hc hb =>
        cases hts with
        | cons hc' hbody =>
          refine .loop hk (ih _ List.mem_cons_self hc hc') fun t' ht' => ?_
          obtain ⟨t, ht, hedit⟩ := forall₂_mem_right hbody ht'
          exact ih t (List.mem_cons_of_mem _ ht) (hb t ht) hedit
      | assignment hk hstore =>
        cases hts with
        | cons hv _ => exact .assignment hk (hv.storesWell hstore)
      | condition hk =>
        cases hts with
        | cons _ _ => exact .condition hk
      | other hk => exact .other hk

/-! ## Propagation -/

/-- A walk got through: its tree is edited, and what it knows afterwards has the right elements. -/
def Walks (D : Domain κ) (t : Ast) (r : Walked Ast) : Prop :=
  Edited D t r.1 ∧ ∃ ρ, r.2 = .ok ρ ∧ Fits D ρ

/-- The same for several statements. -/
def WalksAll (D : Domain κ) (ts : List Ast) (r : Walked (List Ast)) : Prop :=
  Forall₂ (Edited D) ts r.1 ∧ ∃ ρ, r.2 = .ok ρ ∧ Fits D ρ

theorem Fits.assign {ρ : Known} (hρ : Fits D ρ) {name : String} {v v' : Ast}
    (hedit : Edited D v v') (hstore : StoresWell tracked D name v) :
    Fits D (ρ.assign tracked name v') := by
  unfold Known.assign
  split
  · rename_i c hc
    split
    · rename_i htracked
      refine hρ.set (hstore _ ?_ htracked)
      exact hedit.eval? (Domain.eval?_of_ofKind? hc)
    · exact hρ.forget name
  · exact hρ.forget name

theorem walkAll_walks {ts : List Ast}
    (h : ∀ t ∈ ts, ∀ ρ log, Fits D ρ →
      Walks D t ((walk tracked ρ t).run log).1)
    {ρ : Known} (hρ : Fits D ρ) (log : Log) :
    WalksAll D ts ((walkAll tracked ρ ts).run log).1 := by
  induction ts generalizing ρ log with
  | nil =>
    rw [walkAll]
    exact ⟨.nil, ρ, rfl, hρ⟩
  | cons t ts ih =>
    have hfirst := h t List.mem_cons_self ρ log hρ
    rw [Meaning.walkAll_cons_run]
    generalize (walk tracked ρ t).run log = first at hfirst ⊢
    obtain ⟨⟨t', known⟩, log'⟩ := first
    obtain ⟨hedit, ρ', hknown, hρ'⟩ := hfirst
    cases hknown
    obtain ⟨hedits, ρ'', hknown, hρ''⟩ := ih (fun u hu => h u (List.mem_cons_of_mem t hu)) hρ' log'
    exact ⟨.cons hedit hedits, ρ'', hknown, hρ''⟩

/-! ### Loops run on constants -/

theorem storesWell_of_straightLines_of {ts : List Ast}
    (h : ∀ t ∈ ts, ∀ steps, straightLine t = some steps →
      ∀ step ∈ steps, StoresWell tracked D step.1 step.2 ∧ step.1 ∈ assignedNames t)
    {steps : List (String × Ast)} (hsteps : straightLines ts = some steps) {step : String × Ast}
    (hstep : step ∈ steps) :
    ∃ t ∈ ts, StoresWell tracked D step.1 step.2 ∧ step.1 ∈ assignedNames t := by
  induction ts generalizing steps with
  | nil =>
    cases Option.some.inj hsteps
    exact absurd hstep List.not_mem_nil
  | cons t ts ih =>
    rw [straightLines] at hsteps
    obtain ⟨first, hfirst, hsteps⟩ := Option.bind_eq_some_iff.mp hsteps
    obtain ⟨rest, hrest, hsteps⟩ := Option.bind_eq_some_iff.mp hsteps
    cases Option.some.inj hsteps
    rcases List.mem_append.mp hstep with hstep | hstep
    · exact ⟨t, List.mem_cons_self, h t List.mem_cons_self first hfirst step hstep⟩
    · obtain ⟨u, hu, hstore⟩ := ih (fun u hu => h u (List.mem_cons_of_mem t hu)) hrest hstep
      exact ⟨u, List.mem_cons_of_mem t hu, hstore⟩

/-- The assignments that a statement consists of put constants with the right elements into
variables. -/
theorem storesWell_of_straightLine {t : Ast} (ht : Walkable tracked D t)
    {steps : List (String × Ast)} (h : straightLine t = some steps) :
    ∀ step ∈ steps, StoresWell tracked D step.1 step.2 ∧ step.1 ∈ assignedNames t := by
  induction t using Tree.induction generalizing steps with
  | node n ts ih =>
    rw [straightLine.eq_def] at h
    cases hk : n.kind <;> simp only [hk, reduceCtorEq] at h
    case localVar =>
      cases Option.some.inj h
      exact fun _ hstep => absurd hstep List.not_mem_nil
    case block =>
      have hts : ∀ u ∈ ts, Walkable tracked D u := by
        cases ht with
        | sequence _ hts => exact hts
        | _ => simp_all [isWalkedInto]
      intro step hstep
      obtain ⟨u, hu, hstore, hname⟩ :=
        storesWell_of_straightLines_of (fun u hu _ => ih u hu (hts u hu)) h hstep
      exact ⟨hstore, Meaning.mem_assignedNames_child hu hname⟩
    case assignment name =>
      cases ts with
      | nil => cases h
      | cons v rest =>
        cases Option.some.inj h
        intro step hstep
        cases List.mem_singleton.mp hstep
        refine ⟨?_, by simp [Meaning.assignedNames_node, hk, Meaning.assignedName?]⟩
        cases ht with
        | assignment hk' hstore =>
          rw [hk] at hk'
          cases hk'
          exact hstore
        | _ => simp_all [isWalkedInto]

theorem storesWell_of_straightLines {ts : List Ast} (hts : ∀ t ∈ ts, Walkable tracked D t)
    {steps : List (String × Ast)} (hsteps : straightLines ts = some steps) {step : String × Ast}
    (hstep : step ∈ steps) :
    ∃ t ∈ ts, StoresWell tracked D step.1 step.2 ∧ step.1 ∈ assignedNames t :=
  storesWell_of_straightLines_of (fun t ht _ h => storesWell_of_straightLine (hts t ht) h) hsteps
    hstep

theorem Fits.assignAll {steps : List (String × Ast)} {ρ ρ' : Known}
    (hρ : Fits D ρ)
    (hsteps : ∀ step ∈ steps, StoresWell tracked D step.1 step.2 ∧
      tracked step.1 = true)
    (h : Constant.assignAll ρ steps = some ρ') : Fits D ρ' := by
  induction steps generalizing ρ with
  | nil =>
    cases Option.some.inj h
    exact hρ
  | cons step steps ih =>
    rw [Constant.assignAll] at h
    obtain ⟨c, hc, h⟩ := Option.bind_eq_some_iff.mp h
    obtain ⟨hstore, htracked⟩ := hsteps step List.mem_cons_self
    have hname := hstore _ (eval?_of_eval hρ hc) htracked
    exact ih (hρ.set hname) (fun s hs => hsteps s (List.mem_cons_of_mem step hs)) h

theorem Fits.iterate {guard : Ast} {steps : List (String × Ast)} {tests : Nat} {ρ ρ' : Known}
    (hρ : Fits D ρ)
    (hsteps : ∀ step ∈ steps, StoresWell tracked D step.1 step.2 ∧
      tracked step.1 = true)
    (h : Constant.iterate guard steps tests ρ = some ρ') : Fits D ρ' := by
  induction tests generalizing ρ with
  | zero => cases h
  | succ tests ih =>
    rw [Constant.iterate] at h
    split at h
    · cases Option.some.inj h
      exact hρ
    · obtain ⟨mid, hmid, h⟩ := Option.bind_eq_some_iff.mp h
      exact ih (hρ.assignAll hsteps hmid) h
    · cases h

/-- What running a loop on constants leaves known has the right elements. -/
theorem Fits.simulate {n : Numbered} {c : Ast} {body : List Ast} {ρ ρ' : Known}
    (hρ : Fits D ρ) (hbody : ∀ t ∈ body, Walkable tracked D t)
    (h : Constant.simulate tracked c body (assignedNames (.node n (c :: body))) ρ =
      some ρ') : Fits D ρ' := by
  unfold Constant.simulate at h
  split at h
  · rename_i htracked
    obtain ⟨guard, -, h⟩ := Option.bind_eq_some_iff.mp h
    obtain ⟨steps, hsteps, h⟩ := Option.bind_eq_some_iff.mp h
    have hall : ∀ step ∈ steps, StoresWell tracked D step.1 step.2 ∧ tracked step.1 = true := by
      intro step hstep
      obtain ⟨t, ht, hstore, hname⟩ := storesWell_of_straightLines hbody hsteps hstep
      refine ⟨hstore, List.all_eq_true.mp htracked step.1 ?_⟩
      exact Meaning.mem_assignedNames_child (List.mem_cons_of_mem c ht) hname
    exact hρ.iterate hall h
  · cases h

/-! ### The walk -/

theorem walk_walks_conditional {n : Numbered} {c t : Ast} {rest : List Ast}
    (hk : n.kind = .conditional)
    (h : ∀ u ∈ c :: t :: rest.head?.toList, ∀ ρ log, Fits D ρ →
      Walks D u ((walk tracked ρ u).run log).1)
    {ρ : Known} (hρ : Fits D ρ) (log : Log) :
    Walks D (.node n (c :: t :: rest))
      ((walk tracked ρ (.node n (c :: t :: rest))).run log).1 := by
  rw [walk.eq_def]
  simp only [hk]
  have hc := h c (by simp) ρ log hρ
  rw [Meaning.StateM.run_bind]
  generalize (walk tracked ρ c).run log = r at hc ⊢
  obtain ⟨⟨c', known⟩, log₁⟩ := r
  obtain ⟨hedit, ρ₁, hknown, hρ₁⟩ := hc
  cases hknown
  have ht := h t (by simp) ρ₁ log₁ hρ₁
  dsimp only
  rw [Meaning.StateM.run_bind]
  generalize (walk tracked ρ₁ t).run log₁ = r at ht ⊢
  obtain ⟨⟨t', known⟩, log₂⟩ := r
  obtain ⟨hedit', ρ₂, hknown, hρ₂⟩ := ht
  cases hknown
  cases rest with
  | nil => exact ⟨.node n (.cons hedit (.cons hedit' .nil)), _, rfl, hρ₁.agree ρ₂⟩
  | cons e rest =>
    have he := h e (by simp) ρ₁ log₂ hρ₁
    dsimp only
    rw [Meaning.StateM.run_bind]
    generalize (walk tracked ρ₁ e).run log₂ = r at he ⊢
    obtain ⟨⟨e', known⟩, log₃⟩ := r
    obtain ⟨hedit'', ρ₃, hknown, hρ₃⟩ := he
    cases hknown
    refine ⟨.node n (.cons hedit (.cons hedit' (.cons hedit'' (Edited.refl_all rest)))), _, rfl, ?_⟩
    exact hρ₃.agree ρ₂

theorem walk_walks_loop {n : Numbered} {c : Ast} {body : List Ast} (hk : n.kind = .loop)
    (hwalkable : ∀ t ∈ body, Walkable tracked D t)
    (h : ∀ u ∈ c :: body, ∀ ρ log, Fits D ρ →
      Walks D u ((walk tracked ρ u).run log).1)
    {ρ : Known} (hρ : Fits D ρ) (log : Log) :
    Walks D (.node n (c :: body))
      ((walk tracked ρ (.node n (c :: body))).run log).1 := by
  have hhead : Fits D (ρ.forgetAll (assignedNames (.node n (c :: body)))) :=
    hρ.forgetAll _
  rw [walk.eq_def]
  simp only [hk]
  have hc := h c List.mem_cons_self _ log hhead
  rw [Meaning.StateM.run_bind]
  generalize (walk tracked
    (ρ.forgetAll (assignedNames (.node n (c :: body)))) c).run log = r at hc ⊢
  obtain ⟨⟨c', known⟩, log₁⟩ := r
  obtain ⟨hedit, ρ₁, hknown, hρ₁⟩ := hc
  cases hknown
  have hbody := walkAll_walks (fun t ht => h t (List.mem_cons_of_mem c ht)) hρ₁ log₁
  dsimp only
  rw [Meaning.StateM.run_bind]
  generalize (walkAll tracked ρ₁ body).run log₁ = r at hbody ⊢
  obtain ⟨⟨body', known⟩, log₂⟩ := r
  obtain ⟨hedits, ρ₂, hknown, -⟩ := hbody
  cases hknown
  refine ⟨.node n (.cons hedit hedits), _, rfl, ?_⟩
  -- After the loop: what the simulation gave, if it gave anything.
  cases hexit : simulate tracked c body (assignedNames (.node n (c :: body))) ρ with
  | none => exact hhead
  | some exit => exact hρ.simulate hwalkable hexit

/-- **Propagation edits a statement**, and gets through it. -/
theorem walk_walks {t : Ast} (ht : Walkable tracked D t) {ρ : Known} (hρ : Fits D ρ)
    (log : Log) : Walks D t ((walk tracked ρ t).run log).1 := by
  induction t using Tree.induction generalizing ρ log with
  | node n ts ih =>
    cases ht with
    | sequence hk h =>
      have hall := walkAll_walks (fun t ht ρ log hρ => ih t ht (h t ht) hρ log) hρ log
      rw [walk.eq_def]
      rcases hk with hk | hk | hk <;> simp only [hk]
      all_goals exact ⟨.node n hall.1, hall.2⟩
    | conditional hk hc ht he =>
      refine walk_walks_conditional hk (fun u hu ρ log hρ => ?_) hρ log
      simp only [List.mem_cons, Option.mem_toList] at hu
      rcases hu with rfl | rfl | hu
      · exact ih _ (by simp) hc hρ log
      · exact ih _ (by simp) ht hρ log
      · exact ih u (by simp [List.mem_of_mem_head? hu]) (he u hu) hρ log
    | loop hk hc hb =>
      refine walk_walks_loop hk hb (fun u hu ρ log hρ => ?_) hρ log
      rcases List.mem_cons.mp hu with rfl | hu'
      · exact ih u hu hc hρ log
      · exact ih u hu (hb u hu') hρ log
    | @assignment _ name v rest hk hstore =>
      have hedit := substitute_edited hρ v log
      rw [walk.eq_def]
      simp only [hk]
      exact ⟨.node n (.cons hedit (Edited.refl_all rest)), _, rfl, hρ.assign hedit hstore⟩
    | @condition _ e rest hk =>
      rw [walk.eq_def]
      simp only [hk]
      exact ⟨.node n (.cons (substitute_edited hρ e log) (Edited.refl_all rest)), ρ, rfl, hρ⟩
    | other hk =>
      have hsame : Walks D (.node n ts) (.node n ts, .ok ρ) := ⟨.refl _, ρ, rfl, hρ⟩
      have hparts : Walks D (.node n ts)
          (.node n ((substituteAll ρ ts).run log).1, .ok ρ) :=
        ⟨.node n (substituteAll_edited hρ ts log), ρ, rfl, hρ⟩
      have hwhole : Walks D (.node n ts)
          (((substitute ρ (.node n ts)).run log).1, .ok ρ) :=
        ⟨substitute_edited hρ _ log, ρ, rfl, hρ⟩
      rw [walk.eq_def]
      cases hkind : n.kind <;> rw [hkind] at hk <;> simp only [hkind]
      case returnType | argument | localVar => exact hsame
      case arrayAssignment | expression | ret => exact hparts
      case block | thenBranch | elseBranch | conditional | loop | assignment | condition =>
        cases hk
      all_goals exact hwhole

/-! ## Classes -/

section Classes

variable {T : ClassTable} {D : String → Domain κ}

/-- A member of a class was edited; if it is a method, in the domain that belongs to the method. -/
def EditedMember (D : String → Domain κ) (m m' : Ast) : Prop :=
  Edited (D (m.kind.methodName?.getD "")) m m'

/-- A class has the members that it had, edited. -/
structure EditedClass (D : String → Domain κ) (c c' : Ast) : Prop where
  label : c'.label = c.label
  members : Forall₂ (EditedMember D) c.children c'.children

/-- Propagation gets through the methods of a class. -/
def WalkableClass (T : ClassTable) (D : String → Domain κ) (c : Ast) : Prop :=
  ∀ m ∈ c.children, ∀ name, m.kind.methodName? = some name →
    ∀ t ∈ m.children, Walkable (isTracked T name) (D name) t

/-- A method is no expression. -/
theorem Domain.eval?_of_methodName? {D : Domain κ} {n : Numbered} {name : String}
    (h : n.kind.methodName? = some name) (ts : List Ast) : D.eval? (.node n ts) = none := by
  rw [eval?.eq_def]
  cases hk : n.kind <;> rw [hk] at h <;> simp only [Kind.methodName?, reduceCtorEq] at h
  all_goals
    simp only [hk]
    rfl

/-- A method stays a method, with its children edited. -/
theorem EditedMember.children {m m' : Ast} (h : EditedMember D m m') {name : String}
    (hname : m.kind.methodName? = some name) :
    m'.label = m.label ∧ Forall₂ (Edited (D name)) m.children m'.children := by
  obtain ⟨n, ts⟩ := m
  have hname' : n.kind.methodName? = some name := hname
  unfold EditedMember at h
  rw [hname, Option.getD_some] at h
  obtain ⟨ts', rfl, hts⟩ := h.label_eq (Domain.eval?_of_methodName? hname' ts)
  exact ⟨rfl, hts⟩

theorem EditedMember.methodName? {m m' : Ast} (h : EditedMember D m m') :
    m'.kind.methodName? = m.kind.methodName? := by
  cases hname : m.kind.methodName? with
  | some name =>
    obtain ⟨hlabel, -⟩ := h.children hname
    rw [Tree.kind, hlabel]
    exact hname
  | none =>
    unfold EditedMember at h
    cases h with
    | node n _ => exact hname
    | @literal _ n _ _ hk =>
      show n.kind.methodName? = none
      cases hkind : n.kind <;> rw [hkind] at hk <;> simp only [ofKind?, reduceCtorEq] at hk <;> rfl

theorem EditedMember.trans {m m' m'' : Ast} (h : EditedMember D m m') (h' : EditedMember D m' m'') :
    EditedMember D m m'' := by
  have hname := h.methodName?
  unfold EditedMember at h h' ⊢
  rw [hname] at h'
  exact h.trans h'

theorem EditedClass.refl (c : Ast) : EditedClass D c c :=
  ⟨rfl, List.forall₂_same.mpr fun _ _ => Edited.refl _⟩

theorem EditedClass.trans {c c' c'' : Ast} (h : EditedClass D c c') (h' : EditedClass D c' c'') :
    EditedClass D c c'' := by
  refine ⟨h'.label.trans h.label, ?_⟩
  have hmembers := h.members
  have hmembers' := h'.members
  generalize c'.children = ms' at hmembers hmembers'
  generalize c.children = ms at hmembers
  generalize c''.children = ms'' at hmembers'
  induction hmembers generalizing ms'' with
  | nil =>
    cases hmembers'
    exact .nil
  | cons hm _ ih =>
    cases hmembers' with
    | cons hm' hrest => exact .cons (hm.trans hm') (ih _ hrest)

theorem WalkableClass.edited {c c' : Ast} (h : WalkableClass T D c) (hedit : EditedClass D c c') :
    WalkableClass T D c' := by
  intro m' hm' name hname t' ht'
  obtain ⟨m, hm, hmember⟩ := forall₂_mem_right hedit.members hm'
  rw [hmember.methodName?] at hname
  obtain ⟨-, hts⟩ := hmember.children hname
  obtain ⟨t, ht, hedit⟩ := forall₂_mem_right hts ht'
  exact (h m hm name hname t ht).edited hedit

/-- The class of a tree was edited. -/
def EditedTree (D : String → Domain κ) (t t' : Ast) : Prop :=
  ∀ c, t.classTree = .ok c → ∃ c', t'.classTree = .ok c' ∧ EditedClass D c c'

/-- The class of a tree is the root, or the first class below it. -/
theorem classTree_eq_ok {t c : Ast} :
    t.classTree = .ok c ↔
      (t.isClass = true ∧ c = t) ∨
        (t.isClass = false ∧ t.children.find? Tree.isClass = some c) := by
  unfold Tree.classTree
  cases hclass : t.isClass with
  | true => simp [eq_comm]
  | false =>
    cases hfind : t.children.find? Tree.isClass with
    | none => simp
    | some c' => simp

/-- Trees below one root, if where the root is a class its members were edited, and otherwise the
first class below it was. -/
theorem EditedTree.node {n : Numbered} {ts ts' : List Ast}
    (hmembers : (Tree.node n ts : Ast).isClass = true → Forall₂ (EditedMember D) ts ts')
    (hclass : ∀ c, ts.find? Tree.isClass = some c →
      ∃ c', ts'.find? Tree.isClass = some c' ∧ EditedClass D c c') :
    EditedTree D (.node n ts) (.node n ts') := by
  intro c hc
  rcases classTree_eq_ok.mp hc with ⟨hroot, rfl⟩ | ⟨hroot, hfind⟩
  · exact ⟨.node n ts', classTree_eq_ok.mpr (.inl ⟨hroot, rfl⟩), rfl, hmembers hroot⟩
  · obtain ⟨c', hfind', hedit⟩ := hclass c hfind
    exact ⟨c', classTree_eq_ok.mpr (.inr ⟨hroot, hfind'⟩), hedit⟩

theorem EditedTree.trans {t t' t'' : Ast} (h : EditedTree D t t') (h' : EditedTree D t' t'') :
    EditedTree D t t'' := by
  intro c hc
  obtain ⟨c', hc', hedit⟩ := h c hc
  obtain ⟨c'', hc'', hedit'⟩ := h' c' hc'
  exact ⟨c'', hc'', hedit.trans hedit'⟩

/-! ### Folding a class -/

theorem foldSlots_members (ts : List Ast) (s : FoldState) :
    Forall₂ (EditedMember D) ts ((foldSlots ts).run s).1 :=
  Meaning.foldSlots_forall₂ (fun t _ s => foldSlot_edited t s) s

/-- A class that is folded stays one, and nothing else becomes one. -/
theorem foldSlot_class (t : Ast) (s : FoldState) :
    ((foldSlot t).run s).1.isClass = t.isClass ∧
      (t.isClass = true → EditedClass D t ((foldSlot t).run s).1) := by
  obtain ⟨n, ts⟩ := t
  obtain ⟨id, hrun⟩ := Meaning.foldSlot_run n ts s
  rw [hrun]
  split
  · rename_i value hvalue
    have hroot : (Tree.node n ts : Ast).isClass = false := by
      unfold Tree.isClass
      rw [Tree.kind, Tree.label]
      cases hk : n.kind <;> simp [foldedValue?, hk] at hvalue ⊢
    rw [hroot]
    exact ⟨by cases value <;> rfl, fun h => absurd h (by simp)⟩
  · exact ⟨rfl, fun _ => ⟨rfl, foldSlots_members ts s⟩⟩

/-- The first class of a list, where classes stay classes and nothing becomes one. -/
theorem find?_class {R : Ast → Ast → Prop} {ts ts' : List Ast}
    (h : Forall₂ (fun t t' => t'.isClass = t.isClass ∧ (t.isClass = true → R t t')) ts ts')
    {c : Ast} (hc : ts.find? Tree.isClass = some c) :
    ∃ c', ts'.find? Tree.isClass = some c' ∧ R c c' := by
  induction h with
  | nil => cases hc
  | @cons t t' _ _ ht _ ih =>
    rw [List.find?_cons] at hc ⊢
    rw [ht.1]
    cases hclass : t.isClass with
    | true =>
      rw [hclass] at hc
      cases Option.some.inj hc
      exact ⟨t', rfl, ht.2 hclass⟩
    | false =>
      rw [hclass] at hc
      exact ih hc

theorem foldPasses_edited (fuel : Nat) (t : Ast) (s : FoldState) :
    EditedTree D t ((foldPasses fuel t).run s).1 := by
  induction fuel generalizing t s with
  | zero => exact fun c hc => ⟨c, hc, .refl c⟩
  | succ fuel ih =>
    have hpass : EditedTree D t ((foldPass t).run s).1 := by
      obtain ⟨n, ts⟩ := t
      refine .node (fun _ => foldSlots_members ts s) fun c hc => find?_class ?_ hc
      exact Meaning.foldSlots_forall₂ (fun t _ s => foldSlot_class t s) s
    have hrun : (foldPasses (fuel + 1) t).run s =
        (if ((foldPass t).run s).2.count = s.count then pure ((foldPass t).run s).1
          else foldPasses fuel ((foldPass t).run s).1 : Folding Ast).run
        ((foldPass t).run s).2 := by
      rw [foldPasses]
      rfl
    rw [hrun]
    split
    · exact hpass
    · exact hpass.trans (ih _ _)

/-! ### Propagation through a class -/

theorem walkMembers_edited {members : List Ast}
    (h : ∀ m ∈ members, ∀ name, m.kind.methodName? = some name →
      ∀ t ∈ m.children, Walkable (isTracked T name) (D name) t) (log : Log) :
    Forall₂ (EditedMember D) members ((walkMembers T members).run log).1.1 ∧
      ((walkMembers T members).run log).1.2 = .ok () := by
  induction members generalizing log with
  | nil => exact ⟨.nil, rfl⟩
  | cons m members ih =>
    obtain ⟨n, ts⟩ := m
    have hlater := ih fun m hm => h m (List.mem_cons_of_mem _ hm)
    rw [walkMembers.eq_def]
    dsimp only
    cases hname : n.kind.methodName? with
    | none =>
      obtain ⟨hmembers, houtcome⟩ := hlater log
      exact ⟨.cons (Edited.refl _) hmembers, houtcome⟩
    | some name =>
      have hts := walkAll_walks (fun t ht ρ log hρ =>
        walk_walks (h _ List.mem_cons_self name hname t ht) hρ log) Fits.nil log
      change WalksAll (D name) ts ((walkAll (isTracked T name) [] ts).run log).1 at hts
      dsimp only
      rw [Meaning.StateM.run_bind]
      generalize (walkAll (isTracked T name) [] ts).run log = r at hts ⊢
      obtain ⟨⟨ts', known⟩, log'⟩ := r
      obtain ⟨hedits, ρ, hknown, -⟩ := hts
      cases hknown
      obtain ⟨hmembers, houtcome⟩ := hlater log'
      refine ⟨.cons ?_ hmembers, houtcome⟩
      show Edited (D (n.kind.methodName?.getD "")) (.node n ts) (.node n ts')
      rw [hname, Option.getD_some]
      exact .node n hedits

theorem walkFirstClass_edited (root : Numbered) {ts : List Ast} {c : Ast}
    (hc : ts.find? Tree.isClass = some c) (hwalk : WalkableClass T D c) (log : Log) :
    (∃ c', ((walkFirstClass T root ts).run log).1.1.find? Tree.isClass = some c' ∧
      EditedClass D c c') ∧ ((walkFirstClass T root ts).run log).1.2 = .ok () := by
  induction ts with
  | nil => cases hc
  | cons t ts ih =>
    obtain ⟨n, children⟩ := t
    rw [walkFirstClass.eq_def]
    dsimp only
    cases hclass : (Tree.node n children : Ast).isClass with
    | true =>
      rw [List.find?_cons_of_pos hclass] at hc
      cases Option.some.inj hc
      obtain ⟨hmembers, houtcome⟩ := walkMembers_edited hwalk log
      have hclass' : (Tree.node n ((walkMembers T children).run log).1.1 : Ast).isClass = true :=
        hclass
      exact ⟨⟨_, List.find?_cons_of_pos hclass', rfl, hmembers⟩, houtcome⟩
    | false =>
      have hneg : ¬ (Tree.node n children : Ast).isClass = true := by simp [hclass]
      rw [List.find?_cons_of_neg hneg] at hc
      obtain ⟨⟨c', hc', hedit⟩, houtcome⟩ := ih hc
      exact ⟨⟨c', (List.find?_cons_of_neg hneg).trans hc', hedit⟩, houtcome⟩

/-- **Propagation edits the class of a tree**, and comes to its end. -/
theorem propagate_edited {t c : Ast} (hc : t.classTree = .ok c) (hwalk : WalkableClass T D c)
    (log : Log) :
    (∃ c', ((propagate T t).run log).1.1.classTree = .ok c' ∧ EditedClass D c c') ∧
      ((propagate T t).run log).1.2 = .ok () := by
  obtain ⟨n, ts⟩ := t
  rw [propagate]
  rcases classTree_eq_ok.mp hc with ⟨hroot, rfl⟩ | ⟨hroot, hfind⟩
  · obtain ⟨hmembers, houtcome⟩ := walkMembers_edited hwalk log
    rw [if_pos hroot]
    exact ⟨⟨_, classTree_eq_ok.mpr (.inl ⟨hroot, rfl⟩), rfl, hmembers⟩, houtcome⟩
  · obtain ⟨⟨c', hc', hedit⟩, houtcome⟩ := walkFirstClass_edited n hfind hwalk log
    rw [if_neg (by simp [hroot])]
    exact ⟨⟨c', classTree_eq_ok.mpr (.inr ⟨hroot, hc'⟩), hedit⟩, houtcome⟩

/-! ### Rounds -/

theorem rounds_edited (left : Nat) {t c : Ast} (hc : t.classTree = .ok c)
    (hwalk : WalkableClass T D c) (s : FoldState) :
    (∃ c', ((rounds T left t).run s).1.1.classTree = .ok c' ∧ EditedClass D c c') ∧
      ((rounds T left t).run s).1.2 = .ok () := by
  induction left generalizing t c s with
  | zero => exact ⟨⟨c, hc, .refl c⟩, rfl⟩
  | succ left ih =>
    obtain ⟨c₁, hc₁, hfold⟩ := foldPasses_edited t.size t s c hc
    obtain ⟨⟨c₂, hc₂, hwalked⟩, houtcome⟩ := propagate_edited hc₁ (hwalk.edited hfold)
      ((fold t).run s).2.log
    have hedit := hfold.trans hwalked
    rw [rounds, Meaning.StateM.run_bind, Meaning.StateM.run_get, Meaning.StateM.run_bind,
      Meaning.StateM.run_bind, Meaning.Replacing.lift_run]
    change _ = Except.ok c₁ at hc₁
    change ((propagate T ((fold t).run s).1).run ((fold t).run s).2.log).1.1.classTree = _ at hc₂
    change ((propagate T ((fold t).run s).1).run ((fold t).run s).2.log).1.2 = _ at houtcome
    dsimp only
    generalize (propagate T ((fold t).run s).1).run ((fold t).run s).2.log = r at hc₂ houtcome ⊢
    obtain ⟨⟨t', outcome⟩, log⟩ := r
    cases houtcome
    dsimp only
    rw [Meaning.StateM.run_bind, Meaning.StateM.run_get]
    split
    · exact ⟨⟨c₂, hc₂, hedit⟩, rfl⟩
    · obtain ⟨⟨c₃, hc₃, hlater⟩, houtcome⟩ := ih hc₂ (hwalk.edited hedit) _
      exact ⟨⟨c₃, hc₃, hedit.trans hlater⟩, houtcome⟩

/-- **Optimizing edits the class of a tree**, and comes to its end. -/
theorem optimize_edited {t c : Ast} (hc : t.classTree = .ok c) (hwalk : WalkableClass T D c)
    (next : Nat) :
    (∃ c', (optimize T next t).tree.classTree = .ok c' ∧ EditedClass D c c') ∧
      ∃ count, (optimize T next t).outcome = .ok count := by
  obtain ⟨hedit, houtcome⟩ := rounds_edited roundLimit hc hwalk { log := { next } }
  refine ⟨hedit, ((rounds T roundLimit t).run { log := { next } }).2.count, ?_⟩
  show Except.map _ ((rounds T roundLimit t).run { log := { next } }).1.2 = _
  rw [houtcome]
  rfl

end Classes

end Constant
end ClassCompiler
