import ClassCompiler.Proofs.Machine.Selectable
import ClassCompiler.Proofs.Typing.Edited

/-!
# Where a literal does not do

A literal can stand in almost every place of an expression.  There are two exceptions.  A method
cannot be called on it, because the machine has no members for integers and truth values.  It cannot
be read like an array either, because an array has to be in a variable.  A tree without such
literals is called intact, and a tree is intact if its code can be emitted.  It stays so if edits
spare what is called and what is read, and in an accepted tree they do, unless they come from
variables that hold what is not of their types.

* `isIntact`: the condition on a node.
* `lowerExpr_intact`, `lowerStatement_intact`: a tree whose code can be selected is intact.
* `intact_of_edited`: edits that spare what is called and read.
* `spares_of_accepted`: edits of accepted classes, by the types of expressions.
-/

namespace ClassCompiler

/-- The child that a method is called on, or that is read like an array. -/
def Kind.subject? {α : Type} (kind : Kind) (ts : List α) : Option α :=
  match kind with
  | .invocation _ | .arrayAccess => ts.head?
  | _ => none

namespace Machine

open ThreeAddress
open Constant (Domain Edited EditedClass ofKind? forall₂_mem_right)
open Typing
open List (Forall₂)

/-- A literal, whatever parentheses stand around it. -/
def isConstant : Ast → Bool
  | .node n ts =>
    match n.kind with
    | .parenthesis =>
      match ts with
      | [] => false
      | t :: _ => isConstant t
    | kind => kind.isLiteral

/-- If a method is called or an element of an array is read, then not on a literal. -/
def isIntact : Ast → Bool
  | .node n ts => (n.kind.subject? ts).all fun t => !isConstant t

/-- An operand that is an integer or a truth value. -/
def isScalar : Operand → Bool
  | .int _ | .bool _ => true
  | _ => false

theorem isConstant_of_ofKind? {n : Numbered} {c : Constant} (hk : ofKind? n.kind = some c)
    (ts : List Ast) : isConstant (.node n ts) = true := by
  rw [isConstant.eq_def]
  cases hkind : n.kind <;> rw [hkind] at hk <;> simp only [ofKind?, reduceCtorEq] at hk
  all_goals
    simp only [hkind]
    rfl

section

variable {Γ : Site} {isStatic : Bool}

/-- A literal is lowered to itself. -/
theorem isScalar_of_isConstant {t : Ast} (ht : isConstant t = true)
    {expected : Option ValueType} {f f' : Fresh} {v : ThreeAddress.Lowered}
    (hlower : (lowerExpr Γ expected t).run f = .ok (v, f')) : isScalar v.value = true := by
  induction t using Tree.induction with
  | node n ts ih =>
    rw [isConstant.eq_def] at ht
    cases lowerExpr_cases hlower with
    | integer _ | boolean _ => rfl
    | parenthesis hk h =>
      simp only [hk] at ht
      exact ih _ List.mem_cons_self ht h
    | string hk | this hk | className hk | «variable» hk | field hk | classRef hk | binary hk
    | negation hk | arrayAccess hk | arrayLength hk | newArray hk | newObject hk | invocation hk =>
      simp only [hk] at ht
      cases ht

/-- Nothing can be called on an integer or a truth value. -/
theorem selectableTarget_of_isScalar {c : Call} (hkind : c.kind = callKind c.target)
    (hscalar : isScalar c.target = true) : selectableTarget Γ.table isStatic c = false := by
  unfold selectableTarget
  rw [hkind]
  cases htarget : c.target with
  | int _ | bool _ => rfl
  | _ =>
    rw [htarget] at hscalar
    cases hscalar

theorem selects_append {code code' : List Instr} :
    (code ++ code').all (selectable Γ.table isStatic) = true ↔
      code.all (selectable Γ.table isStatic) = true ∧
        code'.all (selectable Γ.table isStatic) = true := by
  rw [List.all_append, Bool.and_eq_true]

/-! ## Expressions -/

theorem lowerArgs_intact {ts : List Ast}
    (h : ∀ t ∈ ts, ∀ expected f v f', (lowerExpr Γ expected t).run f = .ok (v, f') →
      v.code.all (selectable Γ.table isStatic) = true → t.everywhere isIntact = true)
    {declared : List Symbol} {f f' : Fresh} {args : LoweredArgs}
    (hargs : (lowerArgs Γ declared ts).run f = .ok (args, f'))
    (hselect : args.code.all (selectable Γ.table isStatic) = true) :
    ∀ t ∈ ts, t.everywhere isIntact = true := by
  induction ts generalizing declared f args with
  | nil => exact fun _ ht => absurd ht List.not_mem_nil
  | cons t ts ih =>
    obtain ⟨param, arg, f₁, rest, -, harg, hrest, rfl⟩ := lowerArgs_cons_eq_ok hargs
    rw [selects_append] at hselect
    intro u hu
    rcases List.mem_cons.mp hu with rfl | hu
    · exact h u List.mem_cons_self _ _ _ _ harg hselect.1
    · exact ih (fun t ht => h t (List.mem_cons_of_mem _ ht)) hrest hselect.2 u hu

/-- A call that can be selected is on no literal. -/
theorem lowerCall_intact {ts : List Ast}
    (h : ∀ t ∈ ts, ∀ expected f v f', (lowerExpr Γ expected t).run f = .ok (v, f') →
      v.code.all (selectable Γ.table isStatic) = true → t.everywhere isIntact = true)
    {n : Numbered} {method : String} (hk : n.kind = .invocation method)
    {expected : Option ValueType} {f f' : Fresh} {code : List Instr} {call : Call}
    (hcall : (lowerCall Γ n method expected ts).run f = .ok ((code, call), f'))
    (hcode : code.all (selectable Γ.table isStatic) = true)
    (hselect : selectableCall Γ.table isStatic call = true) :
    Tree.everywhere isIntact (.node n ts) = true := by
  obtain ⟨t, rest, target, f₁, args, result, rfl, ht, hargs, -, rfl, rfl⟩ := lowerCall_eq_ok hcall
  rw [selects_append] at hcode
  have htarget : isConstant t = false := by
    by_contra hconstant
    have hscalar := isScalar_of_isConstant (Bool.eq_true_of_not_eq_false hconstant) ht
    rw [selectableCall, selectableTarget_of_isScalar rfl hscalar] at hselect
    cases hselect
  refine Tree.everywhere_node.mpr ⟨?_, fun u hu => ?_⟩
  · simp [isIntact, Kind.subject?, hk, htarget]
  · simp only [hk, Kind.used] at hu
    rcases List.mem_cons.mp hu with rfl | hu
    · exact h u List.mem_cons_self _ _ _ _ ht hcode.1
    · exact lowerArgs_intact (fun t ht => h t (List.mem_cons_of_mem _ ht)) hargs hcode.2 u hu

/-- A node that calls and reads nothing is intact if what is read below it is. -/
theorem intact_node {n : Numbered} {kind : Kind} {ts : List Ast} (hk : n.kind = kind)
    (hsubject : kind.subject? ts = none)
    (hbelow : ∀ u ∈ kind.used ts, u.everywhere isIntact = true) :
    Tree.everywhere isIntact (.node n ts) = true := by
  subst hk
  refine Tree.everywhere_node.mpr ⟨?_, hbelow⟩
  rw [isIntact, hsubject]
  rfl

/-- **An expression whose code can be selected is intact.** -/
theorem lowerExpr_intact {t : Ast} {expected : Option ValueType} {f f' : Fresh}
    {v : ThreeAddress.Lowered}
    (hlower : (lowerExpr Γ expected t).run f = .ok (v, f'))
    (hselect : v.code.all (selectable Γ.table isStatic) = true) :
    t.everywhere isIntact = true := by
  induction t using Tree.induction generalizing expected f v f' with
  | node n ts ih =>
    cases lowerExpr_cases hlower with
    | integer hk | boolean hk | string hk | this hk | className hk | «variable» hk | field hk
    | classRef hk | newObject hk =>
      exact intact_node hk rfl (List.forall_mem_nil _)
    | parenthesis hk h =>
      refine intact_node hk rfl (List.forall_mem_singleton.mpr ?_)
      exact ih _ List.mem_cons_self h hselect
    | negation hk h | arrayLength hk h | newArray hk h =>
      refine intact_node hk rfl (List.forall_mem_singleton.mpr ?_)
      have hcode := (selects_append.mp hselect).1
      exact ih _ List.mem_cons_self h hcode
    | binary hk hl hr =>
      have hcode := (selects_append.mp hselect).1
      have hboth := selects_append.mp hcode
      refine intact_node hk rfl (List.forall_mem_cons.mpr ⟨?_, ?_⟩)
      · exact ih _ List.mem_cons_self hl hboth.1
      · exact List.forall_mem_singleton.mpr (ih _ (by simp) hr hboth.2)
    | @arrayAccess a i rest base f₁ index f₂ array hk ha hi harray =>
      have hcode := (selects_append.mp hselect).1
      have hboth := selects_append.mp hcode
      -- The array is in a variable, which no literal is.
      have hbase : isConstant a = false := by
        by_contra hconstant
        have hscalar := isScalar_of_isConstant (Bool.eq_true_of_not_eq_false hconstant) ha
        rw [harray] at hscalar
        cases hscalar
      refine Tree.everywhere_node.mpr ⟨by simp [isIntact, Kind.subject?, hk, hbase], ?_⟩
      rw [hk]
      refine List.forall_mem_cons.mpr ⟨?_, ?_⟩
      · exact ih _ List.mem_cons_self ha hboth.1
      · exact List.forall_mem_singleton.mpr (ih _ (by simp) hi hboth.2)
    | invocation hk h =>
      have hboth := selects_append.mp hselect
      have hcall := (Bool.and_eq_true_iff.mp hboth.2).1
      exact lowerCall_intact (fun t ht _ _ _ _ h hcode => ih t ht h hcode) hk h hboth.1 hcall

theorem lowerCondition_intact {t : Ast} {f f' : Fresh} {v : ThreeAddress.Lowered}
    (hlower : (lowerCondition Γ t).run f = .ok (v, f'))
    (hselect : v.code.all (selectable Γ.table isStatic) = true) :
    t.everywhere isIntact = true := by
  obtain ⟨n, ts⟩ := t
  rcases lowerCondition_eq_ok hlower with ⟨t, rest, hk, rfl, h⟩ | ⟨-, h⟩
  · refine intact_node hk rfl (List.forall_mem_singleton.mpr ?_)
    exact lowerExpr_intact h hselect
  · exact lowerExpr_intact h hselect

theorem lowerEffect_intact {t : Ast} {f f' : Fresh} {code : List Instr}
    (hlower : (lowerEffect Γ t).run f = .ok (code, f'))
    (hselect : code.all (selectable Γ.table isStatic) = true) :
    t.everywhere isIntact = true := by
  induction t using Tree.induction generalizing code with
  | node n ts ih =>
    cases lowerEffect_cases hlower with
    | parenthesis hk h =>
      refine intact_node hk rfl (List.forall_mem_singleton.mpr ?_)
      exact ih _ List.mem_cons_self h hselect
    | invocation hk h =>
      have hboth := selects_append.mp hselect
      have hcall := (Bool.and_eq_true_iff.mp hboth.2).1
      exact lowerCall_intact (fun _ _ _ _ _ _ h hcode => lowerExpr_intact h hcode) hk h hboth.1
        hcall
    | value _ _ h =>
      exact lowerExpr_intact h (selects_append.mp hselect).1

/-! ## Statements -/

theorem lowerStatements_intact {ts : List Ast}
    (h : ∀ t ∈ ts, ∀ f code f', (lowerStatement Γ t).run f = .ok (code, f') →
      code.all (selectable Γ.table isStatic) = true → t.everywhere isIntact = true)
    {f f' : Fresh} {code : List Instr}
    (hlower : (lowerStatements Γ ts).run f = .ok (code, f'))
    (hselect : code.all (selectable Γ.table isStatic) = true) :
    ∀ t ∈ ts, t.everywhere isIntact = true := by
  induction ts generalizing f code with
  | nil => exact List.forall_mem_nil _
  | cons t ts ih =>
    obtain ⟨first, f₁, rest, ht, hts, rfl⟩ := lowerStatements_cons_eq_ok hlower
    rw [selects_append] at hselect
    refine List.forall_mem_cons.mpr ⟨h t List.mem_cons_self _ _ _ ht hselect.1, ?_⟩
    exact ih (fun u hu => h u (List.mem_cons_of_mem t hu)) hts hselect.2

/-- **A statement whose code can be selected is intact.** -/
theorem lowerStatement_intact {t : Ast} {f f' : Fresh} {code : List Instr}
    (hlower : (lowerStatement Γ t).run f = .ok (code, f'))
    (hselect : code.all (selectable Γ.table isStatic) = true) :
    t.everywhere isIntact = true := by
  induction t using Tree.induction generalizing f code f' with
  | node n ts ih =>
    cases lowerStatement_cases hlower with
    | declaration hk =>
      cases hkind : n.kind <;> simp only [hkind, Kind.isDeclaration, reduceCtorEq] at hk
      all_goals exact intact_node hkind rfl (List.forall_mem_nil _)
    | sequence hk h =>
      have hall := lowerStatements_intact (fun t ht _ _ _ h hcode => ih t ht h hcode) h hselect
      rcases hk with hk | hk | hk
      all_goals exact intact_node hk rfl hall
    | @conditional c t rest cond f₁ thenCode f₂ elseCode f₃ hk hc ht he =>
      simp only [conditionalCode, selects_append] at hselect
      obtain ⟨⟨⟨⟨⟨hcond, -⟩, hthen⟩, -⟩, helse⟩, -⟩ := hselect
      refine intact_node hk rfl (List.forall_mem_cons.mpr ⟨?_, ?_⟩)
      · exact lowerCondition_intact hc hcond
      · refine List.forall_mem_cons.mpr ⟨ih t (by simp) ht hthen, ?_⟩
        cases rest with
        | nil => exact List.forall_mem_nil _
        | cons e rest => exact List.forall_mem_singleton.mpr (ih e (by simp) he helse)
    | loop hk hc hb hc' =>
      simp only [loopCode, selects_append] at hselect
      obtain ⟨⟨⟨⟨hfirst, -⟩, hbody⟩, -⟩, -⟩ := hselect
      refine intact_node hk rfl (List.forall_mem_cons.mpr ⟨?_, ?_⟩)
      · exact lowerCondition_intact hc hfirst
      · exact lowerStatements_intact
          (fun t ht _ _ _ h hcode => ih t (List.mem_cons_of_mem _ ht) h hcode) hb hbody
    | expression hk h =>
      refine intact_node hk rfl (List.forall_mem_singleton.mpr ?_)
      exact lowerEffect_intact h hselect
    | «variable» hk _ _ _ h =>
      refine intact_node hk rfl (List.forall_mem_singleton.mpr ?_)
      exact lowerExpr_intact h ((storeIn_selectable _ _).mp hselect).1
    | field hk _ _ h =>
      refine intact_node hk rfl (List.forall_mem_singleton.mpr ?_)
      exact lowerExpr_intact h (selects_append.mp hselect).1
    | element hk _ _ _ hi he =>
      simp only [selects_append] at hselect
      obtain ⟨⟨⟨-, hindex⟩, hvalue⟩, -⟩ := hselect
      refine intact_node hk rfl (List.forall_mem_cons.mpr ⟨?_, ?_⟩)
      · exact lowerExpr_intact hi hindex
      · exact List.forall_mem_singleton.mpr (lowerExpr_intact he hvalue)
    | returnNone hk => exact intact_node hk rfl (List.forall_mem_nil _)
    | returnSome hk _ h =>
      refine intact_node hk rfl (List.forall_mem_singleton.mpr ?_)
      exact lowerExpr_intact h (selects_append.mp hselect).1
    | condition _ h =>
      exact lowerCondition_intact h (selects_append.mp hselect).1
    | effect _ h => exact lowerEffect_intact h hselect

end

/-! ## Edits -/

section

variable {κ : Type} {D : Domain κ}

/-- If a method is called or an element of an array is read, then on nothing that a literal may take
the place of. -/
def spares (D : Domain κ) : Ast → Bool
  | .node n ts => (n.kind.subject? ts).all fun t => (D.eval? t).isNone

theorem eval?_of_isConstant {t : Ast} (h : isConstant t = true) : (D.eval? t).isSome = true := by
  induction t using Tree.induction with
  | node n ts ih =>
    rw [isConstant.eq_def] at h
    cases hk : n.kind <;> simp only [hk] at h
    case parenthesis =>
      cases ts with
      | nil => cases h
      | cons t ts =>
        rw [Domain.eval?_parenthesis hk]
        exact ih t List.mem_cons_self h
    case integer value =>
      have hc : ofKind? (Tree.node n ts : Ast).kind = some (.int value) := by
        rw [Tree.kind, Tree.label, hk]
        rfl
      rw [Domain.eval?_of_ofKind? hc]
      rfl
    case boolean value =>
      have hc : ofKind? (Tree.node n ts : Ast).kind = some (.bool value) := by
        rw [Tree.kind, Tree.label, hk]
        rfl
      rw [Domain.eval?_of_ofKind? hc]
      rfl
    all_goals cases h

theorem forall₂_used {R : Ast → Ast → Prop} (kind : Kind) {ts ts' : List Ast}
    (h : Forall₂ R ts ts') : Forall₂ R (kind.used ts) (kind.used ts') := by
  unfold Kind.used
  split
  all_goals first
    | exact h
    | exact List.forall₂_take _ h
    | exact .nil

theorem forall₂_subject? {R : Ast → Ast → Prop} (kind : Kind) {ts ts' : List Ast}
    (h : Forall₂ R ts ts') {u' : Ast} (hu' : kind.subject? ts' = some u') :
    ∃ u, kind.subject? ts = some u ∧ R u u' := by
  have hhead : ts'.head? = some u' → ∃ u, ts.head? = some u ∧ R u u' := by
    intro hu'
    cases h with
    | nil => cases hu'
    | cons hu _ =>
      cases Option.some.inj hu'
      exact ⟨_, rfl, hu⟩
  unfold Kind.subject? at hu' ⊢
  split at hu'
  · exact hhead hu'
  · exact hhead hu'
  · cases hu'

/-- What holds of a literal, and of a node with edited children if a condition was true of it, holds
everywhere after edits where the condition was true everywhere. -/
theorem everywhere_of_edited {p q : Ast → Bool}
    (hliteral : ∀ n c, ofKind? n.kind = some c → q (.node n []) = true)
    (hnode : ∀ n ts ts', Forall₂ (Edited D) ts ts' → p (.node n ts) = true →
      q (.node n ts') = true)
    {t t' : Ast} (hedit : Edited D t t') (h : t.everywhere p = true) :
    t'.everywhere q = true := by
  induction t using Tree.induction generalizing t' with
  | node n ts ih =>
    cases hedit with
    | @literal _ n' c _ hk =>
      refine Tree.everywhere_node.mpr ⟨hliteral n' c hk, fun u hu => ?_⟩
      exact absurd (Kind.mem_of_mem_used hu) List.not_mem_nil
    | @node _ _ ts' hts =>
      obtain ⟨hroot, hbelow⟩ := Tree.everywhere_node.mp h
      refine Tree.everywhere_node.mpr ⟨hnode n ts ts' hts hroot, fun u' hu' => ?_⟩
      obtain ⟨u, hu, hedit⟩ := forall₂_mem_right (forall₂_used n.kind hts) hu'
      exact ih u (Kind.mem_of_mem_used hu) hedit (hbelow u hu)

/-- Edits keep away from what is spared, so they leave a tree intact. -/
theorem intact_of_edited {t t' : Ast} (hedit : Edited D t t')
    (h : t.everywhere (spares D) = true) : t'.everywhere isIntact = true := by
  refine everywhere_of_edited (fun n c hk => ?_) (fun n ts ts' hts hroot => ?_) hedit h
  · cases hkind : n.kind <;> rw [hkind] at hk <;> simp only [ofKind?, reduceCtorEq] at hk
    all_goals simp [isIntact, Kind.subject?, hkind]
  · rw [spares, Option.all_eq_true] at hroot
    rw [isIntact, Option.all_eq_true]
    intro u' hu'
    obtain ⟨u, hu, hedit⟩ := forall₂_subject? n.kind hts hu'
    have hnone := Option.isNone_iff_eq_none.mp (hroot u hu)
    by_contra hconstant
    have hsome := eval?_of_isConstant (D := D) (by simpa using hconstant)
    obtain ⟨x, hx⟩ := Option.isSome_iff_exists.mp hsome
    rw [hedit.eval? hx] at hnone
    cases hnone

/-- A local or parameter that a literal of its type may take the place of is no object. -/
theorem isObject_of_eval? {T : ClassTable} {method : String} {t : Ast} {τ : Ty}
    (h : (Domain.types T method).eval? t = some τ) (expected : Option ValueType) :
    isObject (valueType? T method expected t) = false := by
  induction t using Tree.induction generalizing τ with
  | node n ts ih =>
    rw [valueType?.eq_def]
    rcases Domain.eval?_cases h with ⟨c, hk, -⟩ | ⟨name, hk, hname⟩ | ⟨t, rest, hk, rfl, ht⟩ |
      ⟨t, rest, a, hk, -⟩ | ⟨op, l, r, rest, a, b, hk, -⟩
    · cases hkind : n.kind <;> rw [hkind] at hk <;> simp only [ofKind?, reduceCtorEq] at hk
      all_goals
        simp only [hkind]
        rfl
    · obtain ⟨scope, symbol, hres, -, hscalar⟩ := Constant.variableScalar?_eq_some.mp hname
      obtain ⟨harray, hname, hτ⟩ := Ty.scalar?_eq_some hscalar
      simp only [hk]
      unfold leafType?
      simp only [hres, ValueType.ofType, harray, hname]
      rcases hτ with rfl | rfl <;> rfl
    · simp only [hk]
      exact ih t List.mem_cons_self ht
    · simp only [hk]
      rfl
    · simp only [hk, resultType]
      split <;> rfl

/-- The bodies of a class are intact after edits that spare what was called and read. -/
theorem everyBody_intact_of_edited {D : String → Domain κ} {c c' : Ast} (hedit : EditedClass D c c')
    (h : c.everyBody (fun name => spares (D name)) = true) :
    c'.everyBody (fun _ => isIntact) = true := by
  rw [Tree.everyBody_eq_true] at h ⊢
  intro m' hm' name hname t' ht'
  obtain ⟨m, hm, hmember⟩ := forall₂_mem_right hedit.members hm'
  rw [hmember.methodName?] at hname
  obtain ⟨t, ht, hbody⟩ := forall₂_mem_right (hmember.children hname).2 ht'
  exact intact_of_edited hbody (h m hm name hname t ht)

end

/-! ## Accepted trees -/

section

variable {Γ : Context}

/-- What an accepted expression calls or reads is no integer and no truth value, if methods are
called on objects. -/
theorem spares_of_infer {t : Ast} {type : Ty} (h : (infer Γ t).Gives (some type))
    (hemits : emits Γ.table Γ.methodName t = true) :
    spares (.types Γ.table Γ.methodName) t = true := by
  obtain ⟨n, ts⟩ := t
  obtain ⟨_, -, htyped⟩ := infer_cases h
  rw [Tree.label, Tree.children] at htyped
  rw [spares, Option.all_eq_true]
  intro u hu
  rw [Option.isNone_iff_eq_none]
  by_contra hsome
  obtain ⟨τ, hτ⟩ := Option.ne_none_iff_exists'.mp hsome
  cases htyped with
  | arrayAccess hk ha _ hbase _ =>
    simp only [Kind.subject?, hk, List.head?_cons, Option.some.injEq] at hu
    subst hu
    rw [Ty.isIntArray, isArray_of_eval? ha hτ] at hbase
    cases hbase
  | invocation hk _ _ _ =>
    simp only [Kind.subject?, hk, List.head?_cons, Option.some.injEq] at hu
    subst hu
    simp [emits, callsObject, hk, isObject_of_eval? hτ none] at hemits
  | integer hk | boolean hk | string hk | this hk | className hk | newObject hk | «variable» hk
  | classRef hk | parenthesis hk | binary hk | negation hk | arrayLength hk | newArray hk =>
    simp [Kind.subject?, hk] at hu

theorem spares_of_check {t : Ast} (h : (checkStatement Γ t).Gives ())
    (hemits : emits Γ.table Γ.methodName t = true) :
    spares (.types Γ.table Γ.methodName) t = true := by
  obtain ⟨n, ts⟩ := t
  cases checkStatement_cases h with
  | effect _ he => exact spares_of_infer he hemits
  | declaration hk _ =>
    cases hkind : n.kind <;> simp only [hkind, Kind.writtenType?, reduceCtorEq] at hk
    all_goals simp [spares, Kind.subject?, hkind]
  | sequence hk _ => rcases hk with hk | hk | hk <;> simp [spares, Kind.subject?, hk]
  | conditional hk | loop hk | condition hk | expression hk | assignment hk | element hk
  | returnOutside hk | returnNone hk | returnSome hk =>
    simp [spares, Kind.subject?, hk]

/-- **An accepted class that can be emitted calls methods on and reads like arrays nothing that is
an integer or a truth value.** -/
theorem spares_of_accepted {T : ClassTable} {t c : Ast} (htable : (ClassTable.ofTree t).Gives T)
    (hcheck : (checkClass T t).Gives ()) (hc : t.classTree = .ok c)
    (hemits : c.everyBody (emits T) = true) :
    c.everyBody (fun name => spares (.types T name)) = true := by
  have hnodes : c.everyBody (fun name u => !emits T name u || spares (.types T name) u) = true := by
    refine everyBody_of_accepted htable hcheck hc ?_ ?_
    · intro name info _ u type hu
      cases hnode : emits T name u with
      | false => rfl
      | true => exact spares_of_infer (Γ := contextOf T name info) hu hnode
    · intro name info _ u hu
      cases hnode : emits T name u with
      | false => rfl
      | true => exact spares_of_check (Γ := contextOf T name info) hu hnode
  rw [Tree.everyBody_eq_true] at hemits hnodes ⊢
  intro m hm name hname t ht
  refine Tree.everywhere_imp (fun u hu hnode => ?_) (hemits m hm name hname t ht)
    (hnodes m hm name hname t ht)
  simpa [hu] using hnode

end

end Machine
end ClassCompiler
