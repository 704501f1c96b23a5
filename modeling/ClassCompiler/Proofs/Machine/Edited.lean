import ClassCompiler.Proofs.Constant.Walkable
import ClassCompiler.Proofs.Machine.Emittable
import ClassCompiler.Proofs.Machine.Intact

/-!
# Emitting a class after edits

A literal in the place of an expression makes code shorter: what computed the expression is gone,
and with it the temporaries.  There are two places where a literal does not do.  A method cannot be
called on it, and it cannot be read like an array.  If no literal has got there, then what could be
emitted before the edits can be emitted after them.

Code before and after the edits is compared piece by piece.  Every instruction that is left has a
counterpart that asks for the same or for more (`Improves`), and a value that is left is a literal,
or has the type that it had (`Follows`).

* `isIntact`: no literal is where it does not do.
* `lowerExpr_edited`, `lowerStatement_edited`: code before and after edits.
* `classText_edited`: classes before and after edits.
-/

namespace ClassCompiler
namespace Machine

open ThreeAddress
open Constant (Domain Edited EditedMember EditedClass ofKind?)
open List (Forall₂)
open Meaning (except_bind_eq_ok)

/-! ## Code before and after edits -/

section

variable {T : ClassTable} {isStatic : Bool} {N : List String}

/-- Code that can be selected if other code can, and assigns no more temporaries. -/
structure Improves (T : ClassTable) (isStatic : Bool) (N : List String)
    (code code' : List Instr) : Prop where
  selects : code.all (selectable T isStatic) = true → code'.all (selectable T isStatic) = true
  temps : (tempsOf N code').length ≤ (tempsOf N code).length

namespace Improves

variable {code code' first first' : List Instr}

theorem refl (code : List Instr) : Improves T isStatic N code code :=
  ⟨id, Nat.le_refl _⟩

/-- Code that asks for nothing and assigns nothing. -/
theorem plain (hselect : code'.all (selectable T isStatic) = true) (hdests : destsOf code' = []) :
    Improves T isStatic N code code' := by
  refine ⟨fun _ => hselect, ?_⟩
  rw [tempsOf, hdests]
  exact Nat.zero_le _

theorem append (h : Improves T isStatic N first first') (h' : Improves T isStatic N code code') :
    Improves T isStatic N (first ++ code) (first' ++ code') := by
  constructor
  · intro hall
    rw [List.all_append, Bool.and_eq_true] at hall ⊢
    exact ⟨h.selects hall.1, h'.selects hall.2⟩
  · have hfirst := h.temps
    have hsecond := h'.temps
    rw [tempsOf_append, tempsOf_append, List.length_append, List.length_append]
    omega

/-- One instruction for another, which assigns the same or nothing. -/
theorem instr {i i' : Instr}
    (hselect : selectable T isStatic i = true → selectable T isStatic i' = true)
    (hdefs : i'.defs = i.defs) : Improves T isStatic N [i] [i'] := by
  constructor
  · intro hall
    simp only [List.all_cons, List.all_nil, Bool.and_true] at hall ⊢
    exact hselect hall
  · simp [tempsOf, hdefs]

theorem cons {i i' : Instr}
    (hselect : selectable T isStatic i = true → selectable T isStatic i' = true)
    (hdefs : i'.defs = i.defs) (h : Improves T isStatic N code code') :
    Improves T isStatic N (i :: code) (i' :: code') :=
  (instr hselect hdefs).append h

/-- Code ends in an assignment to a temporary, and so may other code. -/
theorem lowered {f f' : Fresh} {type : ValueType} {rhs rhs' : Rhs}
    (h : Improves T isStatic N code code') (hnew : (f.temp type).1.name ∉ N)
    (hrhs : selectableRhs T isStatic rhs = true → selectableRhs T isStatic rhs' = true) :
    Improves T isStatic N (f.lowered code type rhs).code (f'.lowered code' type rhs').code := by
  have hown : tempsOf N [.assign (f.temp type).1 rhs] = [(f.temp type).1.name] := by
    simp [tempsOf, Instr.defs, hnew]
  have hother : (tempsOf N [.assign (f'.temp type).1 rhs']).length ≤ 1 := by
    unfold tempsOf
    exact List.length_filter_le _ _
  refine h.append ⟨?_, ?_⟩
  · intro hall
    simp only [List.all_cons, List.all_nil, Bool.and_true] at hall ⊢
    exact hrhs hall
  · rw [hown]
    exact hother

end Improves

/-- A value before and after edits: a literal for anything, the same operand, or code that computes
a value of the same type.  It is said beside whether the value is a literal afterwards. -/
inductive Follows (T : ClassTable) (isStatic : Bool) (N : List String) :
    Bool → ThreeAddress.Lowered → ThreeAddress.Lowered → Prop
  | literal {v : ThreeAddress.Lowered} {o : Operand} (ho : isScalar o = true) :
    Follows T isStatic N true v (.ofOperand o)
  | operand (o : Operand) : Follows T isStatic N false (.ofOperand o) (.ofOperand o)
  | temp {f f' : Fresh} {code code' : List Instr} {type : ValueType} {rhs rhs' : Rhs}
    (h : Improves T isStatic N code code') (hnew : (f.temp type).1.name ∉ N)
    (hrhs : selectableRhs T isStatic rhs = true → selectableRhs T isStatic rhs' = true) :
    Follows T isStatic N false (f.lowered code type rhs) (f'.lowered code' type rhs')

namespace Follows

variable {b : Bool} {v v' : ThreeAddress.Lowered}

theorem code (h : Follows T isStatic N b v v') : Improves T isStatic N v.code v'.code := by
  cases h with
  | literal _ => exact .plain rfl rfl
  | operand o => exact .refl _
  | temp h hnew hrhs => exact h.lowered hnew hrhs

theorem pushed (h : Follows T isStatic N b v v') (hv : isPushed isStatic v.value = true) :
    isPushed isStatic v'.value = true := by
  cases h with
  | @literal _ o ho =>
    cases o with
    | int _ | bool _ => rfl
    | _ => cases ho
  | operand o => exact hv
  | temp => rfl

theorem described (h : Follows T isStatic N b v v') (hv : describes T v.value.type = true) :
    describes T v'.value.type = true := by
  cases h with
  | @literal _ o ho =>
    cases o with
    | int _ | bool _ => rfl
    | _ => cases ho
  | operand o => exact hv
  | temp => exact hv

/-- What is no literal has the type that it had. -/
theorem type_eq (h : Follows T isStatic N false v v') : v'.value.type = v.value.type := by
  cases h with
  | operand o => rfl
  | temp => rfl

/-- What is no literal is a variable if it was one. -/
theorem var (h : Follows T isStatic N false v v') {x : Var} (hv : v.value = .var x) :
    ∃ x', v'.value = .var x' := by
  cases h with
  | operand o => exact ⟨x, hv⟩
  | temp => exact ⟨_, rfl⟩

/-- A method can be called on what is no literal if it could be called before. -/
theorem selectableTarget (h : Follows T isStatic N false v v') {c c' : Call}
    (hkind : c.kind = callKind v.value) (htarget : c.target = v.value)
    (hkind' : c'.kind = callKind v'.value) (htarget' : c'.target = v'.value)
    (hc : Machine.selectableTarget T isStatic c = true) :
    Machine.selectableTarget T isStatic c' = true := by
  unfold Machine.selectableTarget at hc ⊢
  rw [hkind, htarget] at hc
  rw [hkind', htarget']
  cases h with
  | operand o => exact hc
  | temp => exact hc

theorem storeIn (h : Follows T isStatic N b v v') {dest : Var} (hdest : dest.name ∈ N) :
    Improves T isStatic N (v.storeIn dest) (v'.storeIn dest) := by
  cases h with
  | @literal _ o ho =>
    rw [ThreeAddress.Lowered.storeIn_ofOperand]
    constructor
    · intro _
      cases o with
      | int _ | bool _ => rfl
      | _ => cases ho
    · simp [tempsOf, Instr.defs, hdest]
  | operand o => exact .refl _
  | temp h hnew hrhs =>
    rw [Fresh.storeIn_lowered, Fresh.storeIn_lowered]
    split
    · exact h.append (.instr hrhs rfl)
    · exact (h.lowered hnew hrhs).append (.instr (fun _ => rfl) rfl)

end Follows

end

/-! ## Expressions -/

section

variable {κ : Type} {D : Domain κ} {Γ : Site}

/-- A new temporary has no name of the method. -/
theorem temp_not_mem {f : Fresh} (hf : Γ.Reserved f) (type : ValueType) :
    (f.temp type).1.name ∉ Γ.frameNames :=
  fun hmem => hf.not_gives _ hmem (f.temp_gives type)

/-- The callee of a call depends on the type of its target only. -/
theorem callee?_congr {o o' : Operand} (htype : o'.type = o.type) (method : String) :
    Γ.callee? o' method = Γ.callee? o method := by
  have hown : Γ.isOwn o' = Γ.isOwn o :=
    Bool.eq_iff_iff.mpr (by rw [Site.isOwn_eq_true, Site.isOwn_eq_true, htype])
  unfold Site.callee?
  rw [hown]

/-- One tree can be lowered in the place of another, and its value follows. -/
def Replaces (Γ : Site) (t t' : Ast) : Prop :=
  ∀ ⦃expected f v f'⦄, Γ.Reserved f → (lowerExpr Γ expected t).run f = .ok (v, f') →
    Succeeds (lowerExpr Γ expected t')
      (Follows Γ.table Γ.info.isStatic Γ.frameNames (isConstant t') v)

theorem lowerExpr_literal {n : Numbered} {c : Constant} (hk : ofKind? n.kind = some c)
    (expected : Option ValueType) (ts : List Ast) (v : ThreeAddress.Lowered) :
    Succeeds (lowerExpr Γ expected (.node n ts))
      (Follows Γ.table Γ.info.isStatic Γ.frameNames true v) := by
  rw [lowerExpr.eq_def]
  cases hkind : n.kind <;> rw [hkind] at hk <;> simp only [ofKind?, reduceCtorEq] at hk
  case integer value =>
    simp only [hkind]
    exact .pure (.literal (o := .int value) rfl)
  case boolean value =>
    simp only [hkind]
    exact .pure (.literal (o := .bool value) rfl)

/-- Code that ends in an assignment to a temporary follows other code that does. -/
theorem assignTemp_follows {f : Fresh} (hf : Γ.Reserved f) {code code' : List Instr}
    {type : ValueType} {rhs rhs' : Rhs}
    (h : Improves Γ.table Γ.info.isStatic Γ.frameNames code code')
    (hrhs : selectableRhs Γ.table Γ.info.isStatic rhs = true →
      selectableRhs Γ.table Γ.info.isStatic rhs' = true) :
    Succeeds (assignTemp code' type rhs')
      (Follows Γ.table Γ.info.isStatic Γ.frameNames false (f.lowered code type rhs)) :=
  fun _ => ⟨_, _, rfl, .temp h (temp_not_mem hf type) hrhs⟩

theorem lowerClassName_follows {n : Numbered} {name : String} {f f' : Fresh}
    {v : ThreeAddress.Lowered} (h : (lowerClassName Γ n name).run f = .ok (v, f')) :
    Succeeds (lowerClassName Γ n name)
      (Follows Γ.table Γ.info.isStatic Γ.frameNames false v) := by
  obtain ⟨hclass, rfl, -⟩ := lowerClassName_eq_ok h
  unfold lowerClassName
  rw [if_pos hclass]
  exact .pure (.operand _)

/-- What a name is lowered to does not depend on the names handed out before. -/
theorem lowerIdentifier_follows {n : Numbered} {name : String} {f f' : Fresh}
    (hf : Γ.Reserved f) {v : ThreeAddress.Lowered}
    (h : (lowerIdentifier Γ n name).run f = .ok (v, f')) :
    Succeeds (lowerIdentifier Γ n name)
      (Follows Γ.table Γ.info.isStatic Γ.frameNames false v) := by
  unfold lowerIdentifier at h ⊢
  cases hres : Γ.table.resolve? Γ.info.name name with
  | none =>
    simp only [hres] at h
    exact lowerClassName_follows h
  | some r =>
    obtain ⟨scope, symbol⟩ := r
    simp only [hres] at h ⊢
    obtain ⟨type, f₁, hlift, hread⟩ := Lowering.bind_eq_ok.mp h
    obtain ⟨htype, rfl⟩ := Lowering.liftExcept_eq_ok.mp hlift
    refine .bind (.lift htype) fun _ heq => ?_
    rw [heq]
    cases scope with
    | field =>
      by_cases hstatic : Γ.info.isStatic = true
      · simp only [if_pos hstatic] at hread ⊢
        exact lowerClassName_follows hread
      · simp only [if_neg hstatic] at hread ⊢
        obtain ⟨rfl, -⟩ := assignTemp_eq_ok.mp hread
        exact assignTemp_follows hf (.refl []) id
    | «local» | parameter =>
      obtain ⟨rfl, -⟩ := Lowering.pure_eq_ok.mp hread
      exact .pure (.operand _)

/-- Trees that were edited one by one. -/
theorem forall₂_of_edited {R : Ast → Ast → Prop} {ts ts' : List Ast}
    (h : ∀ t ∈ ts, ∀ t', Edited D t t' → t'.everywhere isIntact = true → R t t')
    (hts : Forall₂ (Edited D) ts ts') (hintact : ∀ t' ∈ ts', t'.everywhere isIntact = true) :
    Forall₂ R ts ts' := by
  induction hts with
  | nil => exact .nil
  | cons ht _ ih =>
    refine .cons (h _ List.mem_cons_self _ ht (hintact _ List.mem_cons_self)) (ih ?_ ?_)
    · exact fun t ht => h t (List.mem_cons_of_mem _ ht)
    · exact fun t' ht' => hintact t' (List.mem_cons_of_mem _ ht')

/-- Arguments before and after edits. -/
structure FollowsArgs (T : ClassTable) (isStatic : Bool) (N : List String)
    (args args' : LoweredArgs) : Prop where
  code : Improves T isStatic N args.code args'.code
  length : args'.params.length = args'.args.length
  pushed : args.args.all (isPushed isStatic) = true → args'.args.all (isPushed isStatic) = true
  described : args.params.all (describes T) = true → args'.params.all (describes T) = true

theorem lowerArgs_edited (hΓ : Γ.IsListed) {ts ts' : List Ast}
    (h : Forall₂ (Replaces Γ) ts ts') {declared : List Symbol} {f f' : Fresh}
    (hf : Γ.Reserved f) {args : LoweredArgs}
    (hargs : (lowerArgs Γ declared ts).run f = .ok (args, f')) :
    Succeeds (lowerArgs Γ declared ts')
      (FollowsArgs Γ.table Γ.info.isStatic Γ.frameNames args) := by
  induction h generalizing declared f args with
  | nil =>
    obtain ⟨rfl, rfl⟩ := lowerArgs_nil_eq_ok hargs
    rw [lowerArgs]
    exact .pure ⟨.refl _, rfl, id, id⟩
  | @cons t t' ts ts' ht _ ih =>
    obtain ⟨param, arg, f₁, rest, hparam, harg, hrest, rfl⟩ := lowerArgs_cons_eq_ok hargs
    have hf₁ := hf.mono (lowerExpr_named hΓ hf harg).closed.before
    rw [lowerArgs]
    refine .bind (.lift hparam) fun _ heq => ?_
    rw [heq]
    refine .bind (ht hf harg) fun arg' harg' => ?_
    refine .bind (ih hf₁ hrest) fun rest' hrest' => .pure ⟨?_, ?_, ?_, ?_⟩
    · exact harg'.code.append hrest'.code
    · exact congrArg Nat.succ hrest'.length
    · intro hall
      rw [List.all_cons, Bool.and_eq_true] at hall ⊢
      exact ⟨harg'.pushed hall.1, hrest'.pushed hall.2⟩
    · intro hall
      rw [List.all_cons, Bool.and_eq_true] at hall ⊢
      refine ⟨?_, hrest'.described hall.2⟩
      cases param with
      | none => exact harg'.described hall.1
      | some type => exact hall.1

/-- A call whose target is no literal can be selected after edits if it could be before. -/
theorem lowerCall_edited (hΓ : Γ.IsListed) {ts ts' : List Ast}
    (h : Forall₂ (Replaces Γ) ts ts') (hhead : (ts'.head?.all fun t => !isConstant t) = true)
    {n : Numbered} {method : String} {expected : Option ValueType} {f f' : Fresh}
    (hf : Γ.Reserved f) {code : List Instr} {call : Call}
    (hcall : (lowerCall Γ n method expected ts).run f = .ok ((code, call), f')) :
    Succeeds (lowerCall Γ n method expected ts') fun r =>
      Improves Γ.table Γ.info.isStatic Γ.frameNames code r.1 ∧ r.2.result = call.result ∧
        (selectableCall Γ.table Γ.info.isStatic call = true →
          selectableCall Γ.table Γ.info.isStatic r.2 = true) := by
  obtain ⟨t, rest, target, f₁, args, result, rfl, ht, hargs, hresult, rfl, rfl⟩ :=
    lowerCall_eq_ok hcall
  cases h with
  | @cons _ t' _ rest' htarget hrest =>
    have hf₁ := hf.mono (lowerExpr_named hΓ hf ht).closed.before
    have hconstant : isConstant t' = false := by simpa using hhead
    have htarget := htarget hf ht
    rw [hconstant] at htarget
    rw [lowerCall]
    refine .bind htarget fun target' htarget' => ?_
    rw [callee?_congr htarget'.type_eq]
    refine .bind (lowerArgs_edited hΓ hrest hf₁ hargs) fun args' hargs' => ?_
    refine .bind (.lift hresult) fun _ heq => ?_
    subst heq
    refine .pure ⟨htarget'.code.append hargs'.code, rfl, fun hselect => ?_⟩
    unfold selectableCall at hselect ⊢
    simp only [Bool.and_eq_true, beq_iff_eq] at hselect ⊢
    obtain ⟨⟨⟨⟨htarget, -⟩, hpushed⟩, hparams⟩, hresult⟩ := hselect
    refine ⟨⟨⟨⟨?_, hargs'.length⟩, hargs'.pushed hpushed⟩, hargs'.described hparams⟩, hresult⟩
    exact htarget'.selectableTarget rfl rfl rfl rfl htarget

/-- **Expressions before and after edits.** -/
theorem lowerExpr_edited (hΓ : Γ.IsListed) {t t' : Ast} (hedit : Edited D t t')
    (hintact : t'.everywhere isIntact = true) : Replaces Γ t t' := by
  induction t using Tree.induction generalizing t' with
  | node n ts ih =>
    intro expected f v f' hf hlower
    cases hedit with
    | literal _ hk =>
      rw [isConstant_of_ofKind? hk]
      exact lowerExpr_literal hk expected [] v
    | @node _ _ ts' hts =>
      obtain ⟨hroot, hbelow⟩ := Tree.everywhere_node.mp hintact
      cases lowerExpr_cases hlower with
      | @integer value _ hk =>
        have hc : ofKind? n.kind = some (.int value) := by rw [hk]; rfl
        rw [isConstant_of_ofKind? hc]
        exact lowerExpr_literal hc expected ts' _
      | @boolean value _ hk =>
        have hc : ofKind? n.kind = some (.bool value) := by rw [hk]; rfl
        rw [isConstant_of_ofKind? hc]
        exact lowerExpr_literal hc expected ts' _
      | string hk | this hk | className hk =>
        rw [lowerExpr.eq_def, isConstant.eq_def]
        simp only [hk]
        exact .pure (.operand _)
      | «variable» hk _ _ _ | classRef hk _ _ | field hk _ _ _ =>
        rw [lowerExpr.eq_def] at hlower
        rw [lowerExpr.eq_def, isConstant.eq_def]
        simp only [hk] at hlower ⊢
        exact lowerIdentifier_follows hf hlower
      | newObject hk =>
        rw [lowerExpr.eq_def, isConstant.eq_def]
        simp only [hk]
        exact assignTemp_follows hf (.refl _) id
      | parenthesis hk h =>
        cases hts with
        | cons ht _ =>
          rw [lowerExpr.eq_def, isConstant.eq_def]
          simp only [hk, Kind.used] at hbelow ⊢
          exact ih _ List.mem_cons_self ht (hbelow _ (by simp)) hf h
      | binary hk hl hr =>
        cases hts with
        | cons hedit hts =>
          cases hts with
          | cons hedit' _ =>
            rw [lowerExpr.eq_def, isConstant.eq_def]
            simp only [hk, Kind.used] at hbelow ⊢
            have hf₁ := hf.mono (lowerExpr_named hΓ hf hl).closed.before
            have hf₂ := hf₁.mono (lowerExpr_named hΓ hf₁ hr).closed.before
            refine .bind (ih _ List.mem_cons_self hedit (hbelow _ (by simp)) hf hl)
              fun left hleft => ?_
            refine .bind (ih _ (by simp) hedit' (hbelow _ (by simp)) hf₁ hr) fun right hright => ?_
            refine assignTemp_follows hf₂ (hleft.code.append hright.code) fun hselect => ?_
            have hboth := Bool.and_eq_true_iff.mp hselect
            exact Bool.and_eq_true_iff.mpr ⟨hleft.pushed hboth.1, hright.pushed hboth.2⟩
      | negation hk h | arrayLength hk h | newArray hk h =>
        cases hts with
        | cons hedit _ =>
          rw [lowerExpr.eq_def, isConstant.eq_def]
          simp only [hk, Kind.used] at hbelow ⊢
          have hf₁ := hf.mono (lowerExpr_named hΓ hf h).closed.before
          refine .bind (ih _ List.mem_cons_self hedit (hbelow _ (by simp)) hf h)
            fun inner hinner => ?_
          exact assignTemp_follows hf₁ hinner.code hinner.pushed
      | arrayAccess hk ha hi harray =>
        cases hts with
        | cons hedit hts =>
          cases hts with
          | cons hedit' _ =>
            rw [lowerExpr.eq_def, isConstant.eq_def]
            simp only [isIntact, Kind.subject?, hk, Kind.used] at hroot hbelow ⊢
            have hf₁ := hf.mono (lowerExpr_named hΓ hf ha).closed.before
            have hf₂ := hf₁.mono (lowerExpr_named hΓ hf₁ hi).closed.before
            refine .bind (ih _ List.mem_cons_self hedit (hbelow _ (by simp)) hf ha)
              fun base hbase => ?_
            refine .bind (ih _ (by simp) hedit' (hbelow _ (by simp)) hf₁ hi) fun index hindex => ?_
            -- The base is no literal, so it is in a variable as before.
            rw [show isConstant _ = false by simpa using hroot] at hbase
            obtain ⟨x, hx⟩ := hbase.var harray
            rw [hx]
            exact assignTemp_follows hf₂ (hbase.code.append hindex.code) hindex.pushed
      | invocation hk h =>
        rw [lowerExpr.eq_def, isConstant.eq_def]
        simp only [isIntact, Kind.subject?, hk, Kind.used] at hroot hbelow ⊢
        have hf₁ := hf.mono (lowerCall_closed_of
          (fun _ _ _ _ _ _ hf h => lowerExpr_named hΓ hf h) hf h).1.before
        have hreplaces : Forall₂ (Replaces Γ) ts ts' :=
          forall₂_of_edited (fun t ht _ => ih t ht) hts hbelow
        refine .bind (lowerCall_edited hΓ hreplaces hroot hf h) ?_
        rintro ⟨code', call'⟩ ⟨hcode, hresult, hselect⟩
        dsimp only at hresult ⊢
        rw [hresult]
        exact assignTemp_follows hf₁ hcode hselect

/-! ## Statements -/

theorem lowerCondition_edited (hΓ : Γ.IsListed) {t t' : Ast} (hedit : Edited D t t')
    (hintact : t'.everywhere isIntact = true) {f f' : Fresh} (hf : Γ.Reserved f)
    {v : ThreeAddress.Lowered} (h : (lowerCondition Γ t).run f = .ok (v, f')) :
    Succeeds (lowerCondition Γ t') fun v' =>
      ∃ b, Follows Γ.table Γ.info.isStatic Γ.frameNames b v v' := by
  -- Where there is no condition, there is an expression in its place.
  have hexpr {n : Numbered} (hk : n.kind ≠ .condition) (ts : List Ast) :
      lowerCondition Γ (.node n ts) = lowerExpr Γ (some .bool) (.node n ts) := by
    rw [lowerCondition.eq_def]
    dsimp only
    split
    · exact absurd ‹n.kind = .condition› hk
    · rfl
  cases hedit with
  | @literal _ n c _ hk =>
    have hkind : n.kind ≠ .condition := by
      intro hkind
      rw [hkind] at hk
      cases hk
    rw [hexpr hkind]
    exact (lowerExpr_literal hk _ [] v).mono fun _ hv => ⟨_, hv⟩
  | @node n ts ts' hts =>
    rcases lowerCondition_eq_ok h with ⟨t, rest, hk, rfl, hguard⟩ | ⟨hk, hguard⟩
    · cases hts with
      | cons ht _ =>
        obtain ⟨-, hbelow⟩ := Tree.everywhere_node.mp hintact
        rw [lowerCondition.eq_def]
        simp only [hk, Kind.used] at hbelow ⊢
        exact (lowerExpr_edited hΓ ht (hbelow _ (by simp)) hf hguard).mono fun _ hv => ⟨_, hv⟩
    · rw [hexpr hk]
      exact (lowerExpr_edited hΓ (.node n hts) hintact hf hguard).mono fun _ hv => ⟨_, hv⟩

/-- A literal that is run for its effect does nothing. -/
theorem lowerEffect_literal {n : Numbered} {c : Constant} (hk : ofKind? n.kind = some c)
    (ts : List Ast) (code : List Instr) :
    Succeeds (lowerEffect Γ (.node n ts))
      (Improves Γ.table Γ.info.isStatic Γ.frameNames code) := by
  have hvalue := lowerExpr_literal (Γ := Γ) hk none ts ⟨code, .int 0⟩
  rw [lowerEffect.eq_def]
  cases hkind : n.kind <;> rw [hkind] at hk <;> simp only [ofKind?, reduceCtorEq] at hk
  all_goals
    simp only [hkind]
    refine .bind hvalue fun v hv => .pure ?_
    cases hv with
    | literal _ => exact .plain rfl rfl

theorem lowerEffect_edited (hΓ : Γ.IsListed) {t t' : Ast} (hedit : Edited D t t')
    (hintact : t'.everywhere isIntact = true) {f f' : Fresh} (hf : Γ.Reserved f)
    {code : List Instr} (hlower : (lowerEffect Γ t).run f = .ok (code, f')) :
    Succeeds (lowerEffect Γ t') (Improves Γ.table Γ.info.isStatic Γ.frameNames code) := by
  induction t using Tree.induction generalizing t' code with
  | node n ts ih =>
    cases hedit with
    | literal _ hk => exact lowerEffect_literal hk [] code
    | @node _ _ ts' hts =>
      obtain ⟨hroot, hbelow⟩ := Tree.everywhere_node.mp hintact
      cases lowerEffect_cases hlower with
      | parenthesis hk h =>
        cases hts with
        | cons ht _ =>
          rw [lowerEffect.eq_def]
          simp only [hk, Kind.used] at hbelow ⊢
          exact ih _ List.mem_cons_self ht (hbelow _ (by simp)) h
      | invocation hk h =>
        rw [lowerEffect.eq_def]
        simp only [isIntact, Kind.subject?, hk, Kind.used] at hroot hbelow ⊢
        have hreplaces : Forall₂ (Replaces Γ) ts ts' :=
          forall₂_of_edited (fun _ _ _ => lowerExpr_edited hΓ) hts hbelow
        refine .bind (lowerCall_edited hΓ hreplaces hroot hf h) ?_
        rintro ⟨code', call'⟩ ⟨hcode, -, hselect⟩
        exact .pure (hcode.append (.instr hselect rfl))
      | value hk hk' h =>
        have hvalue := lowerExpr_edited hΓ (.node n hts) hintact hf h
        rw [lowerEffect.eq_def]
        cases hkind : n.kind <;> simp only [hkind]
        case parenthesis => exact absurd hkind hk
        case invocation method => exact absurd hkind (hk' method)
        all_goals exact .bind hvalue fun v' hv' => .pure (hv'.code.append (.instr id rfl))

/-- The array that an element is assigned to is the same. -/
theorem lowerArray_follows {scope : Scope} {place array : Var} {f f' : Fresh} (hf : Γ.Reserved f)
    {code : List Instr} (h : (lowerArray Γ scope place).run f = .ok ((code, array), f')) :
    Succeeds (lowerArray Γ scope place) fun r =>
      Improves Γ.table Γ.info.isStatic Γ.frameNames code r.1 := by
  cases scope with
  | field =>
    obtain ⟨temp, f₁, htemp, hread⟩ := Lowering.bind_eq_ok.mp h
    obtain ⟨rfl, rfl⟩ := Lowering.newTemp_eq_ok.mp htemp
    obtain ⟨heq, -⟩ := Lowering.pure_eq_ok.mp hread
    obtain ⟨rfl, -⟩ := Prod.mk.inj heq
    have hnil : Improves Γ.table Γ.info.isStatic Γ.frameNames [] [] := .refl []
    intro f₂
    refine ⟨_, _, rfl, ?_⟩
    exact hnil.lowered (temp_not_mem hf place.type) id
  | «local» | parameter => exact .pure (.plain rfl rfl)

section

variable {T : ClassTable} {isStatic : Bool} {N : List String}

/-- Conditionals whose parts follow one another, whatever their labels are. -/
theorem conditionalCode_improves (k j : Nat) {b : Bool} {cond cond' : ThreeAddress.Lowered}
    {thenCode thenCode' elseCode elseCode' : List Instr}
    (hcond : Follows T isStatic N b cond cond') (hthen : Improves T isStatic N thenCode thenCode')
    (helse : Improves T isStatic N elseCode elseCode') :
    Improves T isStatic N (conditionalCode k cond thenCode elseCode)
      (conditionalCode j cond' thenCode' elseCode') := by
  unfold conditionalCode
  have hbranch : Improves T isStatic N [.branch cond.value true s!"Else_{k}"]
      [.branch cond'.value true s!"Else_{j}"] :=
    .instr hcond.pushed rfl
  have hstart := (hcond.code.append hbranch).append hthen
  exact ((hstart.append (.plain rfl rfl)).append helse).append (.plain rfl rfl)

/-- Loops whose parts follow one another, whatever their labels are. -/
theorem loopCode_improves (k j : Nat) {b b' : Bool}
    {first first' again again' : ThreeAddress.Lowered} {body body' : List Instr}
    (hfirst : Follows T isStatic N b first first')
    (hbody : Improves T isStatic N body body') (hagain : Follows T isStatic N b' again again') :
    Improves T isStatic N (loopCode k first body again) (loopCode j first' body' again') := by
  unfold loopCode
  have hguard : Improves T isStatic N
      [.branch first.value true s!"EndLoop_{k}", .label s!"Loop_{k}"]
      [.branch first'.value true s!"EndLoop_{j}", .label s!"Loop_{j}"] :=
    .cons hfirst.pushed rfl (.plain rfl rfl)
  have hback : Improves T isStatic N
      [.branch again.value false s!"Loop_{k}", .label s!"EndLoop_{k}"]
      [.branch again'.value false s!"Loop_{j}", .label s!"EndLoop_{j}"] :=
    .cons hagain.pushed rfl (.plain rfl rfl)
  exact (((hfirst.code.append hguard).append hbody).append hagain.code).append hback

end

/-- One statement can be lowered in the place of another, and its code improves. -/
def ReplacesStatement (Γ : Site) (t t' : Ast) : Prop :=
  ∀ ⦃f code f'⦄, Γ.Reserved f → (lowerStatement Γ t).run f = .ok (code, f') →
    Succeeds (lowerStatement Γ t') (Improves Γ.table Γ.info.isStatic Γ.frameNames code)

theorem lowerStatements_edited (hΓ : Γ.IsListed) {ts ts' : List Ast}
    (h : Forall₂ (ReplacesStatement Γ) ts ts') {f f' : Fresh} (hf : Γ.Reserved f)
    {code : List Instr} (hlower : (lowerStatements Γ ts).run f = .ok (code, f')) :
    Succeeds (lowerStatements Γ ts') (Improves Γ.table Γ.info.isStatic Γ.frameNames code) := by
  induction h generalizing f code with
  | nil =>
    obtain ⟨rfl, -⟩ := lowerStatements_nil_eq_ok hlower
    rw [lowerStatements]
    exact .pure (.refl [])
  | @cons t t' ts ts' ht _ ih =>
    obtain ⟨first, f₁, rest, hfirst, hrest, rfl⟩ := lowerStatements_cons_eq_ok hlower
    have hf₁ := hf.mono (lowerStatement_closed hΓ hf hfirst).before
    rw [lowerStatements]
    refine .bind (ht hf hfirst) fun first' hfirst' => ?_
    exact .bind (ih hf₁ hrest) fun rest' hrest' => .pure (hfirst'.append hrest')

/-- **Statements before and after edits.** -/
theorem lowerStatement_edited (hΓ : Γ.IsListed) {t t' : Ast} (hedit : Edited D t t')
    (hintact : t'.everywhere isIntact = true) : ReplacesStatement Γ t t' := by
  induction t using Tree.induction generalizing t' with
  | node n ts ih =>
    intro f code f' hf hlower
    cases hedit with
    | @literal _ n' c _ hk =>
      have heffect := lowerEffect_literal (Γ := Γ) hk [] code
      rw [lowerStatement.eq_def]
      cases hkind : n'.kind <;> rw [hkind] at hk <;> simp only [ofKind?, reduceCtorEq] at hk
      all_goals
        simp only [hkind]
        exact heffect
    | @node _ _ ts' hts =>
      obtain ⟨hroot, hbelow⟩ := Tree.everywhere_node.mp hintact
      cases lowerStatement_cases hlower with
      | declaration hk =>
        rw [lowerStatement.eq_def]
        cases hkind : n.kind <;> simp only [hkind, Kind.isDeclaration, reduceCtorEq] at hk ⊢
        all_goals exact .pure (.refl [])
      | sequence hk h =>
        rw [lowerStatement.eq_def]
        rcases hk with hk | hk | hk <;> simp only [hk, Kind.used] at hbelow ⊢
        all_goals
          have hreplaces : Forall₂ (ReplacesStatement Γ) ts ts' :=
            forall₂_of_edited (fun t ht _ => ih t ht) hts hbelow
          exact lowerStatements_edited hΓ hreplaces hf h
      | conditional hk hc ht he =>
        cases hts with
        | cons hedit hts =>
          cases hts with
          | cons hedit' hts =>
            rw [lowerStatement.eq_def]
            simp only [hk, Kind.used] at hbelow ⊢
            have hf₀ := hf.mono f.label_before
            have hf₁ := hf₀.mono (lowerCondition_named hΓ hf₀ hc).closed.before
            have hf₂ := hf₁.mono (lowerStatement_closed hΓ hf₁ ht).before
            refine .bind .label fun k _ => ?_
            refine .bind (lowerCondition_edited hΓ hedit (hbelow _ (by simp)) hf₀ hc) ?_
            rintro cond' ⟨b, hcond⟩
            refine .bind (ih _ (by simp) hedit' (hbelow _ (by simp)) hf₁ ht)
              fun thenCode' hthen => ?_
            cases hts with
            | nil =>
              obtain ⟨rfl, -⟩ := Lowering.pure_eq_ok.mp he
              have helse : Improves Γ.table Γ.info.isStatic Γ.frameNames [] [] := .refl []
              exact .bind (.pure helse) fun _ helse =>
                .pure (conditionalCode_improves _ k hcond hthen helse)
            | cons hedit'' _ =>
              exact .bind (ih _ (by simp) hedit'' (hbelow _ (by simp)) hf₂ he)
                fun elseCode' helse => .pure (conditionalCode_improves _ k hcond hthen helse)
      | @loop c body first f₁ bodyCode f₂ again f₃ hk hc hb hc' =>
        cases hts with
        | @cons _ _ _ body' hedit hts =>
          rw [lowerStatement.eq_def]
          simp only [hk, Kind.used] at hbelow ⊢
          have hf₀ := hf.mono f.label_before
          have hf₁ := hf₀.mono (lowerCondition_named hΓ hf₀ hc).closed.before
          have hf₂ := hf₁.mono (lowerStatements_closed hΓ hf₁ hb).before
          have hguard := hbelow _ List.mem_cons_self
          have hreplaces : Forall₂ (ReplacesStatement Γ) body body' :=
            forall₂_of_edited (fun t ht _ => ih t (List.mem_cons_of_mem _ ht)) hts
              fun t' ht' => hbelow t' (List.mem_cons_of_mem _ ht')
          refine .bind .label fun k _ => ?_
          refine .bind (lowerCondition_edited hΓ hedit hguard hf₀ hc) ?_
          rintro first' ⟨b, hfirst⟩
          refine .bind (lowerStatements_edited hΓ hreplaces hf₁ hb) fun bodyCode' hbody => ?_
          refine .bind (lowerCondition_edited hΓ hedit hguard hf₂ hc') ?_
          rintro again' ⟨b', hagain⟩
          exact .pure (loopCode_improves _ k hfirst hbody hagain)
      | expression hk h =>
        cases hts with
        | cons ht _ =>
          rw [lowerStatement.eq_def]
          simp only [hk, Kind.used] at hbelow ⊢
          exact lowerEffect_edited hΓ ht (hbelow _ (by simp)) hf h
      | @«variable» name scope symbol type t rest v f' hk hres hscope htype h =>
        cases hts with
        | cons ht _ =>
          have hdest : name ∈ Γ.frameNames := Γ.mem_frameNames hΓ hres hscope
          rw [lowerStatement.eq_def]
          simp only [hk, Kind.used, lowerAssignment] at hbelow ⊢
          refine .bind (.lift (target_eq_ok_of hres htype)) fun _ heq => ?_
          rw [heq]
          refine .bind (lowerExpr_edited hΓ ht (hbelow _ (by simp)) hf h) fun v' hv' => ?_
          cases scope with
          | field => exact absurd rfl hscope
          | «local» | parameter => exact .pure (hv'.storeIn hdest)
      | field hk hres htype h =>
        cases hts with
        | cons ht _ =>
          rw [lowerStatement.eq_def]
          simp only [hk, Kind.used, lowerAssignment] at hbelow ⊢
          refine .bind (.lift (target_eq_ok_of hres htype)) fun _ heq => ?_
          rw [heq]
          refine .bind (lowerExpr_edited hΓ ht (hbelow _ (by simp)) hf h) fun v' hv' => ?_
          refine .pure (hv'.code.append (.instr (fun hselect => ?_) rfl))
          simp only [selectable, Bool.and_eq_true] at hselect ⊢
          obtain ⟨⟨⟨hthis, hvalue⟩, hmembers⟩, htype⟩ := hselect
          exact ⟨⟨⟨hthis, hv'.pushed hvalue⟩, hmembers⟩, htype⟩
      | element hk hres htype ha hi he =>
        cases hts with
        | cons hedit hts =>
          cases hts with
          | cons hedit' _ =>
            rw [lowerStatement.eq_def]
            simp only [hk, Kind.used, lowerArrayAssignment] at hbelow ⊢
            have hf₁ := hf.mono (lowerArray_before ha).1
            have hf₂ := hf₁.mono (lowerExpr_named hΓ hf₁ hi).closed.before
            refine .bind (.lift (target_eq_ok_of hres htype)) fun _ heq => ?_
            rw [heq]
            refine .bind (lowerArray_follows hf ha) ?_
            rintro ⟨code', array'⟩ hcode
            refine .bind (lowerExpr_edited hΓ hedit (hbelow _ (by simp)) hf₁ hi)
              fun index' hindex => ?_
            refine .bind (lowerExpr_edited hΓ hedit' (hbelow _ (by simp)) hf₂ he)
              fun value' hvalue => .pure ?_
            refine ((hcode.append hindex.code).append hvalue.code).append
              (.instr (fun hselect => ?_) rfl)
            have hboth := Bool.and_eq_true_iff.mp hselect
            exact Bool.and_eq_true_iff.mpr ⟨hindex.pushed hboth.1, hvalue.pushed hboth.2⟩
      | returnNone hk =>
        cases hts
        rw [lowerStatement.eq_def]
        simp only [hk]
        exact .pure (.refl _)
      | returnSome hk htype h =>
        cases hts with
        | cons ht _ =>
          rw [lowerStatement.eq_def]
          simp only [hk, Kind.used, lowerReturn] at hbelow ⊢
          refine .bind (.lift htype) fun _ heq => ?_
          rw [heq]
          refine .bind (lowerExpr_edited hΓ ht (hbelow _ (by simp)) hf h) fun v' hv' => ?_
          exact .pure (hv'.code.append (.instr hv'.pushed rfl))
      | condition hk h =>
        rw [lowerStatement.eq_def]
        simp only [hk]
        refine .bind (lowerCondition_edited hΓ (.node n hts) hintact hf h) ?_
        rintro v' ⟨b, hv'⟩
        exact .pure (hv'.code.append (.instr id rfl))
      | effect hk h =>
        have heffect := lowerEffect_edited hΓ (.node n hts) hintact hf h
        rw [lowerStatement.eq_def]
        cases hkind : n.kind <;> simp only [hkind, Kind.isStatement, reduceCtorEq] at hk ⊢
        all_goals exact heffect

end

/-! ## Methods and classes -/

section

variable {κ : Type} {T : ClassTable}

/-- **Methods before and after edits.** -/
theorem lowerMethod_edited {D : Domain κ} {info : MethodInfo}
    (hinfo : T.method? info.name = some info) {ts ts' : List Ast}
    (hedit : Forall₂ (Edited D) ts ts')
    (hintact : ∀ t' ∈ ts', t'.everywhere isIntact = true) {m : Method}
    (h : lowerMethod T info ts = .ok m) :
    ∃ m', lowerMethod T info ts' = .ok m' ∧
      ∀ budget, IsOk (methodLines T budget m) → IsOk (methodLines T budget m') := by
  obtain ⟨code, f, hcode, hresult, hparams, hlocals, -, hstatic, hclose⟩ := lowerMethod_eq_ok h
  have hlisted : Site.IsListed ⟨T, info⟩ := hinfo
  have hreserved : Site.Reserved ⟨T, info⟩ { reserved := reservedNames T info } := rfl
  have hreplaces : Forall₂ (ReplacesStatement ⟨T, info⟩) ts ts' :=
    forall₂_of_edited (fun _ _ _ => lowerStatement_edited hlisted) hedit hintact
  obtain ⟨code', f', hcode', himproves⟩ :=
    lowerStatements_edited hlisted hreplaces hreserved hcode { reserved := reservedNames T info }
  have hm' : lowerMethod T info ts' = .ok
      { name := info.name, isStatic := info.isStatic, params := m.params, locals := m.locals,
        result := m.result, code := closeBody m.result code' } := by
    refine except_bind_eq_ok.mpr ⟨(code', f'), hcode', ?_⟩
    refine except_bind_eq_ok.mpr ⟨m.result, hresult, ?_⟩
    refine except_bind_eq_ok.mpr ⟨m.params, hparams, ?_⟩
    exact except_bind_eq_ok.mpr ⟨m.locals, hlocals, rfl⟩
  refine ⟨_, hm', fun budget hok => ?_⟩
  rw [methodLines_isOk (lowerMethod_isClosed hinfo h), slotsNeeded_eq hinfo h, hstatic, hclose,
    selectable_closeBody, tempsOf_closeBody] at hok
  rw [methodLines_isOk (lowerMethod_isClosed hinfo hm'), slotsNeeded_eq hinfo hm',
    selectable_closeBody, tempsOf_closeBody]
  obtain ⟨hslots, hsignature, hselect⟩ := hok
  have htemps : (tempsOf (Site.frameNames ⟨T, info⟩) code').length ≤
      (tempsOf (Site.frameNames ⟨T, info⟩) code).length := himproves.temps
  refine ⟨?_, hsignature, himproves.selects hselect⟩
  unfold firstSlot at hslots ⊢
  rw [hstatic] at hslots
  dsimp only
  omega

/-- A method that can be emitted is intact. -/
theorem lowerMethod_intact {info : MethodInfo} (hinfo : T.method? info.name = some info)
    {ts : List Ast} {m : Method} (h : lowerMethod T info ts = .ok m) {budget : Nat}
    (hok : IsOk (methodLines T budget m)) : ∀ t ∈ ts, t.everywhere isIntact = true := by
  obtain ⟨code, f, hcode, -, -, -, -, -, hclose⟩ := lowerMethod_eq_ok h
  rw [methodLines_isOk (lowerMethod_isClosed hinfo h), hclose, selectable_closeBody] at hok
  exact lowerStatements_intact (Γ := ⟨T, info⟩)
    (fun _ _ _ _ _ h hselect => lowerStatement_intact h hselect) hcode hok.2.2

theorem lowerMethods_edited {D : String → Domain κ} {members members' : List Ast}
    (hedit : Forall₂ (EditedMember D) members members')
    (hintact : ∀ m' ∈ members', ∀ name, m'.kind.methodName? = some name →
      ∀ t' ∈ m'.children, t'.everywhere isIntact = true)
    {ms : List Method} (h : lowerMethods T members = .ok ms) :
    ∃ ms', lowerMethods T members' = .ok ms' ∧ ∀ budget,
      (∀ m ∈ ms, IsOk (methodLines T budget m)) → ∀ m' ∈ ms', IsOk (methodLines T budget m') := by
  induction hedit generalizing ms with
  | nil => exact ⟨[], rfl, fun _ _ _ hm' => absurd hm' List.not_mem_nil⟩
  | @cons member member' members members' hmember _ ih =>
    have hintact' := fun m' hm' => hintact m' (List.mem_cons_of_mem member' hm')
    rw [lowerMethods] at h
    rw [lowerMethods, hmember.methodName?]
    cases hname : member.kind.methodName? with
    | none =>
      simp only [hname] at h
      exact ih hintact' h
    | some name =>
      simp only [hname] at h ⊢
      cases hinfo : T.method? name with
      | none =>
        rw [hinfo] at h
        cases h
      | some info =>
        rw [hinfo] at h
        obtain rfl := ClassTable.name_of_method? hinfo
        obtain ⟨m, hm, hmore⟩ := except_bind_eq_ok.mp h
        obtain ⟨rest, hrest, hms⟩ := except_bind_eq_ok.mp hmore
        cases Except.ok.inj hms
        have hchildren := hintact member' List.mem_cons_self info.name
          (hmember.methodName?.trans hname)
        obtain ⟨m', hm', hemit⟩ :=
          lowerMethod_edited hinfo (hmember.children hname).2 hchildren hm
        obtain ⟨rest', hrest', hemits⟩ := ih hintact' hrest
        refine ⟨m' :: rest', ?_, fun budget hok u hu => ?_⟩
        · exact except_bind_eq_ok.mpr ⟨m', hm', except_bind_eq_ok.mpr ⟨rest', hrest', rfl⟩⟩
        · rcases List.mem_cons.mp hu with rfl | hu
          · exact hemit budget (hok m List.mem_cons_self)
          · exact hemits budget (fun v hv => hok v (List.mem_cons_of_mem m hv)) u hu

/-- **What can be emitted can be emitted after edits** exactly if no literal is where it does not
do. -/
theorem classText_edited {D : String → Domain κ} {t t' c c' : Ast} {code : ClassCode}
    (hT : T.AllTypes (Described T)) (hc : t.classTree = .ok c) (hc' : t'.classTree = .ok c')
    (hedit : EditedClass D c c') (hcode : lowerClass T t = .ok code) {budget : Nat}
    (hok : IsOk (classText T budget code)) :
    (∃ code', lowerClass T t' = .ok code' ∧ IsOk (classText T budget code')) ↔
      c'.everyBody (fun _ => isIntact) = true := by
  obtain ⟨hfields, hmethods⟩ := lowerClass_eq_ok hc hcode
  have hdescribed := varsOf_described hfields hT.fields
  constructor
  · rintro ⟨code', hcode', hok'⟩
    obtain ⟨hfields', hmethods'⟩ := lowerClass_eq_ok hc' hcode'
    rw [classText_isOk (varsOf_described hfields' hT.fields)] at hok'
    refine Tree.everyBody_eq_true.mpr fun member hmember name hname => ?_
    obtain ⟨info, hinfo, m, hm, hlower⟩ := lowerMethods_lowered hmethods' hmember hname
    obtain rfl := ClassTable.name_of_method? hinfo
    exact lowerMethod_intact hinfo hlower (hok' m hm)
  · intro hintact
    obtain ⟨methods', hmethods', hemits⟩ :=
      lowerMethods_edited hedit.members (Tree.everyBody_eq_true.mp hintact) hmethods
    rw [classText_isOk hdescribed] at hok
    refine ⟨
      { name := T.className, superclass := T.superclass, imports := T.imports,
        fields := code.fields, methods := methods' }, ?_, ?_⟩
    · refine except_bind_eq_ok.mpr ⟨c', hc', except_bind_eq_ok.mpr ⟨code.fields, hfields, ?_⟩⟩
      exact except_bind_eq_ok.mpr ⟨methods', hmethods', rfl⟩
    · rw [classText_isOk (by exact hdescribed)]
      exact hemits budget hok

end

end Machine
end ClassCompiler
