import ClassCompiler.Proofs.ThreeAddress.Ending
import ClassCompiler.Proofs.ThreeAddress.ValueTypes
import Mathlib.Data.List.Forall2

/-!
# Code without void values

There are no values of type void.  Yet an instruction may speak of one: the checker counts the
arguments of a call but does not compare them with the parameters, and it takes anything where the
superclass is wanted, so that a call of a method that returns nothing may stand where a value is
used, and then a temporary of type void is assigned.

This is the only way.  In a class that declares no variable of type void, the code speaks of void
values exactly if such a call stands where its value is used; and not where it is a statement, since
the result of a call that is run for its effect is thrown away.

* `Instr.types`: the types of the values that an instruction handles.
* `hasValue`, `Tree.everyValue`: expressions with a value, and trees in which every expression has
  one whose value is used.
* `lowerExpr_voidFree`, `lowerStatement_voidFree`: the code of expressions and statements.
* `lowerMethod_voidFree`, `lowerClass_voidFree`: the code of methods and classes.
-/

namespace ClassCompiler

/-! ## Trees -/

/-- A node that is run by running its parts, or whose own value is not used where it is a
statement. -/
def Kind.runsParts : Kind → Bool
  | block | thenBranch | elseBranch | parenthesis | expression | conditional | loop
  | invocation _ => true
  | _ => false

namespace Tree

mutual

/-- Every expression in a statement whose value is used satisfies a condition. -/
def everyValue (p : Ast → Bool) : Ast → Bool
  | .node n ts =>
    match n.kind with
    | .block | .thenBranch | .elseBranch | .parenthesis | .expression =>
      (n.kind.used (everyValueAll p ts)).all fun holds => holds
    | .conditional | .loop =>
      (ts.take 1).all (everywhere p) &&
        ((n.kind.used (everyValueAll p ts)).drop 1).all fun holds => holds
    | .invocation _ => ts.all (everywhere p)
    | _ => everywhere p (.node n ts)

/-- For each statement, whether every expression in it whose value is used satisfies a condition. -/
def everyValueAll (p : Ast → Bool) : List Ast → List Bool
  | [] => []
  | t :: ts => everyValue p t :: everyValueAll p ts

end

variable {p : Ast → Bool} {n : Numbered} {ts : List Ast}

theorem everyValueAll_eq_map (ts : List Ast) : everyValueAll p ts = ts.map (everyValue p) := by
  induction ts with
  | nil => rfl
  | cons t ts ih => rw [everyValueAll, ih, List.map_cons]

theorem everyValue_parts (hk : n.kind = .block ∨ n.kind = .thenBranch ∨ n.kind = .elseBranch ∨
      n.kind = .parenthesis ∨ n.kind = .expression) :
    everyValue p (.node n ts) = true ↔ ∀ t ∈ n.kind.used ts, everyValue p t = true := by
  have heq : everyValue p (.node n ts) =
      (n.kind.used (everyValueAll p ts)).all fun holds => holds := by
    rw [everyValue]
    rcases hk with hk | hk | hk | hk | hk <;> simp only [hk]
  rw [heq, everyValueAll_eq_map, Kind.used_map, List.all_map, List.all_eq_true]
  rfl

theorem everyValue_guarded (hk : n.kind = .conditional ∨ n.kind = .loop) {c : Ast} :
    everyValue p (.node n (c :: ts)) = true ↔
      everywhere p c = true ∧ ∀ t ∈ (n.kind.used (c :: ts)).drop 1, everyValue p t = true := by
  have heq : everyValue p (.node n (c :: ts)) = (((c :: ts).take 1).all (everywhere p) &&
      ((n.kind.used (everyValueAll p (c :: ts))).drop 1).all fun holds => holds) := by
    rw [everyValue]
    rcases hk with hk | hk <;> simp only [hk]
  rw [heq, everyValueAll_eq_map, Kind.used_map, ← List.map_drop, List.all_map, Bool.and_eq_true,
    List.all_eq_true, List.all_eq_true]
  simp

theorem everyValue_invocation {method : String} (hk : n.kind = .invocation method) :
    everyValue p (.node n ts) = true ↔ ∀ t ∈ ts, everywhere p t = true := by
  rw [everyValue]
  simp only [hk]
  exact List.all_eq_true

theorem everyValue_eq_everywhere (hk : n.kind.runsParts = false) :
    everyValue p (.node n ts) = everywhere p (.node n ts) := by
  rw [everyValue]
  split
  all_goals first
    | rfl
    | simp_all [Kind.runsParts]

end Tree

/-- No field, no parameter and no local of a class is declared void. -/
structure ClassTable.DeclaresValues (T : ClassTable) : Prop where
  fields : ∀ s ∈ T.fields, s.type.isVoid = false
  frames : ∀ info ∈ T.methods, ∀ s ∈ info.parameters ++ info.locals, s.type.isVoid = false

theorem ClassTable.DeclaresValues.resolve? {T : ClassTable} (h : T.DeclaresValues)
    {method name : String} {scope : Scope} {symbol : Symbol}
    (hres : T.resolve? method name = some (scope, symbol)) : symbol.type.isVoid = false := by
  obtain ⟨-, ⟨-, hmem⟩ | ⟨-, info, hinfo, hmem⟩⟩ := ClassTable.resolve?_cases hres
  · exact h.fields symbol hmem
  · exact h.frames info (ClassTable.method?_mem hinfo) symbol hmem

namespace ThreeAddress

/-! ## Instructions -/

/-- The types of the values that a call handles, but for its result. -/
def Call.types (c : Call) : List ValueType :=
  c.target.type :: (c.args.map Operand.type ++ c.params)

/-- The types of the values that a right-hand side handles. -/
def Rhs.types : Rhs → List ValueType
  | .operand value => [value.type]
  | .binary _ left right => [left.type, right.type]
  | .not value => [value.type]
  | .call c => c.result :: c.types
  | .getField object field => [object.type, field.type]
  | .arrayLength array => [array.type]
  | .arrayLoad array index => [array.type, index.type]
  | .newObject name => [.object name]
  | .newArray length => [length.type]

/-- The types of the values that an instruction handles.  The result of a call that is not assigned
is thrown away, and is not one of them. -/
def Instr.types : Instr → List ValueType
  | .assign dest rhs => dest.type :: rhs.types
  | .arrayStore array index value => [array.type, index.type, value.type]
  | .call c => c.types
  | .putField object field value => [object.type, field.type, value.type]
  | .ret value => value.toList.map Operand.type
  | .branch cond _ _ => [cond.type]
  | .noop value => [value.type]
  | .jump _ | .label _ => []

/-- No instruction handles a value of type void. -/
def VoidFree (code : List Instr) : Prop :=
  ∀ i ∈ code, ValueType.void ∉ i.types

@[simp] theorem voidFree_nil : VoidFree [] :=
  fun _ hi => absurd hi List.not_mem_nil

@[simp] theorem voidFree_append (code code' : List Instr) :
    VoidFree (code ++ code') ↔ VoidFree code ∧ VoidFree code' :=
  List.forall_mem_append

@[simp] theorem voidFree_cons (i : Instr) (code : List Instr) :
    VoidFree (i :: code) ↔ ValueType.void ∉ i.types ∧ VoidFree code :=
  List.forall_mem_cons

/-- The code of an expression handles no value of type void, and it has a value. -/
def Lowered.VoidFree (v : Lowered) : Prop :=
  ThreeAddress.VoidFree v.code ∧ v.value.type ≠ .void

theorem Fresh.lowered_voidFree (f : Fresh) (code : List Instr) (type : ValueType) (rhs : Rhs) :
    (f.lowered code type rhs).VoidFree ↔
      VoidFree code ∧ type ≠ .void ∧ ValueType.void ∉ rhs.types := by
  have htype : (f.temp type).1.type = type := rfl
  unfold Lowered.VoidFree Fresh.lowered
  simp only [voidFree_append, voidFree_cons, voidFree_nil, Instr.types, Operand.type, htype,
    List.mem_cons, not_or, and_true, ne_eq]
  constructor
  · rintro ⟨⟨hcode, -, hrhs⟩, hvoid⟩
    exact ⟨hcode, hvoid, hrhs⟩
  · rintro ⟨hcode, hvoid, hrhs⟩
    exact ⟨⟨hcode, Ne.symm hvoid, hrhs⟩, hvoid⟩

/-- To use a value in an instruction that handles no other value of type void. -/
theorem Lowered.use_voidFree {v : Lowered} {i : Instr}
    (hi : ValueType.void ∈ i.types ↔ v.value.type = .void) :
    ThreeAddress.VoidFree (v.code ++ [i]) ↔ v.VoidFree := by
  rw [voidFree_append, voidFree_cons, hi, Lowered.VoidFree]
  simp

/-- A node with operands: their code, and an instruction that handles their values. -/
theorem Fresh.lowered_operands_voidFree {q : Ast → Bool} {us : List Ast} {vs : List Lowered}
    (h : List.Forall₂ (fun u v => v.VoidFree ↔ u.everywhere q = true) us vs) (f : Fresh)
    {code : List Instr} (hcode : code = vs.flatMap Lowered.code) (type : ValueType) {rhs : Rhs}
    (hrhs : rhs.types = vs.map fun v => v.value.type) :
    (f.lowered code type rhs).VoidFree ↔
      type ≠ .void ∧ ∀ u ∈ us, u.everywhere q = true := by
  have hvalues : (VoidFree (vs.flatMap Lowered.code) ∧
      ValueType.void ∉ vs.map fun v => v.value.type) ↔ ∀ u ∈ us, u.everywhere q = true := by
    clear hcode hrhs
    induction h with
    | nil => simp
    | @cons u v us vs huv _ ih =>
      rw [List.forall_mem_cons, ← huv, ← ih, List.flatMap_cons, voidFree_append,
        List.map_cons, List.mem_cons, not_or, Lowered.VoidFree, ne_comm, and_and_and_comm]
  rw [Fresh.lowered_voidFree, hcode, hrhs, ← hvalues, and_left_comm]

/-- What is stored in a variable that is not void. -/
theorem Lowered.storeIn_voidFree (v : Lowered) {dest : Var} (hdest : dest.type ≠ .void) :
    ThreeAddress.VoidFree (v.storeIn dest) ↔ v.VoidFree := by
  have hcopy : ThreeAddress.VoidFree (v.code ++ [.assign dest (.operand v.value)]) ↔
      v.VoidFree := by
    simp [Lowered.VoidFree, Instr.types, Rhs.types, Ne.symm hdest, eq_comm]
  unfold Lowered.storeIn
  split
  · rename_i result last rhs hvalue hlast
    split
    · -- The last instruction assigns elsewhere, a variable of the same type.
      rename_i hsame
      have hcode : ThreeAddress.VoidFree v.code ↔
          ThreeAddress.VoidFree (v.code.dropLast ++ [.assign last rhs]) := by
        rw [List.dropLast_append_getLast? _ hlast]
      have htype : last.type = dest.type := by
        rw [hsame.1, hsame.2]
      have hresult : v.value.type ≠ .void := by
        rw [hvalue]
        show result.type ≠ .void
        rw [hsame.2]
        exact hdest
      rw [Lowered.VoidFree, and_iff_left hresult, hcode]
      simp only [voidFree_append, voidFree_cons, Instr.types, htype]
    · exact hcopy
  · exact hcopy

/-! ## Expressions -/

/-- A type that was not declared void has values. -/
theorem ofType_ne_void {type : Ty} {value : ValueType} (h : ValueType.ofType type = .ok value)
    (htype : type.isVoid = false) : value ≠ .void := by
  intro hvoid
  rw [(ValueType.ofType_eq_void h).mp hvoid] at htype
  cases htype

theorem toOption_ofType_ne_void {type : Ty} :
    (ValueType.ofType type).toOption ≠ some .void ↔ type.isVoid = false := by
  constructor
  · intro h
    by_contra hvoid
    obtain ⟨harray, hname⟩ : type.isArray = false ∧ type.name = "void" := by
      simpa [Ty.isVoid] using hvoid
    exact h (by simp [ValueType.ofType, harray, hname, Except.toOption])
  · intro htype hvoid
    cases hof : ValueType.ofType type with
    | error e =>
      rw [hof] at hvoid
      cases hvoid
    | ok value =>
      rw [hof] at hvoid
      exact ofType_ne_void hof htype (Option.some.inj hvoid)

/-- The class has a method of that name, and it returns nothing. -/
def declaresVoid (T : ClassTable) (method : String) : Bool :=
  (T.method? method).any fun info => info.returnType.isVoid

/-- An expression that has a value: it is not a call, on the class or on an object of the class, of
a method that returns nothing. -/
def hasValue (T : ClassTable) (method : String) : Ast → Bool
  | .node n ts =>
    match n.kind with
    | .parenthesis =>
      match ts with
      | [] => true
      | t :: _ => hasValue T method t
    | .invocation callee =>
      match ts with
      | [] => true
      | target :: _ =>
        valueType? T method none target != some (.object T.className) || !declaresVoid T callee
    | _ => true

/-- Where no variable is void and void is not expected, the type of an expression that has a value
is not void. -/
theorem hasValue_iff_valueType? {T : ClassTable} (hT : T.DeclaresValues) {method : String}
    {expected : Option ValueType} (hexpected : expected ≠ some .void) (t : Ast) :
    hasValue T method t = true ↔ valueType? T method expected t ≠ some .void := by
  have hgetD : some (expected.getD .int) ≠ some .void := by
    cases expected with
    | none => decide
    | some type => exact hexpected
  induction t using Tree.induction with
  | node n ts ih =>
    rw [hasValue.eq_def, valueType?.eq_def]
    dsimp only
    cases hk : n.kind with
    | parenthesis =>
      cases ts with
      | nil => exact iff_of_true rfl (by simp)
      | cons t ts => exact ih t List.mem_cons_self
    | invocation callee =>
      cases ts with
      | nil => exact iff_of_true rfl (by simp)
      | cons t ts =>
        dsimp only
        rw [Bool.or_eq_true, bne_iff_ne, Bool.not_eq_true', declaresVoid]
        by_cases htarget : valueType? T method none t = some (.object T.className)
        · rw [if_pos htarget]
          cases hinfo : T.method? callee with
          | none => exact iff_of_true (.inr rfl) hgetD
          | some info =>
            dsimp only
            rw [toOption_ofType_ne_void]
            exact or_iff_right fun hne => hne htarget
        · rw [if_neg htarget]
          exact iff_of_true (.inl htarget) hgetD
    | identifier name =>
      refine iff_of_true rfl ?_
      show leafType? T method (.identifier name) ≠ some .void
      unfold leafType?
      cases hres : T.resolve? method name with
      | none =>
        simp only [hres]
        simp
      | some found =>
        obtain ⟨scope, symbol⟩ := found
        simp only [hres]
        exact toOption_ofType_ne_void.mpr (hT.resolve? hres)
    | binary op =>
      have hop : some (resultType op) ≠ some .void := by cases op <;> decide
      exact iff_of_true rfl hop
    | _ => exact iff_of_true rfl (fun h => by cases h)

/-- A statement has no value that could be void. -/
theorem everyValue_statement {T : ClassTable} {method : String} {n : Numbered} {ts : List Ast}
    (hk : n.kind.isStatement = true) (hruns : n.kind.runsParts = false) :
    (Tree.node n ts : Ast).everyValue (hasValue T method) = true ↔
      ∀ u ∈ n.kind.used ts, u.everywhere (hasValue T method) = true := by
  have hroot : hasValue T method (.node n ts) = true := by
    rw [hasValue.eq_def]
    dsimp only
    cases hkind : n.kind <;> rw [hkind] at hk <;> first | rfl | cases hk
  rw [Tree.everyValue_eq_everywhere hruns, Tree.everywhere_node, and_iff_right hroot]

variable {Γ : Site} {f f' : Fresh} {expected : Option ValueType} {v : Lowered}

/-- The value of an expression is not void if the expression has a value. -/
theorem hasValue_iff (hT : Γ.table.DeclaresValues) {t : Ast} (ht : Γ.Admits t)
    (hexpected : expected ≠ some .void) (h : (lowerExpr Γ expected t).run f = .ok (v, f')) :
    hasValue Γ.table Γ.info.name t = true ↔ v.value.type ≠ .void := by
  rw [hasValue_iff_valueType? hT hexpected, lowerExpr_type ht h, ne_eq, Option.some.injEq]

/-- What the arguments of a call are lowered to handles no value of type void. -/
structure LoweredArgs.VoidFree (args : LoweredArgs) : Prop where
  code : ThreeAddress.VoidFree args.code
  values : ValueType.void ∉ args.args.map Operand.type
  params : ValueType.void ∉ args.params

theorem lowerArgs_voidFree {ts : List Ast}
    (h : ∀ t ∈ ts, ∀ expected f v f', expected ≠ some .void →
      (lowerExpr Γ expected t).run f = .ok (v, f') →
      (v.VoidFree ↔ t.everywhere (hasValue Γ.table Γ.info.name) = true))
    {declared : List Symbol} (hdeclared : ∀ s ∈ declared, s.type.isVoid = false)
    {args : LoweredArgs} (hargs : (lowerArgs Γ declared ts).run f = .ok (args, f')) :
    args.VoidFree ↔ ∀ t ∈ ts, t.everywhere (hasValue Γ.table Γ.info.name) = true := by
  induction ts generalizing declared f args with
  | nil =>
    obtain ⟨rfl, -⟩ := lowerArgs_nil_eq_ok hargs
    exact iff_of_true ⟨voidFree_nil, by simp, by simp⟩ (by simp)
  | cons t ts ih =>
    obtain ⟨param, arg, f₁, rest, hparam, harg, hrest, rfl⟩ := lowerArgs_cons_eq_ok hargs
    have hexpected : param ≠ some .void := by
      cases declared with
      | nil =>
        cases Except.ok.inj hparam
        simp
      | cons s ss =>
        obtain ⟨type, htype, hparam⟩ := Meaning.except_bind_eq_ok.mp hparam
        cases Except.ok.inj hparam
        have hvoid := ofType_ne_void htype (hdeclared s List.mem_cons_self)
        exact fun heq => hvoid (Option.some.inj heq)
    have hfirst := h t List.mem_cons_self _ _ _ _ hexpected harg
    have hlater := ih (fun u hu => h u (List.mem_cons_of_mem t hu))
      (fun s hs => hdeclared s (List.mem_of_mem_tail hs)) hrest
    rw [List.forall_mem_cons, ← hfirst, ← hlater]
    constructor
    · rintro ⟨hcode, hargs, hparams⟩
      rw [voidFree_append] at hcode
      rw [List.map_cons, List.mem_cons, not_or] at hargs
      rw [List.mem_cons, not_or] at hparams
      exact ⟨⟨hcode.1, Ne.symm hargs.1⟩, ⟨hcode.2, hargs.2, hparams.2⟩⟩
    · rintro ⟨hvalue, hvalues⟩
      have htype : param.getD arg.value.type ≠ .void := by
        cases param with
        | none => exact hvalue.2
        | some type => exact fun heq => hexpected (congrArg some heq)
      refine ⟨(voidFree_append ..).mpr ⟨hvalue.1, hvalues.code⟩, ?_, ?_⟩
      · rw [List.map_cons, List.mem_cons, not_or]
        exact ⟨Ne.symm hvalue.2, hvalues.values⟩
      · rw [List.mem_cons, not_or]
        exact ⟨Ne.symm htype, hvalues.params⟩

section

variable (hT : Γ.table.DeclaresValues)

include hT

/-- The parameters of a callee are not void. -/
theorem isVoid_paramsOf {target : Operand} {method : String} {s : Symbol}
    (hs : s ∈ paramsOf (Γ.callee? target method)) : s.type.isVoid = false := by
  cases hcallee : Γ.callee? target method with
  | none =>
    rw [hcallee] at hs
    exact absurd hs List.not_mem_nil
  | some info =>
    rw [hcallee] at hs
    unfold Site.callee? at hcallee
    split at hcallee
    · exact hT.frames info (ClassTable.method?_mem hcallee) s (List.mem_append_left _ hs)
    · cases hcallee

/-- A call handles no value of type void if its target and its arguments have values. -/
theorem lowerCall_voidFree {n : Numbered} {method : String} {ts : List Ast}
    (h : ∀ t ∈ ts, ∀ expected f v f', expected ≠ some .void →
      (lowerExpr Γ expected t).run f = .ok (v, f') →
      (v.VoidFree ↔ t.everywhere (hasValue Γ.table Γ.info.name) = true))
    {code : List Instr} {call : Call}
    (hcall : (lowerCall Γ n method expected ts).run f = .ok ((code, call), f')) :
    (VoidFree code ∧ ValueType.void ∉ call.types) ↔
      ∀ t ∈ ts, t.everywhere (hasValue Γ.table Γ.info.name) = true := by
  obtain ⟨t, rest, target, f₁, args, result, rfl, htarget, hargs, -, rfl, rfl⟩ :=
    lowerCall_eq_ok hcall
  have hfirst := h t List.mem_cons_self _ _ _ _ (by simp) htarget
  have hlater := lowerArgs_voidFree (fun u hu => h u (List.mem_cons_of_mem t hu))
    (fun s hs => isVoid_paramsOf hT hs) hargs
  rw [List.forall_mem_cons, ← hfirst, ← hlater, voidFree_append]
  unfold Call.types
  rw [List.mem_cons, List.mem_append, not_or, not_or]
  constructor
  · rintro ⟨⟨htarget, hcode⟩, hvoid, hargs, hparams⟩
    exact ⟨⟨htarget, Ne.symm hvoid⟩, ⟨hcode, hargs, hparams⟩⟩
  · rintro ⟨htarget, hrest⟩
    exact ⟨⟨htarget.1, hrest.code⟩, Ne.symm htarget.2, hrest.values, hrest.params⟩

/-- **The code of an expression handles no value of type void, and neither is its own value, exactly
if every expression in it has a value.** -/
theorem lowerExpr_voidFree {t : Ast} (ht : Γ.Admits t) (hexpected : expected ≠ some .void)
    (hlower : (lowerExpr Γ expected t).run f = .ok (v, f')) :
    v.VoidFree ↔ t.everywhere (hasValue Γ.table Γ.info.name) = true := by
  induction t using Tree.induction generalizing expected f v f' with
  | node n ts ih =>
    have hroot := hasValue_iff hT ht hexpected hlower
    rw [Tree.everywhere_node, hroot]
    -- For an operand there is no code, and nothing below the node is read.
    have hleaf (hcode : v.code = []) (hused : n.kind.used ts = []) :
        v.VoidFree ↔ v.value.type ≠ .void ∧
          ∀ u ∈ n.kind.used ts, u.everywhere (hasValue Γ.table Γ.info.name) = true := by
      rw [Lowered.VoidFree, hcode, hused]
      simp
    cases lowerExpr_cases hlower with
    | integer hk | boolean hk | string hk | this hk | className hk | «variable» hk
    | classRef hk => exact hleaf rfl (by rw [hk]; rfl)
    | @field name symbol type _ hk hres _ htype =>
      have hvoid := ofType_ne_void htype (hT.resolve? hres)
      rw [Fresh.lowered_voidFree, hk]
      simp [Rhs.types, Site.this, Operand.type, hvoid, Ne.symm hvoid, Kind.used, Fresh.lowered,
        Fresh.temp]
    | newObject hk =>
      rw [Fresh.lowered_voidFree, hk]
      simp [Rhs.types, Kind.used, Fresh.lowered, Operand.type, Fresh.temp]
    | @parenthesis t rest _ _ hk h =>
      have hinner := ih t List.mem_cons_self (ht.below hk t List.mem_cons_self) hexpected h
      rw [hk]
      show v.VoidFree ↔ v.value.type ≠ .void ∧ ∀ u ∈ [t], _
      rw [List.forall_mem_singleton, ← hinner]
      exact (and_iff_right_of_imp fun h => h.2).symm
    | @binary op l r rest left f₁ right f₂ hk hl hr =>
      have hadmits := ht.below hk
      have hoperand : some (operandType op) ≠ some .void := by cases op <;> decide
      have hleft := ih l (by simp) (hadmits l (by simp [Kind.used])) hoperand hl
      have hright := ih r (by simp) (hadmits r (by simp [Kind.used])) hoperand hr
      rw [hk]
      exact f₂.lowered_operands_voidFree (.cons hleft (.cons hright .nil)) (by simp) _ rfl
    | @negation t rest inner f₁ hk h =>
      have hinner := ih t List.mem_cons_self (ht.below hk t List.mem_cons_self) (by simp) h
      rw [hk]
      exact f₁.lowered_operands_voidFree (.cons hinner .nil) (by simp) _ rfl
    | @arrayAccess a i rest base f₁ index f₂ array hk ha hi harray =>
      have hadmits := ht.below hk
      have hbase := ih a (by simp) (hadmits a (by simp [Kind.used])) (by simp) ha
      have hindex := ih i (by simp) (hadmits i (by simp [Kind.used])) (by simp) hi
      have htypes : (Rhs.arrayLoad array index.value).types =
          [base, index].map fun v => v.value.type := by
        rw [List.map_cons, harray]
        rfl
      rw [hk]
      exact f₂.lowered_operands_voidFree (.cons hbase (.cons hindex .nil)) (by simp) _ htypes
    | @arrayLength t rest base f₁ hk h =>
      have hbase := ih t List.mem_cons_self (ht.below hk t List.mem_cons_self) (by simp) h
      rw [hk]
      exact f₁.lowered_operands_voidFree (.cons hbase .nil) (by simp) _ rfl
    | @newArray t rest length f₁ hk h =>
      have hlength := ih t List.mem_cons_self (ht.below hk t List.mem_cons_self) (by simp) h
      rw [hk]
      exact f₁.lowered_operands_voidFree (.cons hlength .nil) (by simp) _ rfl
    | @invocation method _ code call f₁ hk h =>
      have hcall := lowerCall_voidFree hT
        (fun u hu _ _ _ _ hexpected h => ih u hu (ht.below hk u hu) hexpected h) h
      rw [Fresh.lowered_voidFree, hk]
      show _ ↔ call.result ≠ .void ∧ ∀ u ∈ ts, _
      rw [← hcall, Rhs.types, List.mem_cons, not_or]
      constructor
      · rintro ⟨hcode, hresult, -, htypes⟩
        exact ⟨hresult, hcode, htypes⟩
      · rintro ⟨hresult, hcode, htypes⟩
        exact ⟨hcode, hresult, Ne.symm hresult, htypes⟩

/-- The code of a condition, which may have a node of its own. -/
theorem lowerCondition_voidFree {t : Ast} (ht : Γ.Admits t)
    (hlower : (lowerCondition Γ t).run f = .ok (v, f')) :
    v.VoidFree ↔ t.everywhere (hasValue Γ.table Γ.info.name) = true := by
  obtain ⟨n, ts⟩ := t
  have hbool : some ValueType.bool ≠ some .void := by decide
  rcases lowerCondition_eq_ok hlower with ⟨u, rest, hk, rfl, h⟩ | ⟨-, h⟩
  · have hinner := lowerExpr_voidFree hT (ht.below hk u List.mem_cons_self) hbool h
    have hroot : hasValue Γ.table Γ.info.name (.node n (u :: rest)) = true := by
      rw [hasValue.eq_def]
      simp only [hk]
    rw [hinner, Tree.everywhere_node, and_iff_right hroot, hk]
    show _ ↔ ∀ w ∈ [u], _
    rw [List.forall_mem_singleton]
  · exact lowerExpr_voidFree hT ht hbool h

/-- The code of an expression that is run for its effect handles no value of type void exactly if
every expression in it has a value whose value is used. -/
theorem lowerEffect_voidFree {t : Ast} (ht : Γ.Admits t) {code : List Instr}
    (hlower : (lowerEffect Γ t).run f = .ok (code, f')) :
    VoidFree code ↔ t.everyValue (hasValue Γ.table Γ.info.name) = true := by
  induction t using Tree.induction generalizing f code f' with
  | node n ts ih =>
    cases lowerEffect_cases hlower with
    | @parenthesis t rest _ _ hk h =>
      rw [Tree.everyValue_parts (.inr (.inr (.inr (.inl hk)))), hk]
      show _ ↔ ∀ u ∈ [t], _
      rw [List.forall_mem_singleton]
      exact ih t List.mem_cons_self (ht.below hk t List.mem_cons_self) h
    | @invocation method _ code call _ hk h =>
      have hcall : (VoidFree code ∧ ValueType.void ∉ call.types) ↔
          ∀ u ∈ ts, u.everywhere (hasValue Γ.table Γ.info.name) = true :=
        lowerCall_voidFree hT
          (fun u hu _ _ _ _ hexpected h => lowerExpr_voidFree hT (ht.below hk u hu) hexpected h) h
      rw [Tree.everyValue_invocation hk, ← hcall, voidFree_append, voidFree_cons, Instr.types]
      simp
    | @value _ v _ hk hk' h =>
      have hruns : n.kind.runsParts = false := by
        cases lowerExpr_cases h with
        | parenthesis hparenthesis _ => exact absurd hparenthesis hk
        | invocation hinvocation _ => exact absurd hinvocation (hk' _)
        | integer hk | boolean hk | string hk | this hk | className hk | «variable» hk | field hk
        | classRef hk | binary hk | negation hk | arrayAccess hk | arrayLength hk | newArray hk
        | newObject hk =>
          rw [hk]
          rfl
      rw [Tree.everyValue_eq_everywhere hruns, ← lowerExpr_voidFree hT ht (by simp) h]
      exact Lowered.use_voidFree (by simp [Instr.types, eq_comm])

/-! ## Statements -/

omit hT in
theorem lowerStatements_voidFree_of {ts : List Ast}
    (h : ∀ t ∈ ts, ∀ f code f', (lowerStatement Γ t).run f = .ok (code, f') →
      (VoidFree code ↔ t.everyValue (hasValue Γ.table Γ.info.name) = true))
    {code : List Instr} (hlower : (lowerStatements Γ ts).run f = .ok (code, f')) :
    VoidFree code ↔ ∀ t ∈ ts, t.everyValue (hasValue Γ.table Γ.info.name) = true := by
  induction ts generalizing f code with
  | nil =>
    obtain ⟨rfl, -⟩ := lowerStatements_nil_eq_ok hlower
    simp
  | cons t ts ih =>
    obtain ⟨first, f₁, rest, hfirst, hrest, rfl⟩ := lowerStatements_cons_eq_ok hlower
    rw [voidFree_append, h t List.mem_cons_self _ _ _ hfirst,
      ih (fun u hu => h u (List.mem_cons_of_mem t hu)) hrest, List.forall_mem_cons]

/-- To read a field that is not void. -/
theorem lowerArray_voidFree {name : String} {scope : Scope} {symbol : Symbol} {type : ValueType}
    (hres : Γ.table.resolve? Γ.info.name name = some (scope, symbol))
    (htype : ValueType.ofType symbol.type = .ok type) {code : List Instr} {array : Var}
    (h : (lowerArray Γ scope ⟨name, type⟩).run f = .ok ((code, array), f')) :
    VoidFree code ∧ array.type ≠ .void := by
  have hvoid := ofType_ne_void htype (hT.resolve? hres)
  cases scope with
  | field =>
    obtain ⟨temp, f₁, htemp, h⟩ := Lowering.bind_eq_ok.mp h
    obtain ⟨rfl, -⟩ := Lowering.newTemp_eq_ok.mp htemp
    obtain ⟨heq, -⟩ := Lowering.pure_eq_ok.mp h
    obtain ⟨rfl, rfl⟩ := Prod.mk.inj heq
    refine ⟨?_, hvoid⟩
    simp [Instr.types, Rhs.types, Site.this, Operand.type, Fresh.temp, Ne.symm hvoid]
  | «local» | parameter =>
    obtain ⟨heq, -⟩ := Lowering.pure_eq_ok.mp h
    obtain ⟨rfl, rfl⟩ := Prod.mk.inj heq
    exact ⟨voidFree_nil, hvoid⟩

end

/-- A value is returned only where the method has a result. -/
def Site.returnsFit (Γ : Site) : Ast → Bool
  | .node n ts =>
    match n.kind with
    | .ret => ts.isEmpty || !Γ.info.returnType.isVoid
    | _ => true

/-- **The code of a statement handles no value of type void exactly if every expression in it has a
value whose value is used.** -/
theorem lowerStatement_voidFree (hT : Γ.table.DeclaresValues) {t : Ast} (ht : Γ.Admits t)
    (hreturns : t.everywhere Γ.returnsFit = true) {code : List Instr}
    (hlower : (lowerStatement Γ t).run f = .ok (code, f')) :
    VoidFree code ↔ t.everyValue (hasValue Γ.table Γ.info.name) = true := by
  induction t using Tree.induction generalizing f code f' with
  | node n ts ih =>
    obtain ⟨hroot, hbelow⟩ := Tree.everywhere_node.mp hreturns
    cases lowerStatement_cases hlower with
    | declaration hk =>
      have hleaf : n.kind.isStatement = true ∧ n.kind.runsParts = false ∧ n.kind.used ts = [] := by
        cases hkind : n.kind <;> rw [hkind] at hk <;> first | exact ⟨rfl, rfl, rfl⟩ | cases hk
      rw [everyValue_statement hleaf.1 hleaf.2.1, hleaf.2.2]
      simp
    | sequence hk h =>
      have hused : n.kind.used ts = ts := by
        rcases hk with hk | hk | hk <;> rw [hk] <;> rfl
      have hparts : n.kind = .block ∨ n.kind = .thenBranch ∨ n.kind = .elseBranch ∨
          n.kind = .parenthesis ∨ n.kind = .expression := by
        tauto
      rw [Tree.everyValue_parts hparts, hused]
      rw [hused] at hbelow
      have hadmits := ht.below rfl
      rw [hused] at hadmits
      exact lowerStatements_voidFree_of
        (fun u hu _ _ _ h => ih u hu (hadmits u hu) (hbelow u hu) h) h
    | @conditional c t rest cond f₁ thenCode f₂ elseCode f₃ hk hc hthen helse =>
      have hadmits := ht.below hk
      rw [hk] at hbelow
      have hcond := lowerCondition_voidFree hT (hadmits c (by simp [Kind.used])) hc
      have hthen := ih t (by simp) (hadmits t (by simp [Kind.used]))
        (hbelow t (by simp [Kind.used])) hthen
      have helse : VoidFree elseCode ↔
          ∀ e ∈ rest.take 1, e.everyValue (hasValue Γ.table Γ.info.name) = true := by
        cases rest with
        | nil =>
          obtain ⟨rfl, -⟩ := Lowering.pure_eq_ok.mp helse
          simp
        | cons e rest =>
          rw [ih e (by simp) (hadmits e (by simp [Kind.used])) (hbelow e (by simp [Kind.used]))
            helse]
          simp
      rw [Tree.everyValue_guarded (.inl hk), hk, ← hcond]
      show _ ↔ _ ∧ ∀ u ∈ t :: rest.take 1, _
      rw [List.forall_mem_cons, ← hthen, ← helse]
      simp only [conditionalCode, voidFree_append, voidFree_cons, voidFree_nil, Instr.types,
        Lowered.VoidFree, List.mem_singleton, List.not_mem_nil, not_false_eq_true, and_true,
        and_assoc, ne_eq, @eq_comm _ ValueType.void]
    | @loop c body first f₁ bodyCode f₂ again f₃ hk hc hb hc' =>
      have hadmits := ht.below hk
      rw [hk] at hbelow
      have hfirst := lowerCondition_voidFree hT (hadmits c List.mem_cons_self) hc
      have hagain := lowerCondition_voidFree hT (hadmits c List.mem_cons_self) hc'
      have hbody := lowerStatements_voidFree_of (fun u hu _ _ _ h =>
        ih u (List.mem_cons_of_mem c hu) (hadmits u (List.mem_cons_of_mem c hu))
          (hbelow u (List.mem_cons_of_mem c hu)) h) hb
      rw [Tree.everyValue_guarded (.inr hk), hk]
      show _ ↔ _ ∧ ∀ u ∈ body, _
      rw [← hbody]
      -- The condition stands twice in the code.
      have hguard : c.everywhere (hasValue Γ.table Γ.info.name) = true ↔
          first.VoidFree ∧ again.VoidFree := by
        rw [hfirst, hagain, and_self]
      rw [hguard]
      simp only [loopCode, voidFree_append, voidFree_cons, voidFree_nil, Instr.types,
        Lowered.VoidFree, List.mem_singleton, List.not_mem_nil, not_false_eq_true, and_true,
        ne_eq, @eq_comm _ ValueType.void]
      tauto
    | @expression e rest _ _ hk h =>
      rw [Tree.everyValue_parts (.inr (.inr (.inr (.inr hk)))), hk]
      show _ ↔ ∀ u ∈ [e], _
      rw [List.forall_mem_singleton]
      exact lowerEffect_voidFree hT (ht.below hk e List.mem_cons_self) h
    | @«variable» name scope symbol type t rest v _ hk hres _ htype h =>
      have hvoid := ofType_ne_void htype (hT.resolve? hres)
      have hexpected : some type ≠ some .void := fun heq => hvoid (Option.some.inj heq)
      have hvalue := lowerExpr_voidFree hT (ht.below hk t List.mem_cons_self) hexpected h
      rw [v.storeIn_voidFree hvoid, hvalue, everyValue_statement (by rw [hk]; rfl)
        (by rw [hk]; rfl), hk]
      show _ ↔ ∀ u ∈ [t], _
      rw [List.forall_mem_singleton]
    | @field name symbol type t rest v _ hk hres htype h =>
      have hvoid := ofType_ne_void htype (hT.resolve? hres)
      have hexpected : some type ≠ some .void := fun heq => hvoid (Option.some.inj heq)
      have hvalue := lowerExpr_voidFree hT (ht.below hk t List.mem_cons_self) hexpected h
      rw [everyValue_statement (by rw [hk]; rfl) (by rw [hk]; rfl), hk]
      show _ ↔ ∀ u ∈ [t], _
      rw [List.forall_mem_singleton, ← hvalue]
      exact Lowered.use_voidFree
        (by simp [Instr.types, Site.this, Operand.type, Ne.symm hvoid, eq_comm])
    | @element name scope symbol type i e rest code array f₁ index f₂ value f₃ hk hres htype ha hi
        he =>
      have hadmits := ht.below hk
      have harray := lowerArray_voidFree hT hres htype ha
      have hindex := lowerExpr_voidFree hT (hadmits i (by simp [Kind.used])) (by decide) hi
      have hvalue := lowerExpr_voidFree hT (hadmits e (by simp [Kind.used])) (by decide) he
      rw [everyValue_statement (by rw [hk]; rfl) (by rw [hk]; rfl), hk]
      show _ ↔ ∀ u ∈ [i, e], _
      rw [List.forall_mem_cons, List.forall_mem_singleton, ← hindex, ← hvalue]
      simp only [voidFree_append, voidFree_cons, voidFree_nil, Instr.types, Lowered.VoidFree,
        List.mem_cons, List.not_mem_nil, or_false, not_or, and_true, ne_eq,
        @eq_comm _ ValueType.void, harray.1, harray.2, not_false_eq_true, true_and]
      tauto
    | returnNone hk =>
      rw [everyValue_statement (by rw [hk]; rfl) (by rw [hk]; rfl), hk]
      simp [Kind.used, Instr.types]
    | @returnSome t rest type v _ hk htype h =>
      have hresult : Γ.info.returnType.isVoid = false := by
        rw [Site.returnsFit] at hroot
        simpa [hk] using hroot
      have hvoid := ofType_ne_void htype hresult
      have hexpected : some type ≠ some .void := fun heq => hvoid (Option.some.inj heq)
      have hvalue := lowerExpr_voidFree hT (ht.below hk t List.mem_cons_self) hexpected h
      rw [everyValue_statement (by rw [hk]; rfl) (by rw [hk]; rfl), hk]
      show _ ↔ ∀ u ∈ [t], _
      rw [List.forall_mem_singleton, ← hvalue]
      exact Lowered.use_voidFree (by simp [Instr.types, eq_comm])
    | condition hk h =>
      rw [Tree.everyValue_eq_everywhere (by rw [hk]; rfl), ← lowerCondition_voidFree hT ht h]
      exact Lowered.use_voidFree (by simp [Instr.types, eq_comm])
    | effect hk h => exact lowerEffect_voidFree hT ht h

/-! ## Methods -/

open Typing

theorem isVoid_tagOrigin (T : ClassTable) (type : Ty) :
    (T.tagOrigin type).isVoid = type.isVoid := by
  obtain ⟨hname, harray⟩ := T.tagOrigin_keeps type
  rw [Ty.isVoid, Ty.isVoid, hname, harray]

theorem Site.returnsFit_of_ne {n : Numbered} {ts : List Ast} (hk : n.kind ≠ .ret) :
    Γ.returnsFit (.node n ts) = true := by
  unfold Site.returnsFit
  dsimp only
  split
  · exact absurd ‹_› hk
  · rfl

theorem returnsFit_of_infer {t : Ast} {type : Ty} (h : (infer Γ.context t).Gives (some type)) :
    Γ.returnsFit t = true := by
  obtain ⟨n, ts⟩ := t
  obtain ⟨_, -, htyped⟩ := infer_cases h
  change Types Γ.context n ts _ at htyped
  refine Site.returnsFit_of_ne fun hret => ?_
  cases htyped with
  | integer hk | boolean hk | string hk | this hk | className hk | newObject hk | «variable» hk
  | classRef hk | parenthesis hk | binary hk | negation hk | arrayAccess hk | arrayLength hk
  | newArray hk | invocation hk =>
    rw [hret] at hk
    cases hk

theorem returnsFit_of_check {t : Ast} (h : (checkStatement Γ.context t).Gives ()) :
    Γ.returnsFit t = true := by
  obtain ⟨n, ts⟩ := t
  by_cases hret : n.kind = .ret
  · cases checkStatement_cases h with
    | returnSome _ hm hvoid =>
      cases Option.some.inj hm
      have hvoid : Γ.info.returnType.isVoid = false := by
        rw [← isVoid_tagOrigin Γ.table]
        exact hvoid
      unfold Site.returnsFit
      simp [hret, hvoid]
    | returnNone hk =>
      unfold Site.returnsFit
      simp [hret]
    | returnOutside hk hm => cases hm
    | effect hk he => exact returnsFit_of_infer he
    | declaration hk => simp [hret, Kind.writtenType?] at hk
    | sequence hk => simp [hret] at hk
    | conditional hk | loop hk | condition hk | expression hk | assignment hk | element hk =>
      rw [hret] at hk
      cases hk
  · exact Site.returnsFit_of_ne hret

/-- The variables of a method and its code have no type void. -/
structure Method.VoidFree (m : Method) : Prop where
  vars : ∀ x ∈ m.params ++ m.locals, x.type ≠ .void
  code : ThreeAddress.VoidFree m.code

/-- Every expression in the body of a method whose value is used has one. -/
def usesValues (T : ClassTable) (member : Ast) : Bool :=
  match member.kind.methodName? with
  | none => true
  | some name => member.children.all fun t => t.everyValue (hasValue T name)

theorem varsOf_ne_void {symbols : List Symbol} {vars : List Var} (h : varsOf symbols = .ok vars)
    (hsymbols : ∀ s ∈ symbols, s.type.isVoid = false) : ∀ x ∈ vars, x.type ≠ .void := by
  induction symbols generalizing vars with
  | nil =>
    cases Except.ok.inj h
    simp
  | cons s ss ih =>
    obtain ⟨type, htype, h⟩ := Meaning.except_bind_eq_ok.mp h
    obtain ⟨rest, hrest, h⟩ := Meaning.except_bind_eq_ok.mp h
    cases Except.ok.inj h
    intro x hx
    rcases List.mem_cons.mp hx with rfl | hx
    · exact ofType_ne_void htype (hsymbols s List.mem_cons_self)
    · exact ih hrest (fun s hs => hsymbols s (List.mem_cons_of_mem _ hs)) x hx

theorem closeBody_voidFree (result : ValueType) (code : List Instr) :
    VoidFree (closeBody result code) ↔ VoidFree code := by
  rcases Meaning.closeBody_cases result code with ⟨-, heq⟩ | ⟨-, heq⟩ | ⟨-, heq, -⟩
  · rw [heq]
  · rw [heq, voidFree_append]
    simp [Instr.types]
  · rw [heq]

/-- **The code of an accepted method is free of void values exactly if every expression in it has a
value whose value is used.** -/
theorem lowerMethod_voidFree {T : ClassTable} (hT : T.DeclaresValues) {info : MethodInfo}
    (hinfo : T.method? info.name = some info) {ts : List Ast}
    (hts : ∀ t ∈ ts, (checkStatement (contextOf T info.name info) t).Gives ()) {m : Method}
    (h : lowerMethod T info ts = .ok m) :
    m.VoidFree ↔ ∀ t ∈ ts, t.everyValue (hasValue T info.name) = true := by
  obtain ⟨code, f, hcode, -, hparams, hlocals, -, -, hclose⟩ := lowerMethod_eq_ok h
  have hbody : VoidFree code ↔ ∀ t ∈ ts, t.everyValue (hasValue T info.name) = true := by
    refine lowerStatements_voidFree_of (fun t ht _ _ _ h => ?_) hcode
    have hadmits : Site.Admits ⟨T, info⟩ t := admits_of_accepted (hts t ht)
    have hreturns : t.everywhere (Site.returnsFit ⟨T, info⟩) = true :=
      everywhere_of_accepted rfl (fun _ _ h => returnsFit_of_infer h)
        (fun _ h => returnsFit_of_check h) (hts t ht)
    exact lowerStatement_voidFree hT hadmits hreturns h
  have hdeclared := hT.frames info (ClassTable.method?_mem hinfo)
  have hvars : ∀ x ∈ m.params ++ m.locals, x.type ≠ .void := by
    intro x hx
    rcases List.mem_append.mp hx with hx | hx
    · exact varsOf_ne_void hparams (fun s hs => hdeclared s (List.mem_append_left _ hs)) x hx
    · exact varsOf_ne_void hlocals (fun s hs => hdeclared s (List.mem_append_right _ hs)) x hx
  rw [← hbody, ← closeBody_voidFree m.result, ← hclose]
  exact ⟨fun h => h.code, fun h => ⟨hvars, h⟩⟩

/-- **The code of an accepted class.**  No field is void, and a method is free of void values
exactly if every expression in it has a value whose value is used. -/
theorem lowerClass_voidFree {T : ClassTable} {t c : Ast} {code : ClassCode}
    (htable : (ClassTable.ofTree t).Gives T) (hcheck : (checkClass T t).Gives ())
    (hT : T.DeclaresValues) (hc : t.classTree = .ok c) (h : lowerClass T t = .ok code) :
    (∀ x ∈ code.fields, x.type ≠ .void) ∧
      List.Forall₂ (fun member m => m.VoidFree ↔ usesValues T member = true) c.methods
        code.methods := by
  obtain ⟨hfields, hmethods⟩ := Machine.lowerClass_eq_ok hc h
  refine ⟨varsOf_ne_void hfields hT.fields, ?_⟩
  have hmembers : ∀ member ∈ c.methods, member ∈ c.children := fun _ h => List.mem_of_mem_filter h
  refine ((List.forall₂_and_left _ _).mpr ⟨hmembers, lowerMethods_forall₂ hmethods⟩).imp ?_
  rintro member m ⟨hmember, info, hname, hinfo, hm⟩
  obtain ⟨info', hinfo', hbody⟩ := body_of_accepted htable hcheck hc hmember hname
  cases Option.some.inj (hinfo.symm.trans hinfo')
  rw [lowerMethod_voidFree hT hinfo hbody hm, usesValues, hname]
  exact List.all_eq_true.symm

end ThreeAddress
end ClassCompiler
