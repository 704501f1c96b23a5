import ClassCompiler.Proofs.Machine.Emit
import ClassCompiler.Proofs.ThreeAddress.ValueTypes

/-!
# Trees whose code can be selected

The checker does not look at everything that the machine asks for.  It takes the name of a class for
a value of the class, and it lets a method be called on whatever a method of another class gives,
although such a call has the type of an integer if nothing is expected of it.  These two are all:
code that was lowered from an accepted tree can be selected if no class is named where a value is
needed, and if what a method is called on is an object.

* `emits`: the two conditions on a node.
* `described_of_accepted`: the types of an accepted class have descriptors.
* `lowerExpr_selectable`, `lowerStatement_selectable`: code can be selected if its tree meets the
  conditions everywhere.
-/

namespace ClassCompiler

/-- The children whose values are needed, and not only computed. -/
def Kind.valued {α : Type} (kind : Kind) (ts : List α) : List α :=
  match kind with
  | .binary _ | .arrayAccess | .arrayAssignment _ => ts.take 2
  | .negation | .arrayLength | .newArray => ts.take 1
  | .assignment _ | .ret | .conditional | .loop => ts.take 1
  | .invocation _ => ts.tail
  | _ => []

namespace Machine

open ThreeAddress
open Meaning (except_bind_eq_ok)

/-- A type whose values are objects. -/
def isObject : Option ValueType → Bool
  | some (.object _) => true
  | _ => false

/-- Where a method is called, it is called on an object. -/
def callsObject (T : ClassTable) (method : String) (kind : Kind) (ts : List Ast) : Bool :=
  match kind with
  | .invocation _ => ts.head?.all fun t => isObject (valueType? T method none t)
  | _ => true

/-- The machine has what a node of a method asks for: no class is named where a value is needed, and
a method is called on an object. -/
def emits (T : ClassTable) (method : String) : Ast → Bool
  | .node n ts =>
    (n.kind.valued ts).all (fun t => !namesClass T method t) && callsObject T method n.kind ts

/-! ## Types that have descriptors -/

/-- The machine has a descriptor for the values of a type. -/
def Described (T : ClassTable) (type : Ty) : Prop :=
  ∀ value, ValueType.ofType type = .ok value → describes T value = true

theorem hasPath_of_classReference? {T : ClassTable} {name : String}
    (h : (T.classReference? name).isSome = true) : T.hasPath name = true := by
  unfold ClassTable.classReference? at h
  unfold ClassTable.hasPath
  split at h
  · rename_i hsuper
    simp [hsuper]
  · split at h
    · rename_i himport
      simp [himport]
    · split at h
      · rename_i hown
        simp [hown]
      · cases h

/-- A type of objects is not built in. -/
theorem ofType_eq_object {type : Ty} {name : String}
    (h : ValueType.ofType type = .ok (.object name)) :
    type.name = name ∧ type.isArray = false ∧ type.name ≠ "int" ∧ type.name ≠ "boolean" ∧
      type.name ≠ "void" ∧ type.name ≠ "String" := by
  unfold ValueType.ofType at h
  split_ifs at h <;> simp_all

/-- A type that may be written has a descriptor. -/
theorem described_of_checkDeclared {Γ : Typing.Context} {n : Numbered} {type : TypeName}
    (h : (Γ.checkDeclared n type).Gives ()) : Described Γ.table (.ofDeclared type) := by
  intro value hvalue
  cases value with
  | object name =>
    obtain ⟨hname, harray, hint, hboolean, hvoid, hstring⟩ := ofType_eq_object hvalue
    change type.name = name at hname
    change type.isArray = false at harray
    subst hname
    refine hasPath_of_classReference? ?_
    have hreference : ¬ (type.name = "int" ∨ type.name = "String") := not_or.mpr ⟨hint, hstring⟩
    have hplain : ¬ type.isArray = true := by simp [harray]
    have hclass : ¬ (type.name = "boolean" ∨ type.name = "void") := not_or.mpr ⟨hboolean, hvoid⟩
    unfold Typing.Context.checkDeclared at h
    rw [if_neg hreference, if_neg hplain, if_neg hclass] at h
    split at h
    · assumption
    · exact absurd h (Checked.not_report_gives rfl)
  | _ => rfl

/-- **The types of an accepted class have descriptors.** -/
theorem described_of_accepted {T : ClassTable} {t : Ast} (htable : (ClassTable.ofTree t).Gives T)
    (hcheck : (Typing.checkClass T t).Gives ()) : T.AllTypes (Described T) := by
  refine .of_accepted ?_ ?_ ?_ htable hcheck
  · rintro value hvalue
    cases Except.ok.inj hvalue
    rfl
  · rintro value hvalue
    cases Except.ok.inj hvalue
    rfl
  · rintro Γ n type rfl h
    exact described_of_checkDeclared h

/-! ## Operands -/

/-- A value that can be pushed, or a class, which the tree names then. -/
inductive PushedOrClass (isStatic : Bool) : Bool → Operand → Prop
  | pushed {o : Operand} (h : isPushed isStatic o = true) : PushedOrClass isStatic false o
  | named (name : String) : PushedOrClass isStatic true (.classRef name)

theorem PushedOrClass.isPushed_iff {isStatic named : Bool} {o : Operand}
    (h : PushedOrClass isStatic named o) : isPushed isStatic o = true ↔ named = false := by
  cases h with
  | pushed h => exact iff_of_true h rfl
  | named name => exact iff_of_false (by simp [isPushed]) (by simp)

variable {Γ : Site} {f f' : Fresh} {expected : Option ValueType} {v : ThreeAddress.Lowered}

theorem lowerExpr_pushed {t : Ast} (ht : Γ.Admits t)
    (hlower : (lowerExpr Γ expected t).run f = .ok (v, f')) :
    PushedOrClass Γ.info.isStatic (namesClass Γ.table Γ.info.name t) v.value := by
  induction t using Tree.induction generalizing expected f v f' with
  | node n ts ih =>
    rw [namesClass.eq_def]
    cases lowerExpr_cases hlower with
    | integer hk | boolean hk | string hk | newObject hk | binary hk | negation hk
    | arrayAccess hk | arrayLength hk | newArray hk | invocation hk =>
      simp only [hk]
      exact .pushed rfl
    | this hk =>
      have hstatic : (!Γ.info.isStatic) = true := ht.root hk
      simp only [hk]
      exact .pushed hstatic
    | className hk =>
      simp only [hk]
      exact .named _
    | «variable» hk hres | field hk hres =>
      simp only [hk, hres]
      exact .pushed rfl
    | @classRef name _ hk hres _ =>
      have hnone : Γ.table.resolve? Γ.info.name name = none := by
        rcases hres with hres | ⟨symbol, hres, hstatic⟩
        · exact hres
        · have hallowed := ht.root hk
          simp [Site.admits, hstatic, Site.isField_of_resolve? hres] at hallowed
      simp only [hk, hnone]
      exact .named name
    | parenthesis hk h =>
      simp only [hk]
      exact ih _ List.mem_cons_self (ht.below hk _ List.mem_cons_self) h

/-- What is expected has a descriptor. -/
def Expectable (T : ClassTable) (expected : Option ValueType) : Prop :=
  ∀ type ∈ expected, describes T type = true

theorem expectable_none {T : ClassTable} : Expectable T none :=
  fun _ h => absurd h (by simp)

theorem expectable_some {T : ClassTable} {type : ValueType} (h : describes T type = true) :
    Expectable T (some type) := by
  intro given hgiven
  cases Option.some.inj (Option.mem_def.mp hgiven)
  exact h

theorem describes_operandType (T : ClassTable) (op : BinaryOp) :
    describes T (operandType op) = true := by
  cases op <;> rfl

theorem describes_resultType (T : ClassTable) (op : BinaryOp) :
    describes T (resultType op) = true := by
  cases op <;> rfl

/-- The type that a call gives has a descriptor. -/
theorem describes_callResult (hT : Γ.table.AllTypes (Described Γ.table)) {target : Operand}
    {method : String} (hexpected : Expectable Γ.table expected) {result : ValueType}
    (h : callResult (Γ.callee? target method) expected = .ok result) :
    describes Γ.table result = true := by
  rcases callResult_eq_ok h with ⟨info, -, hinfo, htype⟩ | ⟨-, rfl⟩
  · exact hT.methods info (ClassTable.method?_mem hinfo) _ List.mem_cons_self result htype
  · cases expected with
    | none => rfl
    | some type => exact hexpected type rfl

/-- **The type of a lowered value has a descriptor.** -/
theorem lowerExpr_described (hT : Γ.table.AllTypes (Described Γ.table)) {t : Ast}
    (ht : Γ.Admits t) (hexpected : Expectable Γ.table expected)
    (hlower : (lowerExpr Γ expected t).run f = .ok (v, f')) :
    describes Γ.table v.value.type = true := by
  induction t using Tree.induction generalizing expected f v f' with
  | node n ts ih =>
    cases lowerExpr_cases hlower with
    | integer _ | boolean _ | string _ | negation _ | arrayAccess _ | arrayLength _
    | newArray _ => rfl
    | binary hk => exact describes_resultType Γ.table _
    | this hk =>
      show Γ.table.hasPath Γ.table.className = true
      simp [ClassTable.hasPath]
    | className hk | newObject hk => exact hasPath_of_classReference? (ht.root hk)
    | «variable» hk hres _ htype | field hk hres _ htype => exact hT.resolve? hres _ htype
    | classRef hk _ hclass => exact hasPath_of_classReference? hclass
    | parenthesis hk h =>
      exact ih _ List.mem_cons_self (ht.below hk _ List.mem_cons_self) hexpected h
    | invocation hk h =>
      obtain ⟨u, rest, target, f₂, args, result, rfl, -, -, hresult, -, rfl⟩ := lowerCall_eq_ok h
      refine describes_callResult hT (expectable_some ?_) hresult
      cases expected with
      | none => rfl
      | some type => exact hexpected type rfl

/-! ## Calls -/

/-- A target can be selected if it is an object. -/
theorem selectableTarget_iff {isStatic named : Bool} {T : ClassTable} {c : Call}
    (hkind : c.kind = callKind c.target) (hpushed : PushedOrClass isStatic named c.target)
    (hdescribed : describes T c.target.type = true) :
    selectableTarget T isStatic c = true ↔ isObject (some c.target.type) = true := by
  obtain ⟨kind, target, method, args, params, result⟩ := c
  dsimp only at hkind hpushed hdescribed
  subst hkind
  cases hpushed with
  | named name => exact iff_of_true hdescribed rfl
  | pushed h =>
    have hmembers : hasMembers T target.type = true ↔ isObject (some target.type) = true := by
      cases htype : target.type with
      | object name =>
        rw [htype] at hdescribed
        exact iff_of_true hdescribed rfl
      | _ => exact Iff.rfl
    have hvirtual : callKind target = .virtual := by
      cases target with
      | classRef name => cases h
      | _ => rfl
    unfold selectableTarget
    simp only [hvirtual, h, Bool.true_and]
    exact hmembers

/-- What the arguments of a call are lowered to. -/
structure SelectsArgs (Γ : Site) (ts : List Ast) (args : LoweredArgs) : Prop where
  code : args.code.all (selectable Γ.table Γ.info.isStatic) = true ↔
    ∀ t ∈ ts, t.everywhere (emits Γ.table Γ.info.name) = true
  pushed : args.args.all (isPushed Γ.info.isStatic) = true ↔
    ∀ t ∈ ts, namesClass Γ.table Γ.info.name t = false
  described : args.params.all (describes Γ.table) = true
  length : args.params.length = args.args.length

theorem lowerArgs_selectable {ts : List Ast}
    (hT : Γ.table.AllTypes (Described Γ.table)) (hts : ∀ t ∈ ts, Γ.Admits t)
    (h : ∀ t ∈ ts, ∀ expected f v f', Expectable Γ.table expected →
      (lowerExpr Γ expected t).run f = .ok (v, f') →
      (v.code.all (selectable Γ.table Γ.info.isStatic) = true ↔
        t.everywhere (emits Γ.table Γ.info.name) = true))
    {declared : List Symbol} (hdeclared : ∀ s ∈ declared, Described Γ.table s.type)
    {args : LoweredArgs} (hargs : (lowerArgs Γ declared ts).run f = .ok (args, f')) :
    SelectsArgs Γ ts args := by
  induction ts generalizing declared f args with
  | nil =>
    obtain ⟨rfl, -⟩ := lowerArgs_nil_eq_ok hargs
    exact ⟨by simp, by simp, rfl, rfl⟩
  | cons t ts ih =>
    obtain ⟨param, arg, f₁, rest, hparam, harg, hrest, rfl⟩ := lowerArgs_cons_eq_ok hargs
    have hexpected : Expectable Γ.table param := by
      cases declared with
      | nil =>
        cases Except.ok.inj hparam
        exact expectable_none
      | cons s ss =>
        obtain ⟨type, htype, hparam⟩ := except_bind_eq_ok.mp hparam
        cases Except.ok.inj hparam
        exact expectable_some (hdeclared s List.mem_cons_self type htype)
    have htype := lowerExpr_described hT (hts t List.mem_cons_self) hexpected harg
    have hpushed := (lowerExpr_pushed (hts t List.mem_cons_self) harg).isPushed_iff
    have hcode := h t List.mem_cons_self _ _ _ _ hexpected harg
    have hlater := ih (fun u hu => hts u (List.mem_cons_of_mem t hu))
      (fun u hu => h u (List.mem_cons_of_mem t hu))
      (fun s hs => hdeclared s (List.mem_of_mem_tail hs)) hrest
    constructor
    case code =>
      rw [List.all_append, Bool.and_eq_true, hcode, hlater.code, List.forall_mem_cons]
    case pushed =>
      rw [List.all_cons, Bool.and_eq_true, hpushed, hlater.pushed, List.forall_mem_cons]
    case described =>
      have hfirst : describes Γ.table (param.getD arg.value.type) = true := by
        cases param with
        | none => exact htype
        | some type => exact hexpected type rfl
      rw [List.all_cons, Bool.and_eq_true]
      exact ⟨hfirst, hlater.described⟩
    case length => rw [List.length_cons, List.length_cons, hlater.length]

/-- The parameters of a callee have descriptors. -/
theorem described_paramsOf (hT : Γ.table.AllTypes (Described Γ.table)) {target : Operand}
    {method : String} {s : Symbol} (hs : s ∈ paramsOf (Γ.callee? target method)) :
    Described Γ.table s.type := by
  unfold Site.callee? at hs
  split at hs
  · cases hinfo : Γ.table.method? method with
    | none =>
      rw [hinfo] at hs
      exact absurd hs List.not_mem_nil
    | some info =>
      rw [hinfo] at hs
      refine hT.methods info (ClassTable.method?_mem hinfo) _ (List.mem_cons_of_mem _ ?_)
      exact List.mem_map_of_mem (List.mem_append_left _ hs)
  · exact absurd hs List.not_mem_nil

/-- A call can be selected if its target is an object, and its arguments are values. -/
theorem lowerCall_selectable {n : Numbered} {method : String} {ts : List Ast}
    (hk : n.kind = .invocation method) (hT : Γ.table.AllTypes (Described Γ.table))
    (ht : Γ.Admits (.node n ts)) (hexpected : Expectable Γ.table expected)
    (h : ∀ t ∈ ts, ∀ expected f v f', Expectable Γ.table expected →
      (lowerExpr Γ expected t).run f = .ok (v, f') →
      (v.code.all (selectable Γ.table Γ.info.isStatic) = true ↔
        t.everywhere (emits Γ.table Γ.info.name) = true))
    {code : List Instr} {call : Call}
    (hcall : (lowerCall Γ n method expected ts).run f = .ok ((code, call), f')) :
    (code.all (selectable Γ.table Γ.info.isStatic) = true ∧
      selectableCall Γ.table Γ.info.isStatic call = true) ↔
    (Tree.node n ts : Ast).everywhere (emits Γ.table Γ.info.name) = true := by
  obtain ⟨t, rest, target, f₁, args, result, rfl, htarget, hargs, hresult, rfl, rfl⟩ :=
    lowerCall_eq_ok hcall
  have hadmits : ∀ u ∈ t :: rest, Γ.Admits u := ht.below hk
  have ht' := hadmits t List.mem_cons_self
  have hcode := h t List.mem_cons_self _ _ _ _ expectable_none htarget
  have htype := lowerExpr_type ht' htarget
  have hselect := selectableTarget_iff (T := Γ.table)
    (c := { kind := callKind target.value, target := target.value, method, args := args.args,
            params := args.params, result }) rfl (lowerExpr_pushed ht' htarget)
    (lowerExpr_described hT ht' expectable_none htarget)
  have hrest := lowerArgs_selectable hT (fun u hu => hadmits u (List.mem_cons_of_mem t hu))
    (fun u hu => h u (List.mem_cons_of_mem t hu)) (fun s hs => described_paramsOf hT hs) hargs
  have hresult := describes_callResult hT hexpected hresult
  have hlength : (args.params.length == args.args.length) = true := beq_iff_eq.mpr hrest.length
  have hroot : emits Γ.table Γ.info.name (.node n (t :: rest)) = true ↔
      (∀ u ∈ rest, namesClass Γ.table Γ.info.name u = false) ∧
        isObject (some target.value.type) = true := by
    simp [emits, hk, Kind.valued, callsObject, htype]
  rw [Tree.everywhere_node, hroot, hk]
  simp only [selectableCall, List.all_append, Bool.and_eq_true, hcode, hrest.code, hselect,
    hrest.pushed, hrest.described, hresult, hlength, and_true]
  show _ ↔ _ ∧ ∀ u ∈ t :: rest, u.everywhere (emits Γ.table Γ.info.name) = true
  rw [List.forall_mem_cons]
  tauto

/-! ## Expressions -/

section

variable (hT : Γ.table.AllTypes (Described Γ.table))

include hT

/-- **The code of an expression can be selected if its tree can be emitted.** -/
theorem lowerExpr_selectable {t : Ast} (ht : Γ.Admits t) (hexpected : Expectable Γ.table expected)
    (hlower : (lowerExpr Γ expected t).run f = .ok (v, f')) :
    v.code.all (selectable Γ.table Γ.info.isStatic) = true ↔
      t.everywhere (emits Γ.table Γ.info.name) = true := by
  induction t using Tree.induction generalizing expected f v f' with
  | node n ts ih =>
    -- The code of a node with operands is theirs and one instruction more.
    have hsnoc {f₁ : Fresh} {code : List Instr} {type : ValueType} {rhs : Rhs} :
        (f₁.lowered code type rhs).code.all (selectable Γ.table Γ.info.isStatic) = true ↔
          code.all (selectable Γ.table Γ.info.isStatic) = true ∧
            selectableRhs Γ.table Γ.info.isStatic rhs = true := by
      simp [Fresh.lowered, List.all_append, selectable]
    have hleaf (hused : n.kind.used ts = []) (hvalued : n.kind.valued ts = [])
        (hcalls : callsObject Γ.table Γ.info.name n.kind ts = true) :
        (Tree.node n ts : Ast).everywhere (emits Γ.table Γ.info.name) = true := by
      rw [Tree.everywhere_node, hused, emits, hvalued, hcalls]
      simp
    cases lowerExpr_cases hlower with
    | integer hk | boolean hk | string hk | this hk | className hk | «variable» hk
    | classRef hk =>
      exact iff_of_true rfl (hleaf (by rw [hk]; rfl) (by rw [hk]; rfl) (by rw [hk]; rfl))
    | @field name symbol type _ hk hres hstatic htype =>
      rw [hsnoc]
      refine iff_of_true ⟨rfl, ?_⟩ (hleaf (by rw [hk]; rfl) (by rw [hk]; rfl) (by rw [hk]; rfl))
      simp [selectableRhs, Site.this, isPushed, hstatic, hasMembers, Operand.type,
        ClassTable.hasPath, hT.resolve? hres type htype]
    | newObject hk =>
      rw [hsnoc]
      refine iff_of_true ⟨rfl, ?_⟩ (hleaf (by rw [hk]; rfl) (by rw [hk]; rfl) (by rw [hk]; rfl))
      exact hasPath_of_classReference? (ht.root hk)
    | parenthesis hk h =>
      have hinner := ht.below hk _ List.mem_cons_self
      rw [ih _ List.mem_cons_self hinner hexpected h, Tree.everywhere_node, hk]
      simp [emits, hk, Kind.valued, Kind.used, callsObject]
    | @binary op l r rest left f₁ right f₂ hk hl hr =>
      have hadmits := ht.below hk
      have hleft := hadmits l (by simp [Kind.used])
      have hright := hadmits r (by simp [Kind.used])
      have hoperand := expectable_some (describes_operandType Γ.table op)
      rw [hsnoc, List.all_append, Bool.and_eq_true, ih l (by simp) hleft hoperand hl,
        ih r (by simp) hright hoperand hr, selectableRhs, Bool.and_eq_true,
        (lowerExpr_pushed hleft hl).isPushed_iff, (lowerExpr_pushed hright hr).isPushed_iff,
        Tree.everywhere_node, hk]
      simp only [emits, hk, Kind.valued, Kind.used, callsObject, List.take_succ_cons,
        List.take_zero, List.all_cons, List.all_nil, List.mem_cons, List.not_mem_nil, or_false,
        forall_eq_or_imp, forall_eq, Bool.and_true, Bool.and_eq_true, Bool.not_eq_true']
      tauto
    | @negation t rest inner f₁ hk h =>
      have hinner := ht.below hk t List.mem_cons_self
      rw [hsnoc, ih t List.mem_cons_self hinner (expectable_some rfl) h, selectableRhs,
        (lowerExpr_pushed hinner h).isPushed_iff, Tree.everywhere_node, hk]
      simp [emits, hk, Kind.valued, Kind.used, callsObject, and_comm]
    | @arrayLength t rest base f₁ hk h =>
      have hinner := ht.below hk t List.mem_cons_self
      rw [hsnoc, ih t List.mem_cons_self hinner expectable_none h, selectableRhs,
        (lowerExpr_pushed hinner h).isPushed_iff, Tree.everywhere_node, hk]
      simp [emits, hk, Kind.valued, Kind.used, callsObject, and_comm]
    | @newArray t rest length f₁ hk h =>
      have hinner := ht.below hk t List.mem_cons_self
      rw [hsnoc, ih t List.mem_cons_self hinner (expectable_some rfl) h, selectableRhs,
        (lowerExpr_pushed hinner h).isPushed_iff, Tree.everywhere_node, hk]
      simp [emits, hk, Kind.valued, Kind.used, callsObject, and_comm]
    | @arrayAccess a i rest base f₁ index f₂ array hk ha hi harray =>
      have hadmits := ht.below hk
      have hbase := hadmits a (by simp [Kind.used])
      have hindex := hadmits i (by simp [Kind.used])
      -- An array is in a variable, so its tree names no class.
      have hnamed : namesClass Γ.table Γ.info.name a = false := by
        refine (lowerExpr_pushed hbase ha).isPushed_iff.mp ?_
        rw [harray]
        rfl
      rw [hsnoc, List.all_append, Bool.and_eq_true,
        ih a (by simp) hbase (expectable_some rfl) ha,
        ih i (by simp) hindex (expectable_some rfl) hi, selectableRhs,
        (lowerExpr_pushed hindex hi).isPushed_iff, Tree.everywhere_node, hk]
      simp only [emits, hk, Kind.valued, Kind.used, callsObject, List.take_succ_cons,
        List.take_zero, List.all_cons, List.all_nil, List.mem_cons, List.not_mem_nil, or_false,
        forall_eq_or_imp, forall_eq, Bool.and_true, Bool.and_eq_true, Bool.not_eq_true', hnamed]
      tauto
    | invocation hk h =>
      have hresult : Expectable Γ.table (some (expected.getD .int)) := by
        refine expectable_some ?_
        cases expected with
        | none => rfl
        | some type => exact hexpected type rfl
      rw [hsnoc, selectableRhs]
      refine lowerCall_selectable hk hT ht hresult (fun u hu _ _ _ _ hexpected h => ?_) h
      exact ih u hu (ht.below hk u hu) hexpected h

/-- A condition, or an expression in its place. -/
theorem lowerCondition_selectable {t : Ast} (ht : Γ.Admits t)
    (hlower : (lowerCondition Γ t).run f = .ok (v, f')) :
    (v.code.all (selectable Γ.table Γ.info.isStatic) = true ↔
      t.everywhere (emits Γ.table Γ.info.name) = true) ∧
    (isPushed Γ.info.isStatic v.value = true ↔ namesClass Γ.table Γ.info.name t = false) := by
  obtain ⟨n, ts⟩ := t
  rcases lowerCondition_eq_ok hlower with ⟨t, rest, hk, rfl, h⟩ | ⟨hk, h⟩
  · have hinner := ht.below hk t List.mem_cons_self
    have hname : namesClass Γ.table Γ.info.name (.node n (t :: rest)) =
        namesClass Γ.table Γ.info.name t := by
      conv_lhs => rw [namesClass.eq_def]
      simp only [hk]
    rw [lowerExpr_selectable hT hinner (expectable_some rfl) h,
      (lowerExpr_pushed hinner h).isPushed_iff, Tree.everywhere_node, hname, hk]
    simp [emits, hk, Kind.valued, Kind.used, callsObject]
  · exact ⟨lowerExpr_selectable hT ht (expectable_some rfl) h,
      (lowerExpr_pushed ht h).isPushed_iff⟩

theorem lowerEffect_selectable {t : Ast} (ht : Γ.Admits t) {code : List Instr}
    (hlower : (lowerEffect Γ t).run f = .ok (code, f')) :
    code.all (selectable Γ.table Γ.info.isStatic) = true ↔
      t.everywhere (emits Γ.table Γ.info.name) = true := by
  induction t using Tree.induction generalizing code with
  | node n ts ih =>
    cases lowerEffect_cases hlower with
    | parenthesis hk h =>
      rw [ih _ List.mem_cons_self (ht.below hk _ List.mem_cons_self) h, Tree.everywhere_node, hk]
      simp [emits, hk, Kind.valued, Kind.used, callsObject]
    | invocation hk h =>
      rw [List.all_append, Bool.and_eq_true, List.all_cons, List.all_nil, Bool.and_true]
      refine lowerCall_selectable hk hT ht expectable_none (fun u hu _ _ _ _ hexpected h => ?_) h
      exact lowerExpr_selectable hT (ht.below hk u hu) hexpected h
    | value _ _ h =>
      rw [List.all_append, Bool.and_eq_true, lowerExpr_selectable hT ht expectable_none h]
      exact and_iff_left rfl

end

/-! ## Statements -/

/-- What is stored in a variable is pushed, or computed there. -/
theorem storeIn_selectable {T : ClassTable} {isStatic : Bool} (v : ThreeAddress.Lowered)
    (dest : Var) :
    (v.storeIn dest).all (selectable T isStatic) = true ↔
      v.code.all (selectable T isStatic) = true ∧ isPushed isStatic v.value = true := by
  have hcopy :
      (v.code ++ [Instr.assign dest (.operand v.value)]).all (selectable T isStatic) = true ↔
        v.code.all (selectable T isStatic) = true ∧ isPushed isStatic v.value = true := by
    simp [List.all_append, selectable, selectableRhs]
  unfold ThreeAddress.Lowered.storeIn
  split
  · rename_i result last rhs hvalue hlast
    split
    · -- The last instruction assigns elsewhere, and is selected as before.
      have hcode : v.code = v.code.dropLast ++ [.assign last rhs] :=
        (List.dropLast_append_getLast? _ hlast).symm
      have hpushed : isPushed isStatic v.value = true := by
        rw [hvalue]
        rfl
      rw [and_iff_left hpushed]
      conv_rhs => rw [hcode]
      rw [List.all_append, List.all_append]
      rfl
    · exact hcopy
  · exact hcopy

section

variable (hT : Γ.table.AllTypes (Described Γ.table))

include hT

/-- To read a field of the receiver can be selected, where there is one. -/
theorem lowerArray_selectable {name : String} {scope : Scope} {symbol : Symbol} {type : ValueType}
    (hallowed : (!(Γ.info.isStatic && Γ.isField name)) = true)
    (hres : Γ.table.resolve? Γ.info.name name = some (scope, symbol))
    (htype : ValueType.ofType symbol.type = .ok type) {code : List Instr} {array : Var}
    (h : (lowerArray Γ scope ⟨name, type⟩).run f = .ok ((code, array), f')) :
    code.all (selectable Γ.table Γ.info.isStatic) = true := by
  cases scope with
  | field =>
    have hstatic : Γ.info.isStatic = false := by
      simpa [Site.isField_of_resolve? hres] using hallowed
    obtain ⟨temp, f₁, htemp, h⟩ := Lowering.bind_eq_ok.mp h
    obtain ⟨heq, -⟩ := Lowering.pure_eq_ok.mp h
    obtain ⟨rfl, -⟩ := Prod.mk.inj heq
    simp [selectable, selectableRhs, Site.this, isPushed, hstatic, hasMembers, Operand.type,
      ClassTable.hasPath, hT.resolve? hres type htype]
  | «local» | parameter =>
    obtain ⟨heq, -⟩ := Lowering.pure_eq_ok.mp h
    obtain ⟨rfl, -⟩ := Prod.mk.inj heq
    rfl

omit hT in
theorem lowerStatements_selectable_of {ts : List Ast}
    (h : ∀ t ∈ ts, ∀ f code f', (lowerStatement Γ t).run f = .ok (code, f') →
      (code.all (selectable Γ.table Γ.info.isStatic) = true ↔
        t.everywhere (emits Γ.table Γ.info.name) = true))
    {code : List Instr} (hlower : (lowerStatements Γ ts).run f = .ok (code, f')) :
    code.all (selectable Γ.table Γ.info.isStatic) = true ↔
      ∀ t ∈ ts, t.everywhere (emits Γ.table Γ.info.name) = true := by
  induction ts generalizing f code with
  | nil =>
    obtain ⟨rfl, -⟩ := lowerStatements_nil_eq_ok hlower
    simp
  | cons t ts ih =>
    obtain ⟨first, f₁, rest, ht, hts, rfl⟩ := lowerStatements_cons_eq_ok hlower
    rw [List.all_append, Bool.and_eq_true, h t List.mem_cons_self _ _ _ ht,
      ih (fun u hu => h u (List.mem_cons_of_mem t hu)) hts, List.forall_mem_cons]

omit hT in
theorem lowerElse_selectable {ts : List Ast}
    (h : ∀ t ∈ ts, ∀ f code f', (lowerStatement Γ t).run f = .ok (code, f') →
      (code.all (selectable Γ.table Γ.info.isStatic) = true ↔
        t.everywhere (emits Γ.table Γ.info.name) = true))
    {code : List Instr} (hlower : (lowerElse Γ ts).run f = .ok (code, f')) :
    code.all (selectable Γ.table Γ.info.isStatic) = true ↔
      ∀ t ∈ ts.take 1, t.everywhere (emits Γ.table Γ.info.name) = true := by
  cases ts with
  | nil =>
    obtain ⟨rfl, -⟩ := Lowering.pure_eq_ok.mp hlower
    simp
  | cons e rest =>
    rw [h e List.mem_cons_self _ _ _ hlower]
    simp

/-- **The code of a statement can be selected if its tree can be emitted.** -/
theorem lowerStatement_selectable (hresult : Described Γ.table Γ.info.returnType) {t : Ast}
    (ht : Γ.Admits t) {code : List Instr}
    (hlower : (lowerStatement Γ t).run f = .ok (code, f')) :
    code.all (selectable Γ.table Γ.info.isStatic) = true ↔
      t.everywhere (emits Γ.table Γ.info.name) = true := by
  induction t using Tree.induction generalizing f code f' with
  | node n ts ih =>
    cases lowerStatement_cases hlower with
    | declaration hk =>
      refine iff_of_true rfl (Tree.everywhere_node.mpr ?_)
      cases hkind : n.kind <;> rw [hkind] at hk <;> simp only [Kind.isDeclaration,
        Bool.false_eq_true] at hk
      all_goals simp [emits, hkind, Kind.valued, Kind.used, callsObject]
    | sequence hk h =>
      have hall : n.kind.used ts = ts ∧ emits Γ.table Γ.info.name (.node n ts) = true := by
        rcases hk with hk | hk | hk <;>
          simp [hk, Kind.used, emits, Kind.valued, callsObject]
      obtain ⟨hused, hroot⟩ := hall
      rw [Tree.everywhere_node, hused, and_iff_right hroot]
      refine lowerStatements_selectable_of (fun u hu _ _ _ h => ih u hu ?_ h) h
      refine ht.below rfl u ?_
      rw [hused]
      exact hu
    | @conditional c t rest cond f₁ thenCode f₂ elseCode f₃ hk hc hthen helse =>
      have hadmits := ht.below hk
      obtain ⟨hcode, hpushed⟩ :=
        lowerCondition_selectable hT (hadmits c (by simp [Kind.used])) hc
      have hthen := ih t (by simp) (hadmits t (by simp [Kind.used])) hthen
      have helse : elseCode.all (selectable Γ.table Γ.info.isStatic) = true ↔
          ∀ e ∈ rest.take 1, e.everywhere (emits Γ.table Γ.info.name) = true := by
        cases rest with
        | nil => exact lowerElse_selectable (fun _ hu => absurd hu List.not_mem_nil) helse
        | cons e rest =>
          rw [ih e (by simp) (hadmits e (by simp [Kind.used])) helse]
          simp
      rw [Tree.everywhere_node, hk]
      simp only [conditionalCode, List.all_append, List.all_cons, List.all_nil, selectable,
        Bool.and_true, Bool.and_eq_true, hcode, hpushed, hthen, helse, emits, hk, Kind.valued,
        Kind.used, callsObject, List.take_succ_cons, List.take_zero, List.mem_cons,
        forall_eq_or_imp, Bool.not_eq_true']
      tauto
    | @loop c body first f₁ bodyCode f₂ again f₃ hk hc hb hc' =>
      have hadmits := ht.below hk
      have hcadmits := hadmits c List.mem_cons_self
      obtain ⟨hcode, hpushed⟩ := lowerCondition_selectable hT hcadmits hc
      obtain ⟨hcode', hpushed'⟩ := lowerCondition_selectable hT hcadmits hc'
      have hbody := lowerStatements_selectable_of (fun u hu _ _ _ h =>
        ih u (List.mem_cons_of_mem c hu) (hadmits u (List.mem_cons_of_mem c hu)) h) hb
      rw [Tree.everywhere_node, hk]
      simp only [loopCode, List.all_append, List.all_cons, List.all_nil, selectable,
        Bool.and_true, Bool.and_eq_true, hcode, hpushed, hbody, hcode', hpushed', emits, hk,
        Kind.valued, Kind.used, callsObject, List.take_succ_cons, List.take_zero, List.mem_cons,
        forall_eq_or_imp, Bool.not_eq_true']
      tauto
    | @expression e rest _ _ hk h =>
      rw [lowerEffect_selectable hT (ht.below hk e List.mem_cons_self) h, Tree.everywhere_node, hk]
      simp [emits, hk, Kind.valued, Kind.used, callsObject]
    | @«variable» name scope symbol type t rest v _ hk hres _ htype h =>
      have hinner := ht.below hk t List.mem_cons_self
      have hexpected := expectable_some (hT.resolve? hres type htype)
      rw [storeIn_selectable, lowerExpr_selectable hT hinner hexpected h,
        (lowerExpr_pushed hinner h).isPushed_iff, Tree.everywhere_node, hk]
      simp [emits, hk, Kind.valued, Kind.used, callsObject, and_comm]
    | @field name symbol type t rest v _ hk hres htype h =>
      have hinner := ht.below hk t List.mem_cons_self
      have hdescribed := hT.resolve? hres type htype
      have hstatic : Γ.info.isStatic = false := by
        have hallowed := ht.root hk
        simpa [Site.admits, Site.isField_of_resolve? hres] using hallowed
      have hput : selectable Γ.table Γ.info.isStatic (.putField Γ.this ⟨name, type⟩ v.value) =
          isPushed Γ.info.isStatic v.value := by
        simp [selectable, Site.this, isPushed, hstatic, hasMembers, Operand.type,
          ClassTable.hasPath, hdescribed]
      rw [List.all_append, Bool.and_eq_true, List.all_cons, List.all_nil, Bool.and_true, hput,
        lowerExpr_selectable hT hinner (expectable_some hdescribed) h,
        (lowerExpr_pushed hinner h).isPushed_iff, Tree.everywhere_node, hk]
      simp [emits, hk, Kind.valued, Kind.used, callsObject, and_comm]
    | @element name scope symbol type i e rest code array f₁ index f₂ value f₃ hk hres htype ha hi
        he =>
      have hadmits := ht.below hk
      have hindex := hadmits i (by simp [Kind.used])
      have hvalue := hadmits e (by simp [Kind.used])
      have harray := lowerArray_selectable hT (ht.root hk) hres htype ha
      rw [Tree.everywhere_node, hk]
      simp only [List.all_append, List.all_cons, List.all_nil, selectable, Bool.and_true,
        Bool.and_eq_true, harray, true_and,
        lowerExpr_selectable hT hindex (expectable_some rfl) hi,
        lowerExpr_selectable hT hvalue (expectable_some rfl) he,
        (lowerExpr_pushed hindex hi).isPushed_iff, (lowerExpr_pushed hvalue he).isPushed_iff,
        emits, hk, Kind.valued, Kind.used, callsObject, List.take_succ_cons, List.take_zero,
        List.mem_cons, List.not_mem_nil, or_false, forall_eq_or_imp, forall_eq,
        Bool.not_eq_true']
      tauto
    | returnNone hk =>
      refine iff_of_true rfl (Tree.everywhere_node.mpr ?_)
      simp [emits, hk, Kind.valued, Kind.used, callsObject]
    | @returnSome t rest type v _ hk htype h =>
      have hinner := ht.below hk t List.mem_cons_self
      have hexpected := expectable_some (hresult type htype)
      rw [List.all_append, Bool.and_eq_true, List.all_cons, List.all_nil, Bool.and_true,
        selectable, lowerExpr_selectable hT hinner hexpected h,
        (lowerExpr_pushed hinner h).isPushed_iff, Tree.everywhere_node, hk]
      simp [emits, hk, Kind.valued, Kind.used, callsObject, and_comm]
    | condition hk h =>
      rw [List.all_append, Bool.and_eq_true, (lowerCondition_selectable hT ht h).1]
      exact and_iff_left rfl
    | effect hk h => exact lowerEffect_selectable hT ht h

end

end Machine
end ClassCompiler
