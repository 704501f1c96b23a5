import ClassCompiler.Proofs.ThreeAddress.Lower
import ClassCompiler.Proofs.ThreeAddress.Succeed

/-!
# The types of lowered values

What type the value of an expression has when it is lowered can be read off the tree.  It is not
always the type that the checker gives the expression: a call of a method that the class does not
declare has the type that its place expects, and that of an integer where nothing is expected.

* `valueType?`: the type of the value of an expression.
* `namesClass`: an expression that has a class for its value.
* `Site.admits`: what the checker sees to at a node.
* `lowerExpr_type`: lowering gives values of these types.
-/

namespace ClassCompiler
namespace ThreeAddress

/-- The type of the value of an expression without operands. -/
def leafType? (T : ClassTable) (method : String) : Kind → Option ValueType
  | .integer _ => some .int
  | .boolean _ => some .bool
  | .string _ => some .string
  | .this => some (.object T.className)
  | .className name => some (.object name)
  | .newObject name => some (.object name)
  | .identifier name =>
    match T.resolve? method name with
    | some (_, symbol) => (ValueType.ofType symbol.type).toOption
    | none => some (.object name)
  | _ => none

/-- The type of the value of an expression in a method, given the type that its place expects. -/
def valueType? (T : ClassTable) (method : String) (expected : Option ValueType) :
    Ast → Option ValueType
  | .node n ts =>
    match n.kind with
    | .parenthesis =>
      match ts with
      | [] => none
      | t :: _ => valueType? T method expected t
    | .binary op => some (resultType op)
    | .negation => some .bool
    | .arrayAccess => some .int
    | .arrayLength => some .int
    | .newArray => some .intArray
    | .invocation callee =>
      match ts with
      | [] => none
      | t :: _ =>
        if valueType? T method none t = some (.object T.className) then
          match T.method? callee with
          | some info => (ValueType.ofType info.returnType).toOption
          | none => some (expected.getD .int)
        else some (expected.getD .int)
    | kind => leafType? T method kind

/-- A name that is no variable, whatever stands around it. -/
def namesClass (T : ClassTable) (method : String) : Ast → Bool
  | .node n ts =>
    match n.kind with
    | .className _ => true
    | .identifier name => (T.resolve? method name).isNone
    | .parenthesis =>
      match ts with
      | [] => false
      | t :: _ => namesClass T method t
    | .condition =>
      match ts with
      | [] => false
      | t :: _ => namesClass T method t
    | _ => false

namespace Site

/-- A name that means a field of the class. -/
def isField (Γ : Site) (name : String) : Bool :=
  match Γ.table.resolve? Γ.info.name name with
  | some (.field, _) => true
  | _ => false

theorem isField_of_resolve? {Γ : Site} {name : String} {symbol : Symbol}
    (h : Γ.table.resolve? Γ.info.name name = some (.field, symbol)) : Γ.isField name = true := by
  unfold isField
  rw [h]

/-- What the checker sees to at a node of a method: there is a receiver where one is used, and a
class is visible where it is named. -/
def admits (Γ : Site) : Kind → Bool
  | .this => !Γ.info.isStatic
  | .className name => (Γ.table.classReference? name).isSome
  | .newObject name => (Γ.table.classReference? name).isSome
  | .identifier name => !(Γ.info.isStatic && Γ.isField name)
  | .assignment name => !(Γ.info.isStatic && Γ.isField name)
  | .arrayAssignment name => !(Γ.info.isStatic && Γ.isField name)
  | _ => true

/-- Every node of a tree that is read is admitted. -/
def Admits (Γ : Site) (t : Ast) : Prop :=
  t.everywhere (fun u => Γ.admits u.kind) = true

theorem Admits.root {Γ : Site} {n : Numbered} {ts : List Ast} (h : Γ.Admits (.node n ts))
    {kind : Kind} (hk : n.kind = kind) : Γ.admits kind = true := by
  rw [← hk]
  exact (Tree.everywhere_node.mp h).1

theorem Admits.below {Γ : Site} {n : Numbered} {ts : List Ast} (h : Γ.Admits (.node n ts))
    {kind : Kind} (hk : n.kind = kind) : ∀ u ∈ kind.used ts, Γ.Admits u := by
  rw [← hk]
  exact (Tree.everywhere_node.mp h).2

end Site

/-! ## What is accepted is admitted -/

section

open Typing

variable {Γ : Site}

/-- A field is not used in a static method. -/
theorem admits_resolved {name : String} {scope : Scope} {symbol : Symbol}
    (hres : Γ.table.resolve? Γ.info.name name = some (scope, symbol))
    (hstatic : scope = .field → Γ.info.isStatic = false) :
    (!(Γ.info.isStatic && Γ.isField name)) = true := by
  by_cases hfield : scope = .field
  · simp [hstatic hfield]
  · have hname : Γ.isField name = false := by
      unfold Site.isField
      rw [hres]
      cases scope <;> simp_all
    simp [hname]

theorem admits_of_infer {t : Ast} {type : Ty} (h : (infer Γ.context t).Gives (some type)) :
    Γ.admits t.kind = true := by
  obtain ⟨n, ts⟩ := t
  obtain ⟨_, -, htyped⟩ := infer_cases h
  show Γ.admits n.kind = true
  change Types Γ.context n ts _ at htyped
  cases htyped with
  | this hk hstatic =>
    have hstatic : Γ.info.isStatic = false := hstatic
    rw [hk]
    show (!Γ.info.isStatic) = true
    rw [hstatic]
    rfl
  | className hk hclass | newObject hk hclass =>
    rw [hk]
    exact Option.isSome_iff_exists.mpr ⟨_, hclass⟩
  | «variable» hk hres hstatic =>
    rw [hk]
    exact admits_resolved hres hstatic
  | @classRef name _ _ hk hres _ =>
    have hres : Γ.table.resolve? Γ.info.name name = none := hres
    have hname : Γ.isField name = false := by
      unfold Site.isField
      rw [hres]
    rw [hk]
    show (!(Γ.info.isStatic && Γ.isField name)) = true
    simp [hname]
  | integer hk | boolean hk | string hk | parenthesis hk | binary hk | negation hk
  | arrayAccess hk | arrayLength hk | newArray hk | invocation hk =>
    rw [hk]
    rfl

theorem admits_of_check {t : Ast} (h : (checkStatement Γ.context t).Gives ()) :
    Γ.admits t.kind = true := by
  obtain ⟨n, ts⟩ := t
  show Γ.admits n.kind = true
  cases checkStatement_cases h with
  | assignment hk hres hstatic | element hk hres hstatic =>
    rw [hk]
    exact admits_resolved hres hstatic
  | effect hk he => exact admits_of_infer he
  | declaration hk =>
    cases hkind : n.kind <;> rw [hkind] at hk <;> simp only [Kind.writtenType?, reduceCtorEq] at hk
    all_goals rfl
  | sequence hk =>
    rcases hk with hk | hk | hk <;> rw [hk] <;> rfl
  | conditional hk | loop hk | condition hk | expression hk | returnOutside hk | returnNone hk
  | returnSome hk =>
    rw [hk]
    rfl

/-- **A statement that is accepted is admitted.** -/
theorem admits_of_accepted {t : Ast} (h : (checkStatement Γ.context t).Gives ()) : Γ.Admits t :=
  everywhere_of_accepted rfl (fun _ _ h => admits_of_infer h) (fun _ h => admits_of_check h) h

end

/-! ## Lowering -/

variable {Γ : Site} {f f' : Fresh}

/-- The type that a call gives. -/
theorem callResult_eq_ok {target : Operand} {method : String} {expected : Option ValueType}
    {result : ValueType} (h : callResult (Γ.callee? target method) expected = .ok result) :
    (∃ info, target.type = .object Γ.table.className ∧ Γ.table.method? method = some info ∧
      ValueType.ofType info.returnType = .ok result) ∨
    ((target.type = .object Γ.table.className → Γ.table.method? method = none) ∧
      result = expected.getD .void) := by
  unfold Site.callee? at h
  by_cases hown : Γ.isOwn target = true
  · rw [if_pos hown] at h
    have htype := Site.isOwn_eq_true.mp hown
    cases hinfo : Γ.table.method? method with
    | some info =>
      rw [hinfo] at h
      exact .inl ⟨info, htype, rfl, h⟩
    | none =>
      rw [hinfo] at h
      exact .inr ⟨fun _ => rfl, (Except.ok.inj h).symm⟩
  · rw [if_neg hown] at h
    refine .inr ⟨fun htype => absurd (Site.isOwn_eq_true.mpr htype) hown, ?_⟩
    exact (Except.ok.inj h).symm

/-- **The type of a lowered value is that of its tree.** -/
theorem lowerExpr_type {t : Ast} (ht : Γ.Admits t) {expected : Option ValueType} {v : Lowered}
    (hlower : (lowerExpr Γ expected t).run f = .ok (v, f')) :
    valueType? Γ.table Γ.info.name expected t = some v.value.type := by
  induction t using Tree.induction generalizing expected f v f' with
  | node n ts ih =>
    rw [valueType?.eq_def]
    cases lowerExpr_cases hlower with
    | integer hk | boolean hk | string hk | this hk | className hk | newObject hk | binary hk
    | negation hk | arrayAccess hk | arrayLength hk | newArray hk =>
      simp only [hk]
      rfl
    | @«variable» name scope symbol type _ hk hres _ htype =>
      simp only [hk]
      unfold leafType?
      simp only [hres, htype]
      rfl
    | @field name symbol type _ hk hres _ htype =>
      simp only [hk]
      unfold leafType?
      simp only [hres, htype]
      rfl
    | @classRef name _ hk hres _ =>
      have hnone : Γ.table.resolve? Γ.info.name name = none := by
        rcases hres with hres | ⟨symbol, hres, hstatic⟩
        · exact hres
        · have hallowed := ht.root hk
          simp [Site.admits, hstatic, Site.isField_of_resolve? hres] at hallowed
      simp only [hk]
      unfold leafType?
      simp only [hnone]
      rfl
    | parenthesis hk h =>
      have hinner := ht.below hk _ List.mem_cons_self
      simp only [hk]
      exact ih _ List.mem_cons_self hinner h
    | @invocation method _ code call f₁ hk h =>
      obtain ⟨u, rest, target, f₂, args, result, rfl, hu, -, hresult, -, rfl⟩ := lowerCall_eq_ok h
      have htarget := ih u List.mem_cons_self (ht.below hk u List.mem_cons_self) hu
      simp only [hk, htarget]
      show _ = some result
      rcases callResult_eq_ok hresult with ⟨info, hown, hinfo, htype⟩ | ⟨hnone, rfl⟩
      · simp only [hown, hinfo, htype, if_true]
        rfl
      · by_cases hown : target.value.type = .object Γ.table.className
        · simp only [hown, hnone hown, if_true, Option.getD_some]
        · rw [if_neg fun heq => hown (Option.some.inj heq), Option.getD_some]

end ThreeAddress
end ClassCompiler
