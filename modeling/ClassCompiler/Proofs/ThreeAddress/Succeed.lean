import ClassCompiler.Proofs.Class.Declared
import ClassCompiler.ThreeAddress.Lower

/-!
# What is accepted can be lowered

Lowering fails on a tree that lacks a child, on a name that means nothing, on a type that has no
values and on an array that is in no variable.  The checker refuses all of these, each in its own
place: a missing child stops it, a name is reported where it is used and a type where it is
declared.  An array is in a variable because nothing of an array type is anything but a variable, a
field, a new array or the result of a call, and all but the first are assigned to a temporary.

* `ClassTable.Mappable`: every type of the table has values.
* `lowerExpr_succeeds`, `lowerStatement_succeeds`: along the cases of what is accepted.
* `lowerClass_succeeds`: the class of a tree.
-/

namespace ClassCompiler

open ThreeAddress

/-! ## Types that have values -/

/-- A type that there are values of. -/
def Ty.Mappable (t : Ty) : Prop :=
  ∃ type, ValueType.ofType t = .ok type

/-- Every type in the table has values. -/
structure ClassTable.Mappable (T : ClassTable) : Prop where
  fields : ∀ s ∈ T.fields, s.type.Mappable
  methods : ∀ info ∈ T.methods, ∀ type ∈ info.types, type.Mappable

/-- Only arrays of unusual elements have none. -/
theorem Ty.mappable_of {t : Ty} (h : t.isArray = true → t.name = "int" ∨ t.name = "String") :
    t.Mappable := by
  unfold Ty.Mappable ValueType.ofType
  split
  · rename_i harray
    split
    · exact ⟨_, rfl⟩
    · rw [if_pos ((h harray).resolve_left ‹_›)]
      exact ⟨_, rfl⟩
  · repeat' split
    all_goals exact ⟨_, rfl⟩

theorem Typing.Context.checkDeclared_gives {Γ : Typing.Context} {n : Numbered} {type : TypeName}
    (h : (Γ.checkDeclared n type).Gives ()) : (Ty.ofDeclared type).Mappable := by
  refine Ty.mappable_of fun harray => ?_
  unfold checkDeclared at h
  split at h
  · rename_i hname
    exact hname
  · rw [if_pos (show type.isArray = true from harray)] at h
    exact absurd h (Checked.not_report_gives rfl)

namespace ClassTable

variable {T : ClassTable}

/-- What a name is resolved to has values. -/
theorem Mappable.resolve? (hT : T.Mappable) {method name : String} {scope : Scope}
    {symbol : Symbol} (h : T.resolve? method name = some (scope, symbol)) :
    symbol.type.Mappable :=
  AllTypes.resolve? ⟨hT.fields, hT.methods⟩ h

theorem classReference?_isArray {name : String} {type : Ty}
    (h : T.classReference? name = some type) : type.isArray = false := by
  unfold classReference? at h
  grind

theorem classReference?_name {name : String} {type : Ty}
    (h : T.classReference? name = some type) : type.name = name := by
  unfold classReference? at h
  grind

/-- **The types of an accepted class have values.** -/
theorem mappable_of_accepted {t : Ast} (htable : (ofTree t).Gives T)
    (hcheck : (Typing.checkClass T t).Gives ()) : T.Mappable := by
  have htypes : T.AllTypes Ty.Mappable := .of_accepted ⟨.void, rfl⟩ ⟨.stringArray, rfl⟩
    (fun _ _ _ _ h => Typing.Context.checkDeclared_gives h) htable hcheck
  exact ⟨htypes.fields, htypes.methods⟩

end ClassTable

namespace ThreeAddress

open Checked Typing

/-! ## Lowerings that succeed -/

/-- A lowering succeeds from any supply of names, with a result of some property. -/
def Succeeds {α : Type} (x : Lowering α) (P : α → Prop) : Prop :=
  ∀ f, ∃ a f', x.run f = .ok (a, f') ∧ P a

namespace Succeeds

variable {α β : Type} {x : Lowering α} {P : α → Prop}

theorem pure {a : α} (h : P a) : Succeeds (pure a) P :=
  fun f => ⟨a, f, rfl, h⟩

theorem bind {g : α → Lowering β} {Q : β → Prop} (h : Succeeds x P)
    (h' : ∀ a, P a → Succeeds (g a) Q) : Succeeds (x >>= g) Q := by
  intro f
  obtain ⟨a, f₁, hx, ha⟩ := h f
  obtain ⟨b, f₂, hg, hb⟩ := h' a ha f₁
  refine ⟨b, f₂, ?_, hb⟩
  rw [StateT.run_bind, hx]
  exact hg

theorem mono {Q : α → Prop} (h : Succeeds x P) (hPQ : ∀ a, P a → Q a) : Succeeds x Q := by
  intro f
  obtain ⟨a, f', hx, ha⟩ := h f
  exact ⟨a, f', hx, hPQ a ha⟩

/-- The result of a lowering that succeeds has the property. -/
theorem of_eq_ok (h : Succeeds x P) {f f' : Fresh} {a : α} (hx : x.run f = .ok (a, f')) : P a := by
  obtain ⟨a', f'', hx', ha⟩ := h f
  rw [hx] at hx'
  cases Except.ok.inj hx'
  exact ha

theorem lift {y : Except Error α} {a : α} (h : y = .ok a) : Succeeds (liftExcept y) (· = a) := by
  intro f
  rw [h]
  exact ⟨a, f, rfl, rfl⟩

theorem label : Succeeds newLabel fun _ => True :=
  fun _ => ⟨_, _, rfl, trivial⟩

end Succeeds

/-- What the method is checked against. -/
def Site.context (Γ : Site) : Context :=
  contextOf Γ.table Γ.info.name Γ.info

variable {Γ : Site}

/-! ## Expressions -/

/-- An array is in a variable. -/
def Lowered.Holds (type : Ty) (v : Lowered) : Prop :=
  type.isArray = true → ∃ x, v.value = .var x

/-- What is assigned to a temporary is in a variable. -/
theorem assignTemp_succeeds {code : List Instr} {type : ValueType} {rhs : Rhs} {given : Ty} :
    Succeeds (assignTemp code type rhs) (Lowered.Holds given) :=
  fun _ => ⟨_, _, rfl, fun _ => ⟨_, rfl⟩⟩

theorem lowerClassName_succeeds {n : Numbered} {name : String} {type : Ty}
    (h : Γ.table.classReference? name = some type) :
    Succeeds (lowerClassName Γ n name) (Lowered.Holds type) := by
  unfold lowerClassName
  rw [if_pos (by rw [h]; rfl)]
  refine .pure fun harray => ?_
  rw [ClassTable.classReference?_isArray h] at harray
  exact absurd harray (by decide)

/-- A call belongs to the class if its target is of the type of the class. -/
theorem Site.isOwn_eq_true {o : Operand} :
    Γ.isOwn o = true ↔ o.type = .object Γ.table.className := by
  cases o <;> simp [isOwn, Operand.type]

theorem nextParam_succeeds {declared : List Symbol} (h : ∀ s ∈ declared, s.type.Mappable) :
    ∃ param, nextParam declared = .ok param := by
  cases declared with
  | nil => exact ⟨none, rfl⟩
  | cons s _ =>
    obtain ⟨type, htype⟩ := h s List.mem_cons_self
    exact ⟨some type, by rw [nextParam, htype]; rfl⟩

theorem lowerArgs_succeeds {ts : List Ast}
    (h : ∀ t ∈ ts, ∀ expected, Succeeds (lowerExpr Γ expected t) fun _ => True)
    {declared : List Symbol} (hdeclared : ∀ s ∈ declared, s.type.Mappable) :
    Succeeds (lowerArgs Γ declared ts) fun _ => True := by
  induction ts generalizing declared with
  | nil =>
    rw [lowerArgs]
    exact .pure trivial
  | cons t ts ih =>
    obtain ⟨param, hparam⟩ := nextParam_succeeds hdeclared
    rw [lowerArgs]
    refine .bind (.lift hparam) fun _ _ => ?_
    refine .bind (h t List.mem_cons_self _) fun _ _ => ?_
    refine .bind (ih (fun u hu => h u (List.mem_cons_of_mem t hu))
      fun s hs => hdeclared s (List.mem_of_mem_tail hs)) fun _ _ => .pure trivial

/-- A call whose target and arguments can be lowered. -/
theorem lowerCall_succeeds (hT : Γ.table.Mappable) {n : Numbered} {method : String}
    {expected : Option ValueType} {t : Ast} {args : List Ast}
    (h : ∀ u ∈ t :: args, ∀ expected, Succeeds (lowerExpr Γ expected u) fun _ => True) :
    Succeeds (lowerCall Γ n method expected (t :: args)) fun _ => True := by
  rw [lowerCall]
  refine .bind (h t List.mem_cons_self _) fun target _ => ?_
  -- The callee, if it is known, is a method of the class.
  have hcallee : ∀ info, Γ.callee? target.value method = some info → info ∈ Γ.table.methods := by
    intro info hinfo
    unfold Site.callee? at hinfo
    split at hinfo
    · exact ClassTable.method?_mem hinfo
    · cases hinfo
  refine .bind (lowerArgs_succeeds (fun u hu => h u (List.mem_cons_of_mem t hu)) fun s hs => ?_)
    fun _ _ => ?_
  · split at hs
    · rename_i info hinfo
      refine hT.methods info (hcallee info hinfo) s.type (List.mem_cons_of_mem _ ?_)
      exact List.mem_map_of_mem (List.mem_append_left _ hs)
    · exact absurd hs List.not_mem_nil
  · obtain ⟨result, hresult⟩ : ∃ result, callResult (Γ.callee? target.value method) expected =
        .ok result := by
      cases hinfo : Γ.callee? target.value method with
      | none => exact ⟨_, rfl⟩
      | some info => exact hT.methods info (hcallee info hinfo) _ List.mem_cons_self
    exact .bind (.lift hresult) fun _ _ => .pure trivial

/-- **An accepted expression can be lowered**, and an array is in a variable then. -/
theorem lowerExpr_succeeds (hT : Γ.table.Mappable) {t : Ast} {type : Ty}
    (htype : (infer Γ.context t).Gives (some type)) (expected : Option ValueType) :
    Succeeds (lowerExpr Γ expected t) (Lowered.Holds type) := by
  induction t using Tree.induction generalizing type expected with
  | node n ts ih =>
    obtain ⟨_, heq, htypes⟩ := infer_cases htype
    cases Option.some.inj heq
    rw [Tree.label, Tree.children] at htypes
    rw [lowerExpr.eq_def]
    cases htypes with
    | integer hk | boolean hk | string hk | this hk _ =>
      simp only [hk]
      refine .pure fun harray => ?_
      cases harray
    | className hk hclass =>
      simp only [hk]
      refine .pure fun harray => ?_
      rw [ClassTable.classReference?_isArray hclass] at harray
      cases harray
    | newObject hk _ =>
      simp only [hk]
      exact assignTemp_succeeds
    | @«variable» name scope symbol _ hk hres hstatic =>
      have hres' : Γ.table.resolve? Γ.info.name name = some (scope, symbol) := hres
      obtain ⟨type, htype⟩ := hT.resolve? hres'
      simp only [hk]
      change Succeeds (lowerIdentifier Γ n name) _
      simp only [lowerIdentifier, hres']
      refine .bind (.lift htype) fun _ heq => ?_
      cases scope with
      | field =>
        have hstatic' : Γ.info.isStatic = false := hstatic rfl
        simp only [hstatic']
        exact assignTemp_succeeds
      | «local» | parameter => exact .pure fun _ => ⟨_, rfl⟩
    | @classRef name _ _ hk hres hclass =>
      have hres' : Γ.table.resolve? Γ.info.name name = none := hres
      simp only [hk]
      change Succeeds (lowerIdentifier Γ n name) _
      simp only [lowerIdentifier, hres']
      exact lowerClassName_succeeds hclass
    | parenthesis hk h =>
      simp only [hk]
      exact ih _ List.mem_cons_self h expected
    | binary hk hl hr _ =>
      simp only [hk]
      refine .bind (ih _ List.mem_cons_self hl _) fun _ _ => ?_
      refine .bind (ih _ (by simp) hr _) fun _ _ => ?_
      exact assignTemp_succeeds
    | negation hk h _ | arrayLength hk h _ | newArray hk h _ =>
      simp only [hk]
      refine .bind (ih _ List.mem_cons_self h _) fun _ _ => ?_
      exact assignTemp_succeeds
    | arrayAccess hk ha hi hbase _ =>
      simp only [hk]
      refine .bind (ih _ List.mem_cons_self ha _) fun base hholds => ?_
      refine .bind (ih _ (by simp) hi _) fun _ _ => ?_
      -- The base is an array, so it is in a variable.
      obtain ⟨x, hx⟩ := hholds (Bool.and_eq_true_iff.mp hbase).1
      rw [hx]
      exact assignTemp_succeeds
    | invocation hk ht hargs _ =>
      simp only [hk]
      refine .bind (lowerCall_succeeds hT fun u hu expected => ?_) fun _ _ => assignTemp_succeeds
      rcases List.mem_cons.mp hu with rfl | hu'
      · exact (ih _ hu ht expected).mono fun _ _ => trivial
      · obtain ⟨type, htype⟩ := inferArgs_gives hargs u hu'
        exact (ih u hu htype expected).mono fun _ _ => trivial

/-- A condition that is accepted can be lowered. -/
theorem lowerCondition_succeeds (hT : Γ.table.Mappable) {t : Ast}
    (h : (checkCondition Γ.context t).Gives ()) :
    Succeeds (lowerCondition Γ t) fun _ => True := by
  obtain ⟨n, ts⟩ := t
  unfold lowerCondition
  rcases checkCondition_gives h with ⟨hk, t, rest, type, rfl, ht, -⟩ | ⟨hk, type, ht, -⟩
  · simp only [hk]
    exact (lowerExpr_succeeds hT ht _).mono fun _ _ => trivial
  · dsimp only
    split
    · exact absurd ‹n.kind = .condition› hk
    · exact (lowerExpr_succeeds hT ht _).mono fun _ _ => trivial

/-- An accepted expression can be lowered for its effect. -/
theorem lowerEffect_succeeds (hT : Γ.table.Mappable) {t : Ast} {type : Ty}
    (h : (infer Γ.context t).Gives (some type)) :
    Succeeds (lowerEffect Γ t) fun _ => True := by
  induction t using Tree.induction generalizing type with
  | node n ts ih =>
    rw [lowerEffect.eq_def]
    cases hk : n.kind with
    | parenthesis =>
      rw [infer.eq_def] at h
      simp only [hk] at h ⊢
      cases ts with
      | nil => exact absurd h not_fail_gives
      | cons t ts => exact ih t List.mem_cons_self h
    | invocation method =>
      rw [infer.eq_def] at h
      simp only [hk] at h ⊢
      cases ts with
      | nil => exact absurd h not_fail_gives
      | cons t args =>
        obtain ⟨found, ht, h⟩ := bind_gives.mp h
        obtain ⟨target, rfl, -⟩ := infer_cases ht
        obtain ⟨_, hargs, -⟩ := bind_gives.mp h
        refine .bind (lowerCall_succeeds hT fun u hu expected => ?_) fun _ _ => .pure trivial
        rcases List.mem_cons.mp hu with rfl | hu
        · exact (lowerExpr_succeeds hT ht expected).mono fun _ _ => trivial
        · obtain ⟨type, htype⟩ := inferArgs_gives hargs u hu
          exact (lowerExpr_succeeds hT htype expected).mono fun _ _ => trivial
    | _ =>
      simp only [hk]
      exact .bind (lowerExpr_succeeds hT h _) fun _ _ => .pure trivial

/-! ## Statements -/

theorem lowerStatements_succeeds_of {ts : List Ast}
    (h : ∀ t ∈ ts, Succeeds (lowerStatement Γ t) fun _ => True) :
    Succeeds (lowerStatements Γ ts) fun _ => True := by
  induction ts with
  | nil =>
    rw [lowerStatements]
    exact .pure trivial
  | cons t ts ih =>
    rw [lowerStatements]
    refine .bind (h t List.mem_cons_self) fun _ _ => ?_
    exact .bind (ih fun u hu => h u (List.mem_cons_of_mem t hu)) fun _ _ => .pure trivial

theorem target_eq_ok_of {n : Numbered} {name : String} {scope : Scope} {symbol : Symbol}
    {type : ValueType} (hres : Γ.table.resolve? Γ.info.name name = some (scope, symbol))
    (htype : ValueType.ofType symbol.type = .ok type) :
    Γ.target n name = .ok (scope, ⟨name, type⟩) := by
  unfold Site.target
  simp only [hres, htype]
  rfl

theorem lowerArray_succeeds (scope : Scope) (array : Var) :
    Succeeds (lowerArray Γ scope array) fun _ => True := by
  cases scope with
  | field => exact fun _ => ⟨_, _, rfl, trivial⟩
  | «local» | parameter => exact .pure trivial

/-- **An accepted statement can be lowered.** -/
theorem lowerStatement_succeeds (hT : Γ.table.Mappable) (hreturn : Γ.info.returnType.Mappable)
    {t : Ast} (hcheck : (checkStatement Γ.context t).Gives ()) :
    Succeeds (lowerStatement Γ t) fun _ => True := by
  induction t using Tree.induction with
  | node n ts ih =>
    rw [lowerStatement.eq_def]
    cases checkStatement_cases hcheck with
    | declaration hk _ =>
      cases hkind : n.kind <;> simp only [hkind, Kind.writtenType?, reduceCtorEq] at hk ⊢
      all_goals exact .pure trivial
    | sequence hk h =>
      rcases hk with hk | hk | hk <;> simp only [hk]
      all_goals exact lowerStatements_succeeds_of fun t ht => ih t ht (h t ht)
    | @conditional c t rest hk hc ht he =>
      simp only [hk]
      refine .bind .label fun _ _ => .bind (lowerCondition_succeeds hT hc) fun _ _ => ?_
      refine .bind (ih t (by simp) ht) fun _ _ => ?_
      cases rest with
      | nil => exact .bind (P := fun _ => True) (.pure trivial) fun _ _ => .pure trivial
      | cons e rest =>
        exact .bind (ih e (by simp) (he e rfl)) fun _ _ => .pure trivial
    | loop hk hc hb =>
      simp only [hk]
      refine .bind .label fun _ _ => .bind (lowerCondition_succeeds hT hc) fun _ _ => ?_
      refine .bind (lowerStatements_succeeds_of fun t ht =>
        ih t (List.mem_cons_of_mem _ ht) (hb t ht)) fun _ _ => ?_
      exact .bind (lowerCondition_succeeds hT hc) fun _ _ => .pure trivial
    | condition hk h =>
      simp only [hk]
      exact .bind (lowerCondition_succeeds hT h) fun _ _ => .pure trivial
    | expression hk h =>
      simp only [hk]
      exact lowerEffect_succeeds hT h
    | assignment hk hres _ h _ =>
      obtain ⟨type, htype⟩ := hT.resolve? hres
      simp only [hk, lowerAssignment]
      refine .bind (.lift (target_eq_ok_of hres htype)) fun _ heq => ?_
      cases heq
      refine .bind (lowerExpr_succeeds hT h _) fun _ _ => ?_
      split <;> exact .pure trivial
    | element hk hres _ hi hv _ _ _ =>
      obtain ⟨type, htype⟩ := hT.resolve? hres
      simp only [hk, lowerArrayAssignment]
      refine .bind (.lift (target_eq_ok_of hres htype)) fun _ heq => ?_
      cases heq
      refine .bind (lowerArray_succeeds _ _) fun _ _ => ?_
      refine .bind (lowerExpr_succeeds hT hi _) fun _ _ => ?_
      exact .bind (lowerExpr_succeeds hT hv _) fun _ _ => .pure trivial
    | returnOutside _ hm => cases hm
    | returnNone hk _ _ =>
      simp only [hk]
      exact .pure trivial
    | returnSome hk _ _ h _ =>
      obtain ⟨type, htype⟩ := hreturn
      simp only [hk, lowerReturn]
      refine .bind (.lift htype) fun _ _ => ?_
      exact .bind (lowerExpr_succeeds hT h _) fun _ _ => .pure trivial
    | effect hk h =>
      cases hkind : n.kind <;> simp only [hkind, Kind.isStatement, reduceCtorEq] at hk ⊢
      all_goals exact lowerEffect_succeeds hT h

/-! ## Methods and classes -/

theorem varsOf_succeeds {symbols : List Symbol} (h : ∀ s ∈ symbols, s.type.Mappable) :
    ∃ vars, varsOf symbols = .ok vars := by
  induction symbols with
  | nil => exact ⟨[], rfl⟩
  | cons s ss ih =>
    obtain ⟨type, htype⟩ := h s List.mem_cons_self
    obtain ⟨vars, hvars⟩ := ih fun s' hs' => h s' (List.mem_cons_of_mem s hs')
    exact ⟨⟨s.name, type⟩ :: vars, by rw [varsOf, htype, hvars]; rfl⟩

/-- A method whose body is accepted can be lowered. -/
theorem lowerMethod_succeeds {T : ClassTable} (hT : T.Mappable) {name : String}
    {info : MethodInfo} (hinfo : T.method? name = some info) {body : List Ast}
    (h : (checkStatements (contextOf T info.name info) body).Gives ()) :
    ∃ m, lowerMethod T info body = .ok m := by
  have htypes := hT.methods info (ClassTable.method?_mem hinfo)
  have hsymbol : ∀ s ∈ info.parameters ++ info.locals, s.type.Mappable := fun s hs =>
    htypes s.type (List.mem_cons_of_mem _ (List.mem_map_of_mem hs))
  obtain ⟨result, hresult⟩ := htypes _ List.mem_cons_self
  obtain ⟨params, hparams⟩ := varsOf_succeeds fun s hs => hsymbol s (List.mem_append_left _ hs)
  obtain ⟨locals, hlocals⟩ := varsOf_succeeds fun s hs => hsymbol s (List.mem_append_right _ hs)
  have hbody : Succeeds (lowerStatements ⟨T, info⟩ body) fun _ => True :=
    lowerStatements_succeeds_of fun t ht =>
      lowerStatement_succeeds hT ⟨result, hresult⟩ (checkStatements_gives h t ht)
  obtain ⟨code, f, hcode, -⟩ := hbody { reserved := reservedNames T info }
  unfold lowerMethod
  rw [hcode, hresult, hparams, hlocals]
  exact ⟨_, rfl⟩

theorem lowerMethods_succeeds {T : ClassTable} (hT : T.Mappable) {members : List Ast}
    (h : ∀ member ∈ members, ∀ name, member.kind.methodName? = some name →
      ∃ info, T.method? name = some info ∧
        (checkStatements (contextOf T name info) member.children).Gives ()) :
    ∃ ms, lowerMethods T members = .ok ms := by
  induction members with
  | nil => exact ⟨[], rfl⟩
  | cons member members ih =>
    obtain ⟨ms, hms⟩ := ih fun m hm => h m (List.mem_cons_of_mem member hm)
    rw [lowerMethods]
    cases hname : member.kind.methodName? with
    | none => exact ⟨ms, hms⟩
    | some name =>
      obtain ⟨info, hinfo, hbody⟩ := h member List.mem_cons_self name hname
      obtain rfl := ClassTable.name_of_method? hinfo
      obtain ⟨m, hm⟩ := lowerMethod_succeeds hT hinfo hbody
      simp only [hinfo, hm, hms]
      exact ⟨m :: ms, rfl⟩

/-- **The class of an accepted tree can be lowered.** -/
theorem lowerClass_succeeds {T : ClassTable} {t : Ast} (htable : (ClassTable.ofTree t).Gives T)
    (hcheck : (checkClass T t).Gives ()) : ∃ code, lowerClass T t = .ok code := by
  have hT := ClassTable.mappable_of_accepted htable hcheck
  obtain ⟨c, hc, hextends⟩ := ClassTable.ofTree_gives htable
  obtain ⟨c', hc', hcheck⟩ := bind_gives.mp hcheck
  obtain rfl : c = c' := Except.ok.inj (hc.symm.trans (ofExcept_gives.mp hc'))
  obtain ⟨_, -, hmethods⟩ := bind_gives.mp hcheck
  obtain ⟨fields, hfields⟩ := varsOf_succeeds hT.fields
  obtain ⟨ms, hms⟩ := lowerMethods_succeeds hT fun member hmember name hname => by
    obtain ⟨info, hinfo⟩ :=
      ClassTable.method?_of_listed (hextends.listed member hmember name hname)
    exact ⟨info, hinfo, checkMethods_gives hmethods hmember hname hinfo⟩
  unfold lowerClass
  rw [hc]
  change ∃ code, (varsOf T.fields >>= fun _ => _) = .ok code
  rw [hfields]
  change ∃ code, (lowerMethods T c.children >>= fun _ => _) = .ok code
  rw [hms]
  exact ⟨_, rfl⟩

end ThreeAddress
end ClassCompiler
