import ClassCompiler.Proofs.Class.Declared
import ClassCompiler.Proofs.Constant.Walkable

/-!
# Checking a class again after it was optimized

To check a literal in the place of an expression asks for the type that the literal has, and that
is the type of the expression.  The checker compares more than names, however: where a type came
from counts too, and an integer variable is taken to be of an imported class if there is an import
called like that.  In a class that has no superclass, and where no class is called like a type of
constants, an integer is an integer.  There the checker finds the same types after optimizing that
it found before, and has nothing to say.

* `ClassTable.StrictScalars`: the classes in question.
* `walkable_of_accepted`: propagation gets through what is accepted.
* `infer_eval?`: the type of an expression that a literal may take the place of.
* `infer_edited`, `checkStatement_edited`, `checkClass_edited`: what was accepted is accepted after
  edits, and nothing is reported.
-/

namespace ClassCompiler

open Checked Constant
open List (Forall₂)

/-! ## Types of constants -/

/-- No superclass, and no visible class with the name of a type of constants. -/
structure ClassTable.StrictScalars (T : ClassTable) : Prop where
  superclass : T.superclass = none
  className : T.className ∉ ["int", "boolean"]
  imports : ∀ path ∈ T.imports, lastSegment path ∉ ["int", "boolean"]

/-- A type that can be declared, before its origin is set. -/
def Ty.IsDeclared (t : Ty) : Prop :=
  ∃ d, t = .ofDeclared d

/-- A type that is declared with the name of a type of constants is that type. -/
theorem Ty.IsDeclared.eq_of_scalar? {t τ : Ty} (ht : t.IsDeclared) (h : t.scalar? = some τ) :
    t = τ := by
  obtain ⟨⟨name, isArray⟩, rfl⟩ := ht
  obtain ⟨harray, hname, hτ⟩ := scalar?_eq_some h
  change isArray = false at harray
  change name = τ.name at hname
  subst harray hname
  rcases hτ with rfl | rfl <;> rfl

theorem Ty.IsDeclared.origin {t : Ty} (h : t.IsDeclared) :
    t.origin = .primitive ∨ t.origin = .object := by
  obtain ⟨d, rfl⟩ := h
  unfold ofDeclared
  dsimp only
  split
  · exact .inl rfl
  · exact .inr rfl

namespace ClassTable

variable {T : ClassTable}

/-- The types of a table are written in the class. -/
theorem allTypes_isDeclared {t : Ast} (htable : (ofTree t).Gives T)
    (hcheck : (Typing.checkClass T t).Gives ()) : T.AllTypes Ty.IsDeclared :=
  .of_accepted ⟨⟨"void", false⟩, rfl⟩ ⟨⟨"String", true⟩, rfl⟩ (fun _ _ type _ _ => ⟨type, rfl⟩)
    htable hcheck

namespace StrictScalars

theorem isSuperclass (hT : T.StrictScalars) (name : String) : T.isSuperclass name = false := by
  rw [ClassTable.isSuperclass, hT.superclass]
  rfl

theorem isImport (hT : T.StrictScalars) {τ : Ty} (hτ : τ = .int ∨ τ = .boolean) :
    T.isImport τ.name = false := by
  have hmem : τ.name ∈ ["int", "boolean"] := by rcases hτ with rfl | rfl <;> decide
  rw [ClassTable.isImport, importPath?, ← Bool.not_eq_true, List.find?_isSome]
  rintro ⟨path, hpath, hname⟩
  rw [beq_iff_eq] at hname
  exact hT.imports path hpath (hname ▸ hmem)

theorem tagOrigin (hT : T.StrictScalars) {τ : Ty} (hτ : τ = .int ∨ τ = .boolean) :
    T.tagOrigin τ = τ := by
  unfold ClassTable.tagOrigin
  rw [hT.isSuperclass, hT.isImport hτ]
  simp

end StrictScalars

end ClassTable

namespace Typing

variable {Γ : Context} {n : Numbered} {type τ : Ty}

/-- What a place takes that takes a constant: a place of the type of the constant. -/
theorem scalar?_of_assignable (hT : Γ.table.StrictScalars) (hτ : τ = .int ∨ τ = .boolean)
    (htype : type.IsDeclared) (h : Γ.assignable (Γ.table.tagOrigin type) τ false = true) :
    type.scalar? = some τ := by
  have htag := Γ.table.tagOrigin_keeps type
  have horigin : (Γ.table.tagOrigin type).origin ≠ .extension ∧
      (Γ.table.tagOrigin type).origin ≠ .this := by
    unfold ClassTable.tagOrigin
    rw [hT.isSuperclass]
    rcases htype.origin with ho | ho <;> split_ifs <;> simp_all
  have hvalue : τ.origin = .primitive ∧ τ.isArray = false ∧ τ.name ≠ Γ.table.className := by
    have hown := hT.className
    rcases hτ with rfl | rfl
    · exact ⟨rfl, rfl, fun heq => hown (by rw [← heq]; decide)⟩
    · exact ⟨rfl, rfl, fun heq => hown (by rw [← heq]; decide)⟩
  obtain ⟨hprimitive, harray, hown⟩ := hvalue
  have hsame : (Γ.table.tagOrigin type).same τ = true := by
    unfold Context.assignable at h
    dsimp only at h
    rw [if_neg (by simp [horigin.1, hprimitive])] at h
    split at h
    · -- An import takes no constant.
      simp [hprimitive, hT.isImport hτ] at h
    · split at h
      · -- Nor does the class itself.
        simp [hprimitive, hown] at h
      · split at h
        · simpa using h
        · exact h
  simp only [Ty.same, Bool.and_eq_true, beq_iff_eq, htag] at hsame
  exact Ty.scalar?_of_name (hsame.1.trans harray) hsame.2 hτ

/-! ## Expressions that a literal may take the place of -/

theorem infer_literal {c : Constant} (hk : ofKind? n.kind = some c) (ts : List Ast) :
    infer Γ (.node n ts) = pure (some c.type) := by
  rw [infer.eq_def]
  cases hkind : n.kind <;> rw [hkind] at hk <;> simp only [ofKind?, reduceCtorEq] at hk
  all_goals
    cases Option.some.inj hk
    simp only [hkind]
    rfl

/-- What the checker finds for an expression over literals and variables of the method: the type
that can be read off it, or the type of a variable with the origin that the table knows. -/
theorem infer_of_eval? {t : Ast} (h : (infer Γ t).Gives (some type))
    (hτ : (Domain.types Γ.table Γ.methodName).eval? t = some τ) :
    type = τ ∨ ∃ name scope symbol, Γ.table.resolve? Γ.methodName name = some (scope, symbol) ∧
      symbol.type.scalar? = some τ ∧ type = Γ.table.tagOrigin symbol.type := by
  induction t using Tree.induction generalizing type τ with
  | node n ts ih =>
    rcases Domain.eval?_cases hτ with ⟨c, hk, rfl⟩ | ⟨name, hk, hname⟩ |
      ⟨t, rest, hk, rfl, ht⟩ | ⟨t, rest, a, hk, rfl, -, hx⟩ |
      ⟨op, l, r, rest, a, b, hk, rfl, -, -, hx⟩
    · rw [infer_literal hk, pure_gives] at h
      exact .inl (Option.some.inj h).symm
    · obtain ⟨scope, symbol, hres, -, hscalar⟩ := variableScalar?_eq_some.mp hname
      rw [infer.eq_def] at h
      simp only [hk] at h
      rcases identifier?_gives h with ⟨_, _, hres', -, heq⟩ | ⟨hnone, -⟩
      · cases hres.symm.trans hres'
        exact .inr ⟨name, scope, symbol, hres, hscalar, Option.some.inj heq⟩
      · rw [hres] at hnone
        cases hnone
    · rw [infer.eq_def] at h
      simp only [hk] at h
      exact ih t List.mem_cons_self h ht
    · rw [infer.eq_def] at h
      simp only [hk] at h
      obtain ⟨found, hfound, h⟩ := bind_gives.mp h
      obtain ⟨_, rfl, -⟩ := infer_cases hfound
      rw [(Domain.types_negate? hx).2]
      exact .inl (Option.some.inj (inferUnary_gives (fun _ => rfl) h).1)
    · rw [infer.eq_def] at h
      simp only [hk] at h
      obtain ⟨left, hleft, h⟩ := bind_gives.mp h
      obtain ⟨right, hright, h⟩ := bind_gives.mp h
      obtain ⟨_, rfl, -⟩ := infer_cases hleft
      obtain ⟨_, rfl, -⟩ := infer_cases hright
      rw [(Domain.types_binary? hx).2.2]
      exact .inl (Option.some.inj (inferBinary_gives h).1)

/-- **The checker finds the type that can be read off an expression** over literals and variables
of the method. -/
theorem infer_eval? (hT : Γ.table.StrictScalars) (htypes : Γ.table.AllTypes Ty.IsDeclared)
    {t : Ast} (h : (infer Γ t).Gives (some type))
    (hτ : (Domain.types Γ.table Γ.methodName).eval? t = some τ) : type = τ := by
  rcases infer_of_eval? h hτ with heq | ⟨name, scope, symbol, hres, hscalar, heq⟩
  · exact heq
  · have htype : symbol.type = τ := (htypes.resolve? hres).eq_of_scalar? hscalar
    rw [heq, htype, hT.tagOrigin (Ty.scalar?_eq_some hscalar).2.2]

/-- An expression over literals and variables of their types is no array. -/
theorem isArray_of_eval? {t : Ast} (h : (infer Γ t).Gives (some type))
    (hτ : (Domain.types Γ.table Γ.methodName).eval? t = some τ) : type.isArray = false := by
  rcases infer_of_eval? h hτ with rfl | ⟨name, scope, symbol, -, hscalar, rfl⟩
  · rcases Domain.types_eval? hτ with rfl | rfl <;> rfl
  · rw [(ClassTable.tagOrigin_keeps Γ.table symbol.type).2]
    exact (Ty.scalar?_eq_some hscalar).1

section

variable {κ : Type} {D : Domain κ}

/-- An expression that a literal may take the place of is no call. -/
theorem isCall_of_eval? {t : Ast} {x : κ} (h : D.eval? t = some x) : isCall t = false := by
  induction t using Tree.induction generalizing x with
  | node n ts ih =>
    rw [isCall.eq_def]
    rcases Domain.eval?_cases h with ⟨c, hk, -⟩ | ⟨name, hk, -⟩ | ⟨t, rest, hk, rfl, ht⟩ |
      ⟨t, rest, a, hk, -⟩ | ⟨op, l, r, rest, a, b, hk, -⟩
    · cases hkind : n.kind <;> rw [hkind] at hk <;> simp_all [ofKind?]
    · simp only [hk]
    · simp only [hk]
      exact ih t List.mem_cons_self ht
    · simp only [hk]
    · simp only [hk]

theorem isCall_edited {t t' : Ast} (h : Edited D t t') : isCall t' = isCall t := by
  induction t using Tree.induction generalizing t' with
  | node n ts ih =>
    cases h with
    | @literal _ m c heval hk =>
      have hliteral : D.eval? (.node m []) = some (D.ofConstant c) := Domain.eval?_of_ofKind? hk
      rw [isCall_of_eval? heval, isCall_of_eval? hliteral]
    | node _ hts =>
      rw [isCall.eq_def, isCall.eq_def]
      cases hts with
      | nil => rfl
      | cons ht _ =>
        cases hk : n.kind <;> simp only [hk]
        exact ih _ List.mem_cons_self ht

end

/-- An expression that a literal may take the place of does not name a class. -/
theorem namesOwnClass_of_eval? {t : Ast}
    (h : (Domain.types Γ.table Γ.methodName).eval? t = some τ) : namesOwnClass Γ t = false := by
  induction t using Tree.induction generalizing τ with
  | node n ts ih =>
    rw [namesOwnClass.eq_def]
    rcases Domain.eval?_cases h with ⟨c, hk, -⟩ | ⟨name, hk, hname⟩ | ⟨t, rest, hk, rfl, ht⟩ |
      ⟨t, rest, a, hk, -⟩ | ⟨op, l, r, rest, a, b, hk, -⟩
    · cases hkind : n.kind <;> rw [hkind] at hk <;> simp_all [ofKind?]
    · obtain ⟨_, _, hres, -⟩ := variableScalar?_eq_some.mp hname
      simp [hk, hres]
    · simp only [hk]
      exact ih t List.mem_cons_self ht
    · simp only [hk]
    · simp only [hk]

theorem namesOwnClass_edited {t t' : Ast} (h : Edited (.types Γ.table Γ.methodName) t t') :
    namesOwnClass Γ t' = namesOwnClass Γ t := by
  induction t using Tree.induction generalizing t' with
  | node n ts ih =>
    cases h with
    | literal heval hk =>
      rw [namesOwnClass_of_eval? heval]
      exact namesOwnClass_of_eval? (Domain.eval?_of_ofKind? hk)
    | node _ hts =>
      rw [namesOwnClass.eq_def, namesOwnClass.eq_def]
      cases hts with
      | nil => rfl
      | cons ht _ =>
        cases hk : n.kind <;> simp only [hk]
        exact ih _ List.mem_cons_self ht

/-! ## What propagation gets through -/

/-- An assignment that is accepted gives a variable nothing but constants of its type. -/
theorem storesWell_of_accepted (hT : Γ.table.StrictScalars)
    (htypes : Γ.table.AllTypes Ty.IsDeclared) {name : String} {v : Ast} {rest : List Ast}
    (hk : n.kind = .assignment name) (h : (checkStatement Γ (.node n (v :: rest))).Gives ()) :
    StoresWell (isTracked Γ.table Γ.methodName) (.types Γ.table Γ.methodName) name v := by
  intro τ hv htracked
  rw [checkStatement.eq_def] at h
  simp only [hk] at h
  obtain ⟨found, hvalue, h⟩ := bind_gives.mp h
  obtain ⟨value, rfl, -⟩ := infer_cases hvalue
  obtain ⟨target, htarget, h⟩ := bind_gives.mp h
  obtain ⟨scope, symbol, hres, -, rfl⟩ := target?_gives htarget
  rw [infer_eval? hT htypes hvalue hv, isCall_of_eval? hv] at h
  dsimp only at h
  split at h
  · rename_i hassign
    have hscalar := scalar?_of_assignable hT (Domain.types_eval? hv) (htypes.resolve? hres) hassign
    obtain ⟨_, _, hres', hscope⟩ := isTracked_eq_true.mp htracked
    cases hres.symm.trans hres'
    exact variableScalar?_eq_some.mpr ⟨scope, symbol, hres, hscope, hscalar⟩
  · exact absurd h (not_report_gives rfl)

section

variable {κ : Type} {tracked : String → Bool} {D : Domain κ}

/-- An expression is not walked into. -/
theorem walkable_of_infer {ts : List Ast} (h : (infer Γ (.node n ts)).Gives (some type)) :
    Walkable tracked D (.node n ts) := by
  refine .other ?_
  obtain ⟨_, -, htyped⟩ := infer_cases h
  cases htyped with
  | integer hk | boolean hk | string hk | this hk | className hk | newObject hk | «variable» hk
  | classRef hk | parenthesis hk | binary hk | negation hk | arrayAccess hk | arrayLength hk
  | newArray hk | invocation hk =>
    rw [show n.kind = _ from hk]
    rfl

/-- **Propagation gets through a statement that is accepted**, if what is assigned in it is well
stored. -/
theorem walkable_of_accepted {p : Ast → Bool}
    (hstore : ∀ n name v rest, n.kind = .assignment name → p (.node n (v :: rest)) = true →
      (checkStatement Γ (.node n (v :: rest))).Gives () → StoresWell tracked D name v)
    {t : Ast} (hp : t.everywhere p = true) (h : (checkStatement Γ t).Gives ()) :
    Walkable tracked D t := by
  -- A condition, or an expression in its place, is not walked into.
  have hcondition {c : Ast} (h : (checkCondition Γ c).Gives ()) : Walkable tracked D c := by
    obtain ⟨m, us⟩ := c
    rcases checkCondition_gives h with ⟨hk, e, rest, -, rfl, -⟩ | ⟨-, type, he, -⟩
    · exact .condition hk
    · exact walkable_of_infer he
  induction t using Tree.induction with
  | node n ts ih =>
    obtain ⟨hroot, hbelow⟩ := Tree.everywhere_node.mp hp
    have hchildren : ∀ t ∈ n.kind.used ts, (checkStatement Γ t).Gives () → Walkable tracked D t :=
      fun t ht h => ih t (Kind.mem_of_mem_used ht) (hbelow t ht) h
    cases checkStatement_cases h with
    | sequence hk hts =>
      refine .sequence hk fun t ht => hchildren t ?_ (hts t ht)
      rcases hk with hk | hk | hk <;> rw [hk] <;> exact ht
    | conditional hk hc ht he =>
      rw [hk] at hchildren
      refine .conditional hk (hcondition hc) (hchildren _ (by simp [Kind.used]) ht) ?_
      intro e hmem
      obtain ⟨rest, rfl⟩ := List.head?_eq_some_iff.mp (Option.mem_def.mp hmem)
      exact hchildren e (by simp [Kind.used]) (he e hmem)
    | loop hk hc hb =>
      rw [hk] at hchildren
      exact .loop hk (hcondition hc) fun t ht => hchildren t (List.mem_cons_of_mem _ ht) (hb t ht)
    | condition hk hc => exact hcondition hc
    | assignment hk => exact .assignment hk (hstore _ _ _ _ hk hroot h)
    | effect hk he => exact walkable_of_infer he
    | declaration hk =>
      refine .other ?_
      cases hkind : n.kind <;> rw [hkind] at hk <;>
        simp only [Kind.writtenType?, reduceCtorEq] at hk <;> rfl
    | expression hk | element hk | returnOutside hk | returnNone hk | returnSome hk =>
      exact .other (by rw [hk]; rfl)

end

/-! ## Edited expressions -/

theorem checked_pure_bind {α β : Type} (a : α) (f : α → Checked β) : (pure a >>= f) = f a := rfl

theorem variableType?_eq {name : String} {scope : Scope} {symbol : Symbol}
    (hres : Γ.table.resolve? Γ.methodName name = some (scope, symbol))
    (hstatic : scope = .field → Γ.inStaticMethod = false) :
    Γ.variableType? n name = pure (some (Γ.table.tagOrigin symbol.type)) := by
  unfold Context.variableType?
  simp only [hres]
  rw [if_neg]
  rintro ⟨hfield, hin⟩
  simp [hstatic hfield] at hin

/-- A call that is accepted is accepted without a word. -/
theorem inferCall_eq {method : String} {target : Ty} {throughName : Bool} {argCount : Nat}
    (h : (inferCall Γ n method target throughName argCount).Gives (some type)) :
    inferCall Γ n method target throughName argCount = pure (some type) := by
  unfold inferCall
  rcases inferCall_gives h with ⟨hown, info, hinfo, hthrough, hcount, heq⟩ |
    ⟨hown, hnone, superclass, hsuper, heq⟩ | ⟨hown, harray, hname, heq⟩
  · rw [if_pos (by exact hown)]
    unfold inferOwnCall
    have hname : (!info.isStatic && throughName) = false := by
      cases throughName with
      | false => simp
      | true => simp [hthrough rfl]
    simp only [hinfo, hname, hcount, heq, ne_eq, not_true_eq_false, Bool.false_eq_true, if_false]
  · rw [if_pos (by exact hown)]
    unfold inferOwnCall
    simp only [hnone, hsuper, heq]
  · rw [if_neg (by exact hown), if_neg (by simp_all), heq]

theorem inferArgs_eq {ts : List Ast} (h : ∀ t ∈ ts, ∃ type, infer Γ t = pure (some type)) :
    inferArgs Γ ts = pure () := by
  induction ts with
  | nil => rfl
  | cons t ts ih =>
    obtain ⟨type, ht⟩ := h t List.mem_cons_self
    rw [inferArgs, ht, checked_pure_bind]
    exact ih fun u hu => h u (List.mem_cons_of_mem t hu)

/-- **Edits leave an expression the type that it had**, and there is nothing to report. -/
theorem infer_edited (hT : Γ.table.StrictScalars) (htypes : Γ.table.AllTypes Ty.IsDeclared)
    {t t' : Ast} (h : (infer Γ t).Gives (some type))
    (hedit : Edited (.types Γ.table Γ.methodName) t t') :
    infer Γ t' = pure (some type) := by
  induction t using Tree.induction generalizing t' type with
  | node n ts ih =>
    cases hedit with
    | literal heval hk =>
      rw [infer_literal hk, infer_eval? hT htypes h heval]
      rfl
    | @node _ _ ts' hts =>
      obtain ⟨_, heq, htyped⟩ := infer_cases h
      cases Option.some.inj heq
      rw [infer.eq_def]
      change Types Γ n ts type at htyped
      cases htyped with
      | integer hk | boolean hk | string hk =>
        simp only [hk]
        rfl
      | this hk hstatic =>
        simp only [hk]
        exact if_neg (by simp [hstatic])
      | className hk hclass | newObject hk hclass =>
        simp only [hk]
        change inferClass Γ n _ _ = _
        simp only [inferClass, hclass]
      | «variable» hk hres hstatic =>
        simp only [hk]
        change Γ.identifier? n _ = _
        simp only [Context.identifier?, variableType?_eq hres hstatic, checked_pure_bind]
      | classRef hk hres hclass =>
        simp only [hk]
        change Γ.identifier? n _ = _
        simp only [Context.identifier?, Context.variableType?, hres, hclass, checked_pure_bind]
      | parenthesis hk ht =>
        obtain ⟨t', rest', ht', -, rfl⟩ := List.forall₂_cons_left_iff.mp hts
        simp only [hk]
        exact ih _ List.mem_cons_self ht ht'
      | binary hk hl hr hfits =>
        obtain ⟨l', rest', hl', hrest, rfl⟩ := List.forall₂_cons_left_iff.mp hts
        obtain ⟨r', rest', hr', -, rfl⟩ := List.forall₂_cons_left_iff.mp hrest
        simp only [hk, ih _ (by simp) hl hl', ih _ (by simp) hr hr', checked_pure_bind]
        exact if_pos hfits
      | negation hk ht hfits | arrayLength hk ht hfits | newArray hk ht hfits =>
        obtain ⟨t', rest', ht', -, rfl⟩ := List.forall₂_cons_left_iff.mp hts
        simp only [hk, ih _ (by simp) ht ht', checked_pure_bind]
        exact if_pos hfits
      | arrayAccess hk ha hi hbase hindex =>
        obtain ⟨a', rest', ha', hrest, rfl⟩ := List.forall₂_cons_left_iff.mp hts
        obtain ⟨i', rest', hi', -, rfl⟩ := List.forall₂_cons_left_iff.mp hrest
        simp only [hk, ih _ (by simp) ha ha', ih _ (by simp) hi hi', checked_pure_bind,
          inferAccess, hbase, hindex, Bool.not_true, Bool.false_eq_true, if_false, if_true]
      | invocation hk ht hargs hcall =>
        obtain ⟨t', args', ht', hargs', rfl⟩ := List.forall₂_cons_left_iff.mp hts
        have hinfer : inferArgs Γ args' = pure () := by
          refine inferArgs_eq fun a' ha' => ?_
          obtain ⟨a, ha, hedit⟩ := forall₂_mem_right hargs' ha'
          obtain ⟨type, hgives⟩ := inferArgs_gives hargs a ha
          exact ⟨type, ih a (List.mem_cons_of_mem _ ha) hgives hedit⟩
        simp only [hk, ih _ (by simp) ht ht', hinfer, checked_pure_bind, namesOwnClass_edited ht',
          ← hargs'.length_eq]
        exact inferCall_eq hcall

/-! ## Edited statements -/

theorem checkDeclared_eq {written : TypeName} (h : (Γ.checkDeclared n written).Gives ()) :
    Γ.checkDeclared n written = pure () := by
  unfold Context.checkDeclared at h ⊢
  split_ifs at h ⊢
  · rfl
  · exact absurd h (not_report_gives rfl)
  · rfl
  · rfl
  · exact absurd h (not_report_gives rfl)

theorem target?_eq {name : String} {scope : Scope} {symbol : Symbol}
    (hres : Γ.table.resolve? Γ.methodName name = some (scope, symbol))
    (hstatic : scope = .field → Γ.inStaticMethod = false) :
    Γ.target? n name = pure (some (Γ.table.tagOrigin symbol.type)) := by
  simp only [Context.target?, variableType?_eq hres hstatic, checked_pure_bind]

theorem checkGuard_eq {t : Ast} (h : infer Γ t = pure (some type)) (hbool : type.isBoolean = true) :
    checkGuard Γ t = pure () := by
  simp only [checkGuard, h, checked_pure_bind, hbool, if_true]

theorem checkStatements_eq {ts : List Ast} (h : ∀ t ∈ ts, checkStatement Γ t = pure ()) :
    checkStatements Γ ts = pure () := by
  induction ts with
  | nil => rfl
  | cons t ts ih =>
    rw [checkStatements, h t List.mem_cons_self, checked_pure_bind]
    exact ih fun u hu => h u (List.mem_cons_of_mem t hu)

theorem checkCondition_edited (hT : Γ.table.StrictScalars)
    (htypes : Γ.table.AllTypes Ty.IsDeclared) {c c' : Ast} (h : (checkCondition Γ c).Gives ())
    (hedit : Edited (.types Γ.table Γ.methodName) c c') : checkCondition Γ c' = pure () := by
  obtain ⟨n, ts⟩ := c
  rcases checkCondition_gives h with ⟨hk, e, rest, type, rfl, he, hbool⟩ | ⟨hk, type, he, hbool⟩
  · -- A condition is no expression, and stays one.
    obtain ⟨ts', rfl, hts⟩ := hedit.label_eq (Domain.eval?_condition hk _)
    obtain ⟨e', rest', he', -, rfl⟩ := List.forall₂_cons_left_iff.mp hts
    simp only [checkCondition, hk]
    exact checkGuard_eq (infer_edited hT htypes he he') hbool
  · obtain ⟨n', ts'⟩ := c'
    have hguard := checkGuard_eq (infer_edited hT htypes he hedit) hbool
    unfold checkCondition
    dsimp only
    split
    · -- Neither a literal nor an expression that stayed is a condition.
      rename_i hk'
      cases hedit with
      | node _ _ => exact absurd hk' hk
      | literal _ hlit =>
        rw [hk'] at hlit
        cases hlit
    · exact hguard

/-- **Edits leave a statement one that is accepted**, and there is nothing to report. -/
theorem checkStatement_edited (hT : Γ.table.StrictScalars)
    (htypes : Γ.table.AllTypes Ty.IsDeclared) {t t' : Ast} (h : (checkStatement Γ t).Gives ())
    (hedit : Edited (.types Γ.table Γ.methodName) t t') : checkStatement Γ t' = pure () := by
  induction t using Tree.induction generalizing t' with
  | node n ts ih =>
    cases hedit with
    | @literal _ m c _ hk =>
      have hliteral : infer Γ (.node m []) = pure (some c.type) := infer_literal hk []
      rw [checkStatement.eq_def]
      cases hkind : m.kind <;> rw [hkind] at hk <;> simp only [ofKind?, reduceCtorEq] at hk
      all_goals simp only [hkind, hliteral, checked_pure_bind]
    | @node _ _ ts' hts =>
      have hsequence {us us' : List Ast} (hsub : ∀ t ∈ us, t ∈ ts)
          (hus : ∀ t ∈ us, (checkStatement Γ t).Gives ())
          (hedits : Forall₂ (Edited (.types Γ.table Γ.methodName)) us us') :
          checkStatements Γ us' = pure () := by
        refine checkStatements_eq fun t' ht' => ?_
        obtain ⟨t, ht, hedit⟩ := forall₂_mem_right hedits ht'
        exact ih t (hsub t ht) (hus t ht) hedit
      rw [checkStatement.eq_def]
      cases checkStatement_cases h with
      | declaration hk hdeclared =>
        have hdeclared := checkDeclared_eq hdeclared
        cases hkind : n.kind <;> rw [hkind] at hk <;>
          simp only [Kind.writtenType?, reduceCtorEq] at hk
        all_goals
          cases Option.some.inj hk
          simp only [hkind]
          exact hdeclared
      | sequence hk hchildren =>
        have hall := hsequence (fun _ => id) hchildren hts
        rcases hk with hk | hk | hk <;> simp only [hk] <;> exact hall
      | @conditional c u rest hk hc hu he =>
        obtain ⟨c', rest', hc', hrest, rfl⟩ := List.forall₂_cons_left_iff.mp hts
        obtain ⟨u', rest', hu', hbranch, rfl⟩ := List.forall₂_cons_left_iff.mp hrest
        simp only [hk, checkCondition_edited hT htypes hc hc', ih _ (by simp) hu hu',
          checked_pure_bind]
        cases hbranch with
        | nil => rfl
        | cons he' _ => exact ih _ (by simp) (he _ rfl) he'
      | loop hk hc hb =>
        obtain ⟨c', body', hc', hbody, rfl⟩ := List.forall₂_cons_left_iff.mp hts
        simp only [hk, checkCondition_edited hT htypes hc hc', checked_pure_bind]
        exact hsequence (fun _ => List.mem_cons_of_mem _) hb hbody
      | condition hk hc =>
        simp only [hk]
        exact checkCondition_edited hT htypes hc (.node n hts)
      | expression hk he =>
        obtain ⟨e', rest', he', -, rfl⟩ := List.forall₂_cons_left_iff.mp hts
        simp only [hk, infer_edited hT htypes he he', checked_pure_bind]
      | assignment hk hres hstatic hv hassign =>
        obtain ⟨v', rest', hv', -, rfl⟩ := List.forall₂_cons_left_iff.mp hts
        simp only [hk, checkAssignment, infer_edited hT htypes hv hv', target?_eq hres hstatic,
          checked_pure_bind, isCall_edited hv', hassign, if_true]
      | element hk hres hstatic hi hv harray hindex hvalue =>
        obtain ⟨i', rest', hi', hrest, rfl⟩ := List.forall₂_cons_left_iff.mp hts
        obtain ⟨v', rest', hv', -, rfl⟩ := List.forall₂_cons_left_iff.mp hrest
        simp only [hk, checkArrayAssignment, infer_edited hT htypes hi hi',
          infer_edited hT htypes hv hv', target?_eq hres hstatic, checked_pure_bind, harray,
          checkInt, hindex, hvalue, Bool.not_true, Bool.false_eq_true, if_false, if_true]
      | returnOutside hk hm => simp only [hk, checkReturn, hm]
      | returnNone hk hm hvoid =>
        cases hts
        simp only [hk, checkReturn, hm, hvoid, if_true]
      | returnSome hk hm hvoid hv hassign =>
        obtain ⟨v', rest', hv', -, rfl⟩ := List.forall₂_cons_left_iff.mp hts
        simp only [hk, checkReturn, hm, infer_edited hT htypes hv hv', checked_pure_bind, hvoid,
          isCall_edited hv', hassign, Bool.false_eq_true, if_false, if_true]
      | effect hk he =>
        have hinfer := infer_edited hT htypes he (.node n hts)
        cases hkind : n.kind <;> rw [hkind] at hk <;> simp only [Kind.isStatement,
          Bool.true_eq_false] at hk
        all_goals simp only [hkind, hinfer, checked_pure_bind]

/-! ## Edited classes -/

theorem checkFields_edited {T : ClassTable} {members members' : List Ast}
    (h : (checkFields T members).Gives ())
    (hedit : Forall₂ (EditedMember (.types T)) members members') :
    checkFields T members' = pure () := by
  have hall {member : Ast} (hmember : member ∈ members) {name : String} {written : TypeName}
      (hk : member.kind = .classField name written) :=
    checkDeclared_eq (checkFields_gives h hmember hk)
  clear h
  induction hedit with
  | nil => rfl
  | @cons m m' _ _ hm _ ih =>
    have hrest := ih fun hmember => hall (List.mem_cons_of_mem _ hmember)
    rw [checkFields]
    split
    · rename_i name written hk
      -- A literal is no field, so the field stayed.
      unfold EditedMember at hm
      cases hm with
      | node n _ =>
        rw [hrest]
        exact congrArg (· >>= fun _ => pure ()) (hall List.mem_cons_self hk)
      | @literal _ n _ _ hlit =>
        rw [show n.kind = _ from hk] at hlit
        cases hlit
    · exact hrest

theorem checkMethods_edited {T : ClassTable} (hT : T.StrictScalars)
    (htypes : T.AllTypes Ty.IsDeclared) {members members' : List Ast}
    (h : (checkMethods T members).Gives ())
    (hedit : Forall₂ (EditedMember (.types T)) members members') :
    checkMethods T members' = pure () := by
  have hall {member : Ast} (hmember : member ∈ members) {name : String} {info : MethodInfo}
      (hname : member.kind.methodName? = some name) (hinfo : T.method? name = some info) :=
    checkMethods_gives h hmember hname hinfo
  clear h
  induction hedit with
  | nil => rfl
  | @cons m m' _ _ hm _ ih =>
    have hrest := ih fun hmember => hall (List.mem_cons_of_mem _ hmember)
    rw [checkMethods, hm.methodName?]
    cases hname : m.kind.methodName? with
    | none => exact hrest
    | some name =>
      dsimp only
      cases hinfo : T.method? name with
      | none => exact hrest
      | some info =>
        have hbody := checkStatements_gives (hall List.mem_cons_self hname hinfo)
        obtain ⟨-, hchildren⟩ := hm.children hname
        have hbody' : checkStatements (contextOf T name info) m'.children = pure () := by
          refine checkStatements_eq fun t' ht' => ?_
          obtain ⟨t, ht, hedit⟩ := forall₂_mem_right hchildren ht'
          exact checkStatement_edited hT htypes (hbody t ht) hedit
        simp only [hbody', checked_pure_bind]
        exact hrest

/-- **A class that was accepted is accepted after edits**, and there is nothing to report. -/
theorem checkClass_edited {T : ClassTable} (hT : T.StrictScalars)
    (htypes : T.AllTypes Ty.IsDeclared) {t t' : Ast} (h : (checkClass T t).Gives ())
    (hedit : EditedTree (.types T) t t') : checkClass T t' = pure () := by
  obtain ⟨c, hc, h⟩ := bind_gives.mp h
  obtain ⟨_, hfields, hmethods⟩ := bind_gives.mp h
  obtain ⟨c', hc', hclass⟩ := hedit c (ofExcept_gives.mp hc)
  have hfields' := checkFields_edited hfields hclass.members
  have hmethods' := checkMethods_edited hT htypes hmethods hclass.members
  unfold checkClass
  rw [hc']
  change (checkFields T c'.children >>= fun _ => checkMethods T c'.children) = pure ()
  rw [hfields', checked_pure_bind, hmethods']

/-- **Propagation gets through a class that is accepted**, if what is assigned in it is well
stored. -/
theorem walkableClass_of_accepted {κ : Type} {D : String → Domain κ} {T : ClassTable} {t c : Ast}
    (htable : (ClassTable.ofTree t).Gives T) (hcheck : (checkClass T t).Gives ())
    (hc : t.classTree = .ok c) {p : String → Ast → Bool}
    (hstore : ∀ (Γ : Context) n name v rest, Γ.table = T → n.kind = .assignment name →
      p Γ.methodName (.node n (v :: rest)) = true →
      (checkStatement Γ (.node n (v :: rest))).Gives () →
      StoresWell (isTracked T Γ.methodName) (D Γ.methodName) name v)
    (hp : c.everyBody p = true) : WalkableClass T D c := by
  intro m hm name hname u hu
  obtain ⟨info, -, hbody⟩ := body_of_accepted htable hcheck hc hm hname
  exact walkable_of_accepted
    (fun n x v rest => hstore (contextOf T name info) n x v rest rfl)
    (Tree.everyBody_eq_true.mp hp m hm name hname u hu) (hbody u hu)

end Typing
end ClassCompiler
