import ClassCompiler.Proofs.ThreeAddress.Linked

/-!
# The kinds of calls

Lowering decides by the target how a method is called: statically if the target is a class, through
the object otherwise.  Whether the method is static is a matter of its declaration.  The checker
compares the two in one direction only.  It refuses a method that is not static where the target is
the name of the class; it does not look for a static method where the target is an object.

The calls in the code of a tree are those that its invocations were lowered to, each at least once.
So whatever is true of all calls in the code can be read off the tree, and the other way round.

* `Site.Mirrors`: a condition on calls and the condition on invocations that it amounts to.
* `lowerExpr_mirrors`, `lowerStatement_mirrors`, `lowerMethod_mirrors`: lowered code.
* `Member.Agrees`: the kind of a call and the declaration of the method are in a relation.
* `ownCalls`: the condition on an invocation.
* `lowerClass_kinds`: the kinds of the calls in the code of an accepted class, edited or not.
-/

namespace ClassCompiler
namespace ThreeAddress

open Constant (Domain Edited EditedClass ofKind? forall₂_mem_right)
open List (Forall₂)

/-! ## Calls and invocations -/

/-- A condition on calls amounts to a condition on the invocations that they are lowered from. -/
structure Site.Mirrors (Γ : Site) (q : Ast → Bool) (P : Member → Prop) : Prop where
  field : ∀ object x, P (.field object x)
  other : ∀ n ts, (∀ method, n.kind ≠ .invocation method) → q (.node n ts) = true
  call : ∀ n method ts, n.kind = .invocation method → Γ.Admits (.node n ts) →
    ∀ expected f code c f', (lowerCall Γ n method expected ts).run f = .ok ((code, c), f') →
      (P (.call c) ↔ q (.node n ts) = true)

section

variable {Γ : Site} {q : Ast → Bool} {P : Member → Prop} {f f' : Fresh}
  {expected : Option ValueType} {v : Lowered} {code : List Instr}

/-- An instruction at the end that uses no member changes nothing. -/
theorem usesOnly_concat_of_none {i : Instr} (hi : i.member? = none) :
    UsesOnly P (code ++ [i]) ↔ UsesOnly P code := by
  rw [usesOnly_append, usesOnly_cons, hi]
  simp

theorem usesOnly_concat_call {i : Instr} {c : Call} (hi : i.member? = some (.call c)) :
    UsesOnly P (code ++ [i]) ↔ UsesOnly P code ∧ P (.call c) := by
  rw [usesOnly_append, usesOnly_cons, hi]
  simp

/-- What is stored elsewhere uses the same member. -/
theorem Lowered.storeIn_uses_iff (v : Lowered) (dest : Var) :
    UsesOnly P (v.storeIn dest) ↔ UsesOnly P v.code := by
  have hcopy : UsesOnly P (v.code ++ [.assign dest (.operand v.value)]) ↔ UsesOnly P v.code :=
    usesOnly_concat_of_none rfl
  unfold Lowered.storeIn
  split
  · rename_i last rhs hvalue hlast
    split
    · have hcode : v.code.dropLast ++ [.assign last rhs] = v.code :=
        List.dropLast_append_getLast? _ hlast
      rw [← hcode, List.dropLast_concat]
      simp only [usesOnly_append, usesOnly_cons, Instr.member?]
    · exact hcopy
  · exact hcopy

theorem lowerArgs_mirrors {ts : List Ast}
    (h : ∀ t ∈ ts, ∀ expected f v f', (lowerExpr Γ expected t).run f = .ok (v, f') →
      (UsesOnly P v.code ↔ t.everywhere q = true)) {declared : List Symbol} {args : LoweredArgs}
    (hargs : (lowerArgs Γ declared ts).run f = .ok (args, f')) :
    UsesOnly P args.code ↔ ∀ t ∈ ts, t.everywhere q = true := by
  induction ts generalizing declared f args with
  | nil =>
    obtain ⟨rfl, -⟩ := lowerArgs_nil_eq_ok hargs
    simp
  | cons t ts ih =>
    obtain ⟨param, arg, f₁, rest, -, harg, hrest, rfl⟩ := lowerArgs_cons_eq_ok hargs
    have hfirst := h t List.mem_cons_self _ _ _ _ harg
    have hlater := ih (fun u hu => h u (List.mem_cons_of_mem t hu)) hrest
    rw [usesOnly_append, hfirst, hlater, List.forall_mem_cons]

/-- The code before a call. -/
theorem lowerCall_mirrors {n : Numbered} {method : String} {ts : List Ast}
    (h : ∀ t ∈ ts, ∀ expected f v f', (lowerExpr Γ expected t).run f = .ok (v, f') →
      (UsesOnly P v.code ↔ t.everywhere q = true)) {call : Call}
    (hcall : (lowerCall Γ n method expected ts).run f = .ok ((code, call), f')) :
    UsesOnly P code ↔ ∀ t ∈ ts, t.everywhere q = true := by
  obtain ⟨t, rest, target, f₁, args, result, rfl, htarget, hargs, -, rfl, -⟩ :=
    lowerCall_eq_ok hcall
  have hfirst := h t List.mem_cons_self _ _ _ _ htarget
  have hlater := lowerArgs_mirrors (fun u hu => h u (List.mem_cons_of_mem t hu)) hargs
  rw [usesOnly_append, hfirst, hlater, List.forall_mem_cons]

theorem lowerStatements_mirrors {ts : List Ast}
    (h : ∀ t ∈ ts, ∀ f code f', (lowerStatement Γ t).run f = .ok (code, f') →
      (UsesOnly P code ↔ t.everywhere q = true))
    (hlower : (lowerStatements Γ ts).run f = .ok (code, f')) :
    UsesOnly P code ↔ ∀ t ∈ ts, t.everywhere q = true := by
  induction ts generalizing f code with
  | nil =>
    obtain ⟨rfl, -⟩ := lowerStatements_nil_eq_ok hlower
    simp
  | cons t ts ih =>
    obtain ⟨first, f₁, rest, hfirst, hrest, rfl⟩ := lowerStatements_cons_eq_ok hlower
    have hfirst := h t List.mem_cons_self _ _ _ hfirst
    have hlater := ih (fun u hu => h u (List.mem_cons_of_mem t hu)) hrest
    rw [usesOnly_append, hfirst, hlater, List.forall_mem_cons]

variable (hΓ : Γ.Mirrors q P)

include hΓ

/-- At a node that is no invocation, only the children count. -/
theorem Site.Mirrors.everywhere {n : Numbered} {kind : Kind} (hk : n.kind = kind)
    (hother : ∀ method, kind ≠ .invocation method) {ts : List Ast} :
    (Tree.node n ts : Ast).everywhere q = true ↔ ∀ t ∈ kind.used ts, t.everywhere q = true := by
  subst hk
  rw [Tree.everywhere_node]
  exact and_iff_right (hΓ.other n ts hother)

/-- An invocation amounts to the call and what is before it. -/
theorem Site.Mirrors.invocation {n : Numbered} {method : String} {ts : List Ast}
    (hk : n.kind = .invocation method) (ht : Γ.Admits (.node n ts)) {call : Call}
    (hcall : (lowerCall Γ n method expected ts).run f = .ok ((code, call), f'))
    (hcode : UsesOnly P code ↔ ∀ t ∈ ts, t.everywhere q = true) {i : Instr}
    (hi : i.member? = some (.call call)) :
    UsesOnly P (code ++ [i]) ↔ (Tree.node n ts : Ast).everywhere q = true := by
  rw [usesOnly_concat_call hi, hcode, hΓ.call n method ts hk ht _ _ _ _ _ hcall,
    Tree.everywhere_node, hk, and_comm]
  rfl

/-- **The calls in the code of an expression** are those of its invocations. -/
theorem lowerExpr_mirrors {t : Ast} (ht : Γ.Admits t)
    (hlower : (lowerExpr Γ expected t).run f = .ok (v, f')) :
    UsesOnly P v.code ↔ t.everywhere q = true := by
  induction t using Tree.induction generalizing expected f v f' with
  | node n ts ih =>
    cases lowerExpr_cases hlower with
    | integer hk | boolean hk | string hk | this hk | className hk | «variable» hk | classRef hk =>
      rw [hΓ.everywhere hk (by simp)]
      simp [Kind.used, Lowered.ofOperand]
    | newObject hk =>
      rw [hΓ.everywhere hk (by simp)]
      exact iff_of_true ((usesOnly_concat_of_none rfl).mpr usesOnly_nil) (by simp [Kind.used])
    | field hk =>
      rw [hΓ.everywhere hk (by simp)]
      refine iff_of_true (usesOnly_nil.concat fun m hm => ?_) (by simp [Kind.used])
      cases Option.some.inj hm
      exact hΓ.field _ _
    | @parenthesis t rest _ _ hk h =>
      rw [hΓ.everywhere hk (by simp), ih t List.mem_cons_self (ht.below hk _ List.mem_cons_self) h]
      simp [Kind.used]
    | @binary op l r rest left f₁ right f₂ hk hl hr =>
      have hleft := ih l (by simp) (ht.below hk l (by simp [Kind.used])) hl
      have hright := ih r (by simp) (ht.below hk r (by simp [Kind.used])) hr
      rw [hΓ.everywhere hk (by simp), Fresh.lowered, usesOnly_concat_of_none rfl, usesOnly_append,
        hleft, hright]
      simp [Kind.used]
    | @arrayAccess a i rest base f₁ index f₂ array hk ha hi harray =>
      have hbase := ih a (by simp) (ht.below hk a (by simp [Kind.used])) ha
      have hindex := ih i (by simp) (ht.below hk i (by simp [Kind.used])) hi
      rw [hΓ.everywhere hk (by simp), Fresh.lowered, usesOnly_concat_of_none rfl, usesOnly_append,
        hbase, hindex]
      simp [Kind.used]
    | @negation t rest inner f₁ hk h | @arrayLength t rest inner f₁ hk h
    | @newArray t rest inner f₁ hk h =>
      have hinner := ih t List.mem_cons_self (ht.below hk t List.mem_cons_self) h
      rw [hΓ.everywhere hk (by simp), Fresh.lowered, usesOnly_concat_of_none rfl, hinner]
      simp [Kind.used]
    | @invocation method _ code call f₁ hk h =>
      have hcode := lowerCall_mirrors
        (fun u hu _ _ _ _ h => ih u hu (ht.below hk u hu) h) h
      exact hΓ.invocation hk ht h hcode rfl

theorem lowerCondition_mirrors {t : Ast} (ht : Γ.Admits t)
    (hlower : (lowerCondition Γ t).run f = .ok (v, f')) :
    UsesOnly P v.code ↔ t.everywhere q = true := by
  obtain ⟨n, ts⟩ := t
  rcases lowerCondition_eq_ok hlower with ⟨u, rest, hk, rfl, h⟩ | ⟨-, h⟩
  · rw [hΓ.everywhere hk (by simp),
      lowerExpr_mirrors hΓ (ht.below hk u List.mem_cons_self) h]
    simp [Kind.used]
  · exact lowerExpr_mirrors hΓ ht h

theorem lowerEffect_mirrors {t : Ast} (ht : Γ.Admits t)
    (hlower : (lowerEffect Γ t).run f = .ok (code, f')) :
    UsesOnly P code ↔ t.everywhere q = true := by
  induction t using Tree.induction generalizing f code f' with
  | node n ts ih =>
    cases lowerEffect_cases hlower with
    | @parenthesis t rest _ _ hk h =>
      rw [hΓ.everywhere hk (by simp), ih t List.mem_cons_self (ht.below hk _ List.mem_cons_self) h]
      simp [Kind.used]
    | @invocation method _ code call _ hk h =>
      have hcode := lowerCall_mirrors
        (fun u hu _ _ _ _ h => lowerExpr_mirrors hΓ (ht.below hk u hu) h) h
      exact hΓ.invocation hk ht h hcode rfl
    | value _ _ h => rw [usesOnly_concat_of_none rfl, lowerExpr_mirrors hΓ ht h]

theorem lowerArray_mirrors {scope : Scope} {array array' : Var}
    (h : (lowerArray Γ scope array).run f = .ok ((code, array'), f')) : UsesOnly P code := by
  cases scope with
  | field =>
    obtain ⟨temp, f₁, -, h⟩ := Lowering.bind_eq_ok.mp h
    obtain ⟨heq, -⟩ := Lowering.pure_eq_ok.mp h
    rw [(Prod.mk.inj heq).1]
    refine usesOnly_nil.concat fun m hm => ?_
    cases Option.some.inj hm
    exact hΓ.field _ _
  | «local» | parameter =>
    obtain ⟨heq, -⟩ := Lowering.pure_eq_ok.mp h
    rw [(Prod.mk.inj heq).1]
    exact usesOnly_nil

/-- **The calls in the code of a statement** are those of its invocations. -/
theorem lowerStatement_mirrors {t : Ast} (ht : Γ.Admits t)
    (hlower : (lowerStatement Γ t).run f = .ok (code, f')) :
    UsesOnly P code ↔ t.everywhere q = true := by
  induction t using Tree.induction generalizing f code f' with
  | node n ts ih =>
    cases lowerStatement_cases hlower with
    | declaration hk =>
      have hkind : n.kind.used ts = [] ∧ ∀ method, n.kind ≠ .invocation method := by
        cases hkind : n.kind <;> rw [hkind] at hk <;> simp_all [Kind.isDeclaration, Kind.used]
      rw [hΓ.everywhere rfl hkind.2, hkind.1]
      simp
    | sequence hk h =>
      have hkind : n.kind.used ts = ts ∧ ∀ method, n.kind ≠ .invocation method := by
        rcases hk with hk | hk | hk <;> rw [hk] <;> simp [Kind.used]
      have hbelow := ht.below rfl
      rw [hkind.1] at hbelow
      rw [hΓ.everywhere rfl hkind.2, hkind.1]
      exact lowerStatements_mirrors (fun u hu _ _ _ h => ih u hu (hbelow u hu) h) h
    | @conditional c t rest cond f₁ thenCode f₂ elseCode f₃ hk hc hthen helse =>
      have hcond := lowerCondition_mirrors hΓ (ht.below hk c (by simp [Kind.used])) hc
      have hthen := ih t (by simp) (ht.below hk t (by simp [Kind.used])) hthen
      have helse : UsesOnly P elseCode ↔ ∀ e ∈ rest.take 1, e.everywhere q = true := by
        cases rest with
        | nil =>
          obtain ⟨rfl, -⟩ := Lowering.pure_eq_ok.mp helse
          simp
        | cons e rest =>
          rw [ih e (by simp) (ht.below hk e (by simp [Kind.used])) helse]
          simp
      rw [hΓ.everywhere hk (by simp)]
      simp [conditionalCode, Instr.member?, Kind.used, hcond, hthen, helse]
    | @loop c body first f₁ bodyCode f₂ again f₃ hk hc hb hc' =>
      -- The condition is lowered twice, to the same calls.
      have hfirst := lowerCondition_mirrors hΓ (ht.below hk c List.mem_cons_self) hc
      have hagain := lowerCondition_mirrors hΓ (ht.below hk c List.mem_cons_self) hc'
      have hbody := lowerStatements_mirrors (fun u hu _ _ _ h =>
        ih u (List.mem_cons_of_mem c hu) (ht.below hk u (List.mem_cons_of_mem c hu)) h) hb
      rw [hΓ.everywhere hk (by simp)]
      simp only [loopCode, usesOnly_append, usesOnly_cons, Instr.member?, hfirst, hagain, hbody,
        Kind.used, List.forall_mem_cons]
      constructor
      · exact fun h => ⟨h.1.1.1.1, h.1.1.2⟩
      · exact fun h => ⟨⟨⟨⟨h.1, by simp⟩, h.2⟩, h.1⟩, by simp⟩
    | @expression e rest _ _ hk h =>
      rw [hΓ.everywhere hk (by simp),
        lowerEffect_mirrors hΓ (ht.below hk e List.mem_cons_self) h]
      simp [Kind.used]
    | @«variable» name scope symbol type t rest v _ hk _ _ _ h =>
      rw [hΓ.everywhere hk (by simp), Lowered.storeIn_uses_iff,
        lowerExpr_mirrors hΓ (ht.below hk t List.mem_cons_self) h]
      simp [Kind.used]
    | @field name symbol type t rest v _ hk hres htype h =>
      have hvalue := lowerExpr_mirrors hΓ (ht.below hk t List.mem_cons_self) h
      rw [hΓ.everywhere hk (by simp)]
      simp [Instr.member?, Kind.used, hvalue, hΓ.field]
    | @element name scope symbol type i e rest code array f₁ index f₂ value f₃ hk hres htype ha hi
        he =>
      have harray := lowerArray_mirrors hΓ ha
      have hindex := lowerExpr_mirrors hΓ (ht.below hk i (by simp [Kind.used])) hi
      have hvalue := lowerExpr_mirrors hΓ (ht.below hk e (by simp [Kind.used])) he
      rw [hΓ.everywhere hk (by simp)]
      simp [Instr.member?, Kind.used, harray, hindex, hvalue]
    | returnNone hk =>
      rw [hΓ.everywhere hk (by simp)]
      simp [Instr.member?, Kind.used]
    | @returnSome t rest type v _ hk _ h =>
      rw [hΓ.everywhere hk (by simp), usesOnly_concat_of_none rfl,
        lowerExpr_mirrors hΓ (ht.below hk t List.mem_cons_self) h]
      simp [Kind.used]
    | condition hk h => rw [usesOnly_concat_of_none rfl, lowerCondition_mirrors hΓ ht h]
    | effect hk h => exact lowerEffect_mirrors hΓ ht h

end

/-- **The calls in the code of a method** are those of the invocations in its body. -/
theorem lowerMethod_mirrors {T : ClassTable} {info : MethodInfo} {q : Ast → Bool}
    {P : Member → Prop} (hΓ : Site.Mirrors ⟨T, info⟩ q P) {ts : List Ast}
    (hts : ∀ t ∈ ts, Site.Admits ⟨T, info⟩ t) {m : Method} (h : lowerMethod T info ts = .ok m) :
    UsesOnly P m.code ↔ ∀ t ∈ ts, t.everywhere q = true := by
  obtain ⟨code, f, hcode, -, -, -, -, -, hclose⟩ := lowerMethod_eq_ok h
  have hbody := lowerStatements_mirrors
    (fun t ht _ _ _ h => lowerStatement_mirrors hΓ (hts t ht) h) hcode
  rw [hclose, ← hbody]
  rcases Meaning.closeBody_cases m.result code with ⟨-, heq⟩ | ⟨-, heq⟩ | ⟨-, heq, -⟩
  · rw [heq]
  · rw [heq, usesOnly_concat_of_none rfl]
  · rw [heq]

/-! ## Kinds and declarations -/

/-- Where a method of the class is called on the class or on an object of it, its being static and
the call being static are in a relation. -/
def Member.Agrees (r : Bool → Bool → Bool) (code : ClassCode) : Member → Prop
  | .call c => c.target.type = .object code.name → ∀ callee ∈ code.methods, callee.name = c.method →
    r callee.isStatic (c.kind == .static) = true
  | .field _ _ => True

/-- Where a method of the class is called on the class or on an object of it, its being static and
the class being named are in a relation. -/
def ownCalls (r : Bool → Bool → Bool) (T : ClassTable) (method : String) : Ast → Bool
  | .node n ts =>
    match n.kind, ts with
    | .invocation callee, target :: _ =>
      valueType? T method none target != some (.object T.className) ||
        (T.method? callee).all fun info => r info.isStatic (namesClass T method target)
    | _, _ => true

section

variable {r : Bool → Bool → Bool} {T : ClassTable} {method callee : String} {n : Numbered}

theorem ownCalls_invocation (hk : n.kind = .invocation callee) {target : Ast} {args : List Ast} :
    ownCalls r T method (.node n (target :: args)) = true ↔
      (valueType? T method none target = some (.object T.className) →
        ∀ info, T.method? callee = some info →
          r info.isStatic (namesClass T method target) = true) := by
  unfold ownCalls
  simp only [hk]
  rw [Bool.or_eq_true, bne_iff_ne, ← imp_iff_not_or, Option.all_eq_true]

theorem ownCalls_of_ne {ts : List Ast} (hk : ∀ callee, n.kind ≠ .invocation callee) :
    ownCalls r T method (.node n ts) = true := by
  unfold ownCalls
  dsimp only
  split
  · rename_i hkind
    exact absurd hkind (hk _)
  · rfl

/-- What follows from two relations holds of the calls that both hold of. -/
theorem ownCalls_imp {r₁ r₂ : Bool → Bool → Bool}
    (h : ∀ isStatic named, r₁ isStatic named = true → r₂ isStatic named = true →
      r isStatic named = true) {t : Ast} (h₁ : ownCalls r₁ T method t = true)
    (h₂ : ownCalls r₂ T method t = true) : ownCalls r T method t = true := by
  obtain ⟨n, ts⟩ := t
  by_cases hkind : ∃ callee, n.kind = .invocation callee
  · obtain ⟨callee, hk⟩ := hkind
    cases ts with
    | nil =>
      unfold ownCalls
      simp only [hk]
    | cons target args =>
      rw [ownCalls_invocation hk] at h₁ h₂ ⊢
      exact fun hvalue info hinfo => h _ _ (h₁ hvalue info hinfo) (h₂ hvalue info hinfo)
  · exact ownCalls_of_ne fun callee hk => hkind ⟨callee, hk⟩

/-- A target is lowered to a class exactly if it names one. -/
theorem callKind_of_pushed {isStatic named : Bool} {o : Operand}
    (h : Machine.PushedOrClass isStatic named o) : (callKind o == .static) = named := by
  cases h with
  | named name => rfl
  | pushed h =>
    cases o with
    | classRef name => cases h
    | _ => rfl

/-- **The kinds of calls can be read off the tree**, in code that has all methods of the table. -/
theorem agrees_mirrors {code : ClassCode} (hname : code.name = T.className)
    (hdeclared : ∀ m ∈ code.methods, ∃ info, T.method? m.name = some info ∧
      info.isStatic = m.isStatic)
    (hlisted : ∀ name info, T.method? name = some info → ∃ m ∈ code.methods, m.name = name)
    (info : MethodInfo) :
    Site.Mirrors ⟨T, info⟩ (ownCalls r T info.name) (Member.Agrees r code) where
  field _ _ := trivial
  other _ _ hk := ownCalls_of_ne hk
  call n method ts hk ht expected f before c f' hlower := by
    obtain ⟨t, rest, target, f₁, args, result, rfl, htarget, -, -, -, rfl⟩ :=
      lowerCall_eq_ok hlower
    have hadmits := ht.below hk t List.mem_cons_self
    have htype := lowerExpr_type hadmits htarget
    have hkind := callKind_of_pushed (Machine.lowerExpr_pushed hadmits htarget)
    change valueType? T info.name none t = _ at htype
    rw [ownCalls_invocation hk, htype, Option.some.injEq, ← hname, ← hkind]
    refine imp_congr_right fun _ => ?_
    constructor
    · intro hagrees decl hdecl
      obtain ⟨m, hm, rfl⟩ := hlisted method decl hdecl
      obtain ⟨decl', hdecl', hstatic⟩ := hdeclared m hm
      cases Option.some.inj (hdecl.symm.trans hdecl')
      rw [hstatic]
      exact hagrees m hm rfl
    · rintro hagrees m hm rfl
      obtain ⟨decl, hdecl, hstatic⟩ := hdeclared m hm
      rw [← hstatic]
      exact hagrees decl hdecl

end

/-! ## Accepted trees -/

section

open Typing

variable {Γ : Site}

/-- A class that is named by a value of its type is the class itself. -/
theorem namesOwnClass_of_namesClass {t : Ast}
    (hnamed : namesClass Γ.table Γ.info.name t = true)
    (hvalue : valueType? Γ.table Γ.info.name none t = some (.object Γ.table.className)) :
    namesOwnClass Γ.context t = true := by
  induction t using Tree.induction with
  | node n ts ih =>
    rw [namesClass.eq_def] at hnamed
    rw [valueType?.eq_def] at hvalue
    rw [namesOwnClass.eq_def]
    dsimp only at hnamed hvalue ⊢
    cases hk : n.kind with
    | className name =>
      simp only [hk] at hvalue ⊢
      exact beq_iff_eq.mpr (ValueType.object.inj (Option.some.inj hvalue))
    | identifier name =>
      simp only [hk] at hnamed hvalue ⊢
      have hres : Γ.table.resolve? Γ.info.name name = none := Option.isNone_iff_eq_none.mp hnamed
      unfold leafType? at hvalue
      simp only [hres] at hvalue
      refine Bool.and_eq_true_iff.mpr ⟨hnamed, beq_iff_eq.mpr ?_⟩
      exact ValueType.object.inj (Option.some.inj hvalue)
    | parenthesis =>
      simp only [hk] at hnamed hvalue ⊢
      cases ts with
      | nil => cases hvalue
      | cons t rest => exact ih t List.mem_cons_self hnamed hvalue
    | condition =>
      simp only [hk] at hvalue
      cases hvalue
    | _ =>
      simp only [hk] at hnamed
      cases hnamed

/-- A method that is called on the name of the class is static. -/
def staticIfNamed (isStatic named : Bool) : Bool :=
  !named || isStatic

/-- A static method is called on the name of the class. -/
def namedIfStatic (isStatic named : Bool) : Bool :=
  !isStatic || named

/-- **The checker sees to it that a method called on the name of the class is static.** -/
theorem ownCalls_of_infer {t : Ast} {type : Ty} (h : (infer Γ.context t).Gives (some type)) :
    ownCalls staticIfNamed Γ.table Γ.info.name t = true := by
  obtain ⟨n, ts⟩ := t
  by_cases hkind : ∃ callee, n.kind = .invocation callee
  · obtain ⟨callee, hkind⟩ := hkind
    obtain ⟨_, -, htyped⟩ := infer_cases h
    change Types Γ.context n ts _ at htyped
    cases htyped with
    | @invocation method t args target _ hk ht hargs hcall =>
      refine (ownCalls_invocation hk).mpr fun hvalue info hinfo => ?_
      have hown := isOwnTarget_of_valueType? ht hvalue
      rcases inferCall_gives hcall with ⟨-, info', hinfo', hthrough, -, -⟩ | ⟨-, hnone, -⟩ |
        ⟨hother, -⟩
      · cases Option.some.inj (hinfo.symm.trans hinfo')
        unfold staticIfNamed
        by_cases hnamed : namesClass Γ.table Γ.info.name t = true
        · rw [hthrough (namesOwnClass_of_namesClass hnamed hvalue), Bool.or_true]
        · rw [Bool.eq_false_iff.mpr hnamed]
          rfl
      · cases hinfo.symm.trans hnone
      · exact absurd hown hother
    | integer hk | boolean hk | string hk | this hk | className hk | newObject hk | «variable» hk
    | classRef hk | parenthesis hk | binary hk | negation hk | arrayAccess hk | arrayLength hk
    | newArray hk =>
      rw [hkind] at hk
      cases hk
  · exact ownCalls_of_ne fun callee hk => hkind ⟨callee, hk⟩

theorem ownCalls_of_accepted {t : Ast} (h : (checkStatement Γ.context t).Gives ()) :
    t.everywhere (ownCalls staticIfNamed Γ.table Γ.info.name) = true := by
  refine everywhere_of_accepted rfl (fun _ _ h => ownCalls_of_infer h) (fun t h => ?_) h
  obtain ⟨n, ts⟩ := t
  by_cases hkind : ∃ callee, n.kind = .invocation callee
  · obtain ⟨callee, hkind⟩ := hkind
    cases checkStatement_cases h with
    | effect hk he => exact ownCalls_of_infer he
    | declaration hk => simp [hkind, Kind.writtenType?] at hk
    | sequence hk => simp [hkind] at hk
    | conditional hk | loop hk | condition hk | expression hk | assignment hk | element hk
    | returnOutside hk | returnNone hk | returnSome hk =>
      rw [hkind] at hk
      cases hk
  · exact ownCalls_of_ne fun callee hk => hkind ⟨callee, hk⟩

end

/-! ## Edited trees -/

section

variable {κ : Type} {D : Domain κ} {T : ClassTable} {method : String} {r : Bool → Bool → Bool}

/-- Edits keep the names of classes that are called on. -/
theorem namesClass_of_edited {t t' : Ast} (hedit : Edited D t t') {name : String}
    (h : valueType? T method none t' = some (.object name)) :
    namesClass T method t' = namesClass T method t := by
  induction t using Tree.induction generalizing t' with
  | node n ts ih =>
    cases hedit with
    | @literal _ n' c _ hk =>
      rw [valueType?.eq_def] at h
      cases hkind : n'.kind <;> rw [hkind] at hk <;> simp only [ofKind?, reduceCtorEq] at hk
      all_goals
        simp only [hkind] at h
        cases h
    | @node _ _ ts' hts =>
      rw [namesClass.eq_def, namesClass.eq_def T method (.node n ts)]
      rw [valueType?.eq_def] at h
      dsimp only at h ⊢
      cases hkind : n.kind with
      | parenthesis =>
        rw [hkind] at h
        cases hts with
        | nil => cases h
        | cons ht _ => exact ih _ List.mem_cons_self ht h
      | condition =>
        rw [hkind] at h
        cases h
      | _ => rfl

theorem ownCalls_of_edited {t t' : Ast} (hedit : Edited D t t')
    (h : t.everywhere (ownCalls r T method) = true) :
    t'.everywhere (ownCalls r T method) = true := by
  refine Machine.everywhere_of_edited (fun n c hk => ?_) (fun n ts ts' hts hroot => ?_) hedit h
  · refine ownCalls_of_ne fun callee hkind => ?_
    rw [hkind] at hk
    cases hk
  · by_cases hkind : ∃ callee, n.kind = .invocation callee
    · obtain ⟨callee, hk⟩ := hkind
      cases hts with
      | nil => exact hroot
      | cons ht hargs =>
        refine (ownCalls_invocation hk).mpr fun hvalue info hinfo => ?_
        rw [namesClass_of_edited ht hvalue]
        exact (ownCalls_invocation hk).mp hroot (valueType?_of_edited ht hvalue) info hinfo
    · exact ownCalls_of_ne fun callee hk => hkind ⟨callee, hk⟩

end

/-! ## Lowered classes -/

section

variable {T : ClassTable} {t c : Ast} {code : ClassCode}

/-- The table and the code declare the same methods as static. -/
theorem isStatic_of_mem {members : List Ast} {ms : List Method}
    (hmethods : lowerMethods T members = .ok ms) {m : Method} (hm : m ∈ ms) :
    ∃ info, T.method? m.name = some info ∧ info.isStatic = m.isStatic := by
  obtain ⟨member, -, name, info, -, hinfo, hlower⟩ := mem_lowerMethods hmethods hm
  obtain ⟨-, -, -, -, -, -, hname, hstatic, -⟩ := lowerMethod_eq_ok hlower
  obtain rfl := ClassTable.name_of_method? hinfo
  rw [← hname] at hinfo
  exact ⟨info, hinfo, hstatic.symm⟩

/-- Every method of the table is in the code. -/
theorem listed_of_method? (htable : (ClassTable.ofTree t).Gives T) (hc : t.classTree = .ok c)
    {κ : Type} {D : String → Domain κ} {c' : Ast} (hedit : EditedClass D c c') {ms : List Method}
    (hmethods : lowerMethods T c'.children = .ok ms) {name : String} {info : MethodInfo}
    (h : T.method? name = some info) : ∃ m ∈ ms, m.name = name := by
  obtain ⟨d, hd, hextends⟩ := ClassTable.ofTree_gives htable
  cases Except.ok.inj (hc.symm.trans hd)
  obtain rfl := ClassTable.name_of_method? h
  rcases hextends.methods info (ClassTable.method?_mem h) with hempty | ⟨member, hmember, hdecl⟩
  · rw [(ClassTable.ofHeader_empty _ _).2] at hempty
    exact absurd hempty List.not_mem_nil
  · obtain ⟨member', hmember', hedited⟩ := forall₂_mem_right hedit.members.flip hmember
    have hedited : Constant.EditedMember D member member' := hedited
    have hname := hedited.methodName?.trans hdecl.1
    have hmem : member' ∈ c'.methods := List.mem_filter.mpr ⟨hmember', by rw [hname]; rfl⟩
    obtain ⟨m, hm, info', hname', -, hlower⟩ :=
      forall₂_mem_right (lowerMethods_forall₂ hmethods).flip hmem
    obtain ⟨-, -, -, -, -, -, hsame, -, -⟩ := lowerMethod_eq_ok hlower
    exact ⟨m, hm, hsame.trans (Option.some.inj (hname'.symm.trans hname))⟩

/-- Every static method of the class that is called in the body of a method is called on the name of
the class. -/
def callsByName (T : ClassTable) (member : Ast) : Bool :=
  match member.kind.methodName? with
  | none => true
  | some name => member.children.all (Tree.everywhere (ownCalls namedIfStatic T name))

/-- The kinds of the calls in the code of a method.  A static call of a method of the class is of a
static method; and each is static exactly if the method is, if and only if no static method is
called on an object. -/
structure KindsAsNamed (T : ClassTable) (code : ClassCode) (member : Ast) (m : Method) : Prop where
  static : UsesOnly (Member.Agrees staticIfNamed code) m.code
  agree : UsesOnly (Member.Agrees (· == ·) code) m.code ↔ callsByName T member = true

/-- **The kinds of calls in the code of an accepted class**, and of a class that was edited. -/
theorem lowerClass_kinds {κ : Type} {D : String → Domain κ} {t' c' : Ast}
    (htable : (ClassTable.ofTree t).Gives T) (hcheck : (Typing.checkClass T t).Gives ())
    (hc : t.classTree = .ok c) (hedit : EditedClass D c c') (hc' : t'.classTree = .ok c')
    (hcode : lowerClass T t' = .ok code) :
    Forall₂ (KindsAsNamed T code) c'.methods code.methods := by
  obtain ⟨-, hmethods⟩ := Machine.lowerClass_eq_ok hc' hcode
  have hmembers : ∀ member ∈ c'.methods, member ∈ c'.children :=
    fun _ h => List.mem_of_mem_filter h
  refine ((List.forall₂_and_left _ _).mpr ⟨hmembers, lowerMethods_forall₂ hmethods⟩).imp ?_
  rintro member' m ⟨hmember', info, hname', hinfo, hm⟩
  obtain ⟨member, hmember, hedited⟩ := forall₂_mem_right hedit.members hmember'
  have hname : member.kind.methodName? = some info.name := hedited.methodName?.symm.trans hname'
  obtain ⟨info', hinfo', hbody⟩ := Typing.body_of_accepted htable hcheck hc hmember hname
  cases Option.some.inj (hinfo.symm.trans hinfo')
  -- What is true of the accepted body is true of the body that was edited.
  have hnodes : ∀ u' ∈ member'.children, Site.Admits ⟨T, info⟩ u' ∧
      u'.everywhere (ownCalls staticIfNamed T info.name) = true := by
    intro u' hu'
    obtain ⟨u, hu, hedited⟩ := forall₂_mem_right (hedited.children hname).2 hu'
    have haccepted := hbody u hu
    have hlinks := links_of_edited hedited (links_of_accepted (Γ := ⟨T, info⟩) haccepted)
    have hstatic := ownCalls_of_edited hedited (ownCalls_of_accepted (Γ := ⟨T, info⟩) haccepted)
    exact ⟨admits_of_links hlinks, hstatic⟩
  have hmirrors (r : Bool → Bool → Bool) :
      UsesOnly (Member.Agrees r code) m.code ↔
        ∀ u ∈ member'.children, u.everywhere (ownCalls r T info.name) = true :=
    lowerMethod_mirrors (agrees_mirrors (lowerClass_name hcode)
      (fun m hm => isStatic_of_mem hmethods hm)
      (fun _ _ h => listed_of_method? htable hc hedit hmethods h) info)
      (fun u hu => (hnodes u hu).1) hm
  refine ⟨(hmirrors _).mpr fun u hu => (hnodes u hu).2, ?_⟩
  rw [hmirrors, callsByName, hname', List.all_eq_true]
  refine forall₂_congr fun u hu => ?_
  constructor
  · intro h
    exact Tree.everywhere_imp (fun v hv hv' => ownCalls_imp (by decide) hv hv') h h
  · intro h
    refine Tree.everywhere_imp (fun v hv hv' => ?_) (hnodes u hu).2 h
    exact ownCalls_imp (by decide) hv hv'

end

end ThreeAddress
end ClassCompiler
