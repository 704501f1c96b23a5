import ClassCompiler.Proofs.ThreeAddress.Ending
import ClassCompiler.Proofs.ThreeAddress.ValueTypes

/-!
# The members that code uses

An instruction uses at most one member of a class: it calls a method, or it reads or writes a field.
A call in the code of a tree is what an invocation in the tree was lowered to, and a field is one
that the table has under its name.  Whatever is true of these two is true of all members that the
code of a method uses.

* `Instr.member?`: the member that an instruction uses.
* `Site.Yields`: what is true of the members that trees are lowered to.
* `lowerExpr_uses`, `lowerStatement_uses`, `lowerMethod_uses`: the members in lowered code.
-/

namespace ClassCompiler
namespace ThreeAddress

/-- A member of a class, as an instruction uses it. -/
inductive Member where
  | call (c : Call)
  | field (object : Operand) (field : Var)

/-- The member that a right-hand side uses. -/
def Rhs.member? : Rhs → Option Member
  | .call c => some (.call c)
  | .getField object field => some (.field object field)
  | _ => none

/-- The member that an instruction uses. -/
def Instr.member? : Instr → Option Member
  | .assign _ rhs => rhs.member?
  | .call c => some (.call c)
  | .putField object field _ => some (.field object field)
  | _ => none

/-- Every member that code uses satisfies a condition. -/
def UsesOnly (P : Member → Prop) (code : List Instr) : Prop :=
  ∀ i ∈ code, ∀ m, i.member? = some m → P m

section

variable {P : Member → Prop}

@[simp] theorem usesOnly_nil : UsesOnly P [] :=
  fun _ h => absurd h List.not_mem_nil

@[simp] theorem usesOnly_append (code code' : List Instr) :
    UsesOnly P (code ++ code') ↔ UsesOnly P code ∧ UsesOnly P code' :=
  List.forall_mem_append

@[simp] theorem usesOnly_cons (i : Instr) (code : List Instr) :
    UsesOnly P (i :: code) ↔ (∀ m, i.member? = some m → P m) ∧ UsesOnly P code :=
  List.forall_mem_cons

theorem UsesOnly.concat {code : List Instr} (h : UsesOnly P code) {i : Instr}
    (hi : ∀ m, i.member? = some m → P m) : UsesOnly P (code ++ [i]) :=
  (usesOnly_append ..).mpr ⟨h, (usesOnly_cons ..).mpr ⟨hi, usesOnly_nil⟩⟩

theorem UsesOnly.concat_of_none {code : List Instr} (h : UsesOnly P code) {i : Instr}
    (hi : i.member? = none) : UsesOnly P (code ++ [i]) := by
  refine h.concat fun m hm => ?_
  rw [hi] at hm
  exact absurd hm (Option.some_ne_none m).symm

/-- What is stored elsewhere uses the same member. -/
theorem Lowered.storeIn_uses {v : Lowered} (h : UsesOnly P v.code) (dest : Var) :
    UsesOnly P (v.storeIn dest) := by
  have hcopy : UsesOnly P (v.code ++ [.assign dest (.operand v.value)]) := h.concat_of_none rfl
  unfold Lowered.storeIn
  split
  · rename_i last rhs hvalue hlast
    split
    · have hcode : v.code.dropLast ++ [.assign last rhs] = v.code :=
        List.dropLast_append_getLast? _ hlast
      rw [← hcode, usesOnly_append, usesOnly_cons] at h
      exact h.1.concat h.2.1
    · exact hcopy
  · exact hcopy

end

/-- What is true of the members that trees are lowered to: of a field that is found under its name,
and of a call that an invocation gives in which every node satisfies a condition. -/
structure Site.Yields (Γ : Site) (q : Ast → Bool) (P : Member → Prop) : Prop where
  field : ∀ name symbol type, Γ.table.resolve? Γ.info.name name = some (.field, symbol) →
    ValueType.ofType symbol.type = .ok type → P (.field Γ.this ⟨name, type⟩)
  call : ∀ n method ts, n.kind = .invocation method →
    (Tree.node n ts : Ast).everywhere q = true → ∀ expected f code c f',
      (lowerCall Γ n method expected ts).run f = .ok ((code, c), f') → P (.call c)

section

variable {Γ : Site} {q : Ast → Bool} {P : Member → Prop} {f f' : Fresh}
  {expected : Option ValueType} {v : Lowered} {code : List Instr}

theorem lowerArgs_uses {ts : List Ast}
    (h : ∀ t ∈ ts, ∀ expected f v f', (lowerExpr Γ expected t).run f = .ok (v, f') →
      UsesOnly P v.code) {declared : List Symbol} {args : LoweredArgs}
    (hargs : (lowerArgs Γ declared ts).run f = .ok (args, f')) : UsesOnly P args.code := by
  induction ts generalizing declared f args with
  | nil =>
    obtain ⟨rfl, -⟩ := lowerArgs_nil_eq_ok hargs
    exact usesOnly_nil
  | cons t ts ih =>
    obtain ⟨param, arg, f₁, rest, -, harg, hrest, rfl⟩ := lowerArgs_cons_eq_ok hargs
    have hfirst := h t List.mem_cons_self _ _ _ _ harg
    have hlater := ih (fun u hu => h u (List.mem_cons_of_mem t hu)) hrest
    exact (usesOnly_append ..).mpr ⟨hfirst, hlater⟩

/-- The code before a call. -/
theorem lowerCall_uses {n : Numbered} {method : String} {ts : List Ast}
    (h : ∀ t ∈ ts, ∀ expected f v f', (lowerExpr Γ expected t).run f = .ok (v, f') →
      UsesOnly P v.code) {call : Call}
    (hcall : (lowerCall Γ n method expected ts).run f = .ok ((code, call), f')) :
    UsesOnly P code := by
  obtain ⟨t, rest, target, f₁, args, result, rfl, htarget, hargs, -, rfl, -⟩ :=
    lowerCall_eq_ok hcall
  have hfirst := h t List.mem_cons_self _ _ _ _ htarget
  have hlater := lowerArgs_uses (fun u hu => h u (List.mem_cons_of_mem t hu)) hargs
  exact (usesOnly_append ..).mpr ⟨hfirst, hlater⟩

variable (hΓ : Γ.Yields q P)

include hΓ

theorem lowerExpr_uses {t : Ast} (ht : t.everywhere q = true)
    (hlower : (lowerExpr Γ expected t).run f = .ok (v, f')) : UsesOnly P v.code := by
  induction t using Tree.induction generalizing expected f v f' with
  | node n ts ih =>
    have hbelow := (Tree.everywhere_node.mp ht).2
    cases lowerExpr_cases hlower with
    | integer | boolean | string | this | className | «variable» | classRef => exact usesOnly_nil
    | newObject => exact usesOnly_nil.concat_of_none rfl
    | field hk hres _ htype =>
      refine usesOnly_nil.concat fun m hm => ?_
      cases Option.some.inj hm
      exact hΓ.field _ _ _ hres htype
    | @parenthesis t rest _ _ hk h =>
      rw [hk] at hbelow
      exact ih t List.mem_cons_self (hbelow t List.mem_cons_self) h
    | @binary op l r rest left f₁ right f₂ hk hl hr =>
      rw [hk] at hbelow
      have hleft := ih l (by simp) (hbelow l (by simp [Kind.used])) hl
      have hright := ih r (by simp) (hbelow r (by simp [Kind.used])) hr
      exact ((usesOnly_append ..).mpr ⟨hleft, hright⟩).concat_of_none rfl
    | @arrayAccess a i rest base f₁ index f₂ array hk ha hi harray =>
      rw [hk] at hbelow
      have hbase := ih a (by simp) (hbelow a (by simp [Kind.used])) ha
      have hindex := ih i (by simp) (hbelow i (by simp [Kind.used])) hi
      exact ((usesOnly_append ..).mpr ⟨hbase, hindex⟩).concat_of_none rfl
    | @negation t rest inner f₁ hk h | @arrayLength t rest inner f₁ hk h
    | @newArray t rest inner f₁ hk h =>
      rw [hk] at hbelow
      exact (ih t List.mem_cons_self (hbelow t List.mem_cons_self) h).concat_of_none rfl
    | @invocation method _ code call f₁ hk h =>
      rw [hk] at hbelow
      have hcode := lowerCall_uses (fun u hu _ _ _ _ h => ih u hu (hbelow u hu) h) h
      refine hcode.concat fun m hm => ?_
      cases Option.some.inj hm
      exact hΓ.call n method ts hk ht _ _ _ _ _ h

theorem lowerCondition_uses {t : Ast} (ht : t.everywhere q = true)
    (hlower : (lowerCondition Γ t).run f = .ok (v, f')) : UsesOnly P v.code := by
  obtain ⟨n, ts⟩ := t
  rcases lowerCondition_eq_ok hlower with ⟨u, rest, hk, rfl, h⟩ | ⟨-, h⟩
  · have hbelow := (Tree.everywhere_node.mp ht).2
    rw [hk] at hbelow
    exact lowerExpr_uses hΓ (hbelow u List.mem_cons_self) h
  · exact lowerExpr_uses hΓ ht h

theorem lowerEffect_uses {t : Ast} (ht : t.everywhere q = true)
    (hlower : (lowerEffect Γ t).run f = .ok (code, f')) : UsesOnly P code := by
  induction t using Tree.induction generalizing f code f' with
  | node n ts ih =>
    have hbelow := (Tree.everywhere_node.mp ht).2
    cases lowerEffect_cases hlower with
    | @parenthesis t rest _ _ hk h =>
      rw [hk] at hbelow
      exact ih t List.mem_cons_self (hbelow t List.mem_cons_self) h
    | @invocation method _ code call _ hk h =>
      rw [hk] at hbelow
      have hcode := lowerCall_uses (fun u hu _ _ _ _ h => lowerExpr_uses hΓ (hbelow u hu) h) h
      refine hcode.concat fun m hm => ?_
      cases Option.some.inj hm
      exact hΓ.call n method ts hk ht _ _ _ _ _ h
    | value _ _ h => exact (lowerExpr_uses hΓ ht h).concat_of_none rfl

omit hΓ in
theorem lowerStatements_uses {ts : List Ast}
    (h : ∀ t ∈ ts, ∀ f code f', (lowerStatement Γ t).run f = .ok (code, f') → UsesOnly P code)
    (hlower : (lowerStatements Γ ts).run f = .ok (code, f')) : UsesOnly P code := by
  induction ts generalizing f code with
  | nil =>
    obtain ⟨rfl, -⟩ := lowerStatements_nil_eq_ok hlower
    exact usesOnly_nil
  | cons t ts ih =>
    obtain ⟨first, f₁, rest, hfirst, hrest, rfl⟩ := lowerStatements_cons_eq_ok hlower
    have hfirst := h t List.mem_cons_self _ _ _ hfirst
    exact (usesOnly_append ..).mpr ⟨hfirst, ih (fun u hu => h u (List.mem_cons_of_mem t hu)) hrest⟩

theorem lowerArray_uses {name : String} {scope : Scope} {symbol : Symbol} {type : ValueType}
    (hres : Γ.table.resolve? Γ.info.name name = some (scope, symbol))
    (htype : ValueType.ofType symbol.type = .ok type) {array : Var}
    (h : (lowerArray Γ scope ⟨name, type⟩).run f = .ok ((code, array), f')) :
    UsesOnly P code := by
  cases scope with
  | field =>
    obtain ⟨temp, f₁, -, h⟩ := Lowering.bind_eq_ok.mp h
    obtain ⟨heq, -⟩ := Lowering.pure_eq_ok.mp h
    rw [(Prod.mk.inj heq).1]
    refine usesOnly_nil.concat fun m hm => ?_
    cases Option.some.inj hm
    exact hΓ.field _ _ _ hres htype
  | «local» | parameter =>
    obtain ⟨heq, -⟩ := Lowering.pure_eq_ok.mp h
    rw [(Prod.mk.inj heq).1]
    exact usesOnly_nil

/-- **The members that the code of a statement uses** are fields that are found under their names
and calls that invocations of the statement give. -/
theorem lowerStatement_uses {t : Ast} (ht : t.everywhere q = true)
    (hlower : (lowerStatement Γ t).run f = .ok (code, f')) : UsesOnly P code := by
  induction t using Tree.induction generalizing f code f' with
  | node n ts ih =>
    have hbelow := (Tree.everywhere_node.mp ht).2
    cases lowerStatement_cases hlower with
    | declaration hk => exact usesOnly_nil
    | sequence hk h =>
      have hused : n.kind.used ts = ts := by
        rcases hk with hk | hk | hk <;> rw [hk] <;> rfl
      rw [hused] at hbelow
      exact lowerStatements_uses (fun u hu _ _ _ h => ih u hu (hbelow u hu) h) h
    | @conditional c t rest cond f₁ thenCode f₂ elseCode f₃ hk hc hthen helse =>
      rw [hk] at hbelow
      have hcond := lowerCondition_uses hΓ (hbelow c (by simp [Kind.used])) hc
      have hthen := ih t (by simp) (hbelow t (by simp [Kind.used])) hthen
      have helse : UsesOnly P elseCode := by
        cases rest with
        | nil =>
          obtain ⟨rfl, -⟩ := Lowering.pure_eq_ok.mp helse
          exact usesOnly_nil
        | cons e rest => exact ih e (by simp) (hbelow e (by simp [Kind.used])) helse
      simp [conditionalCode, Instr.member?, hcond, hthen, helse]
    | @loop c body first f₁ bodyCode f₂ again f₃ hk hc hb hc' =>
      rw [hk] at hbelow
      have hfirst := lowerCondition_uses hΓ (hbelow c List.mem_cons_self) hc
      have hagain := lowerCondition_uses hΓ (hbelow c List.mem_cons_self) hc'
      have hbody := lowerStatements_uses (fun u hu _ _ _ h =>
        ih u (List.mem_cons_of_mem c hu) (hbelow u (List.mem_cons_of_mem c hu)) h) hb
      simp [loopCode, Instr.member?, hfirst, hagain, hbody]
    | @expression e rest _ _ hk h =>
      rw [hk] at hbelow
      exact lowerEffect_uses hΓ (hbelow e List.mem_cons_self) h
    | @«variable» name scope symbol type t rest v _ hk _ _ _ h =>
      rw [hk] at hbelow
      exact Lowered.storeIn_uses (lowerExpr_uses hΓ (hbelow t List.mem_cons_self) h) _
    | @field name symbol type t rest v _ hk hres htype h =>
      rw [hk] at hbelow
      refine (lowerExpr_uses hΓ (hbelow t List.mem_cons_self) h).concat fun m hm => ?_
      cases Option.some.inj hm
      exact hΓ.field _ _ _ hres htype
    | @element name scope symbol type i e rest code array f₁ index f₂ value f₃ hk hres htype ha hi
        he =>
      rw [hk] at hbelow
      have harray := lowerArray_uses hΓ hres htype ha
      have hindex := lowerExpr_uses hΓ (hbelow i (by simp [Kind.used])) hi
      have hvalue := lowerExpr_uses hΓ (hbelow e (by simp [Kind.used])) he
      simp [Instr.member?, harray, hindex, hvalue]
    | returnNone => exact usesOnly_nil.concat_of_none rfl
    | @returnSome t rest type v _ hk _ h =>
      rw [hk] at hbelow
      exact (lowerExpr_uses hΓ (hbelow t List.mem_cons_self) h).concat_of_none rfl
    | condition hk h => exact (lowerCondition_uses hΓ ht h).concat_of_none rfl
    | effect hk h => exact lowerEffect_uses hΓ ht h

end

/-- The members that the code of a method uses. -/
theorem lowerMethod_uses {T : ClassTable} {info : MethodInfo} {q : Ast → Bool} {P : Member → Prop}
    (hΓ : Site.Yields ⟨T, info⟩ q P) {ts : List Ast} (hts : ∀ t ∈ ts, t.everywhere q = true)
    {m : Method} (h : lowerMethod T info ts = .ok m) : UsesOnly P m.code := by
  obtain ⟨code, f, hcode, -, -, -, -, -, hclose⟩ := lowerMethod_eq_ok h
  have hbody := lowerStatements_uses (fun t ht _ _ _ h => lowerStatement_uses hΓ (hts t ht) h) hcode
  rw [hclose]
  rcases Meaning.closeBody_cases m.result code with ⟨-, heq⟩ | ⟨-, heq⟩ | ⟨-, heq, -⟩
  · rw [heq]
    exact hbody
  · rw [heq]
    exact hbody.concat_of_none rfl
  · rw [heq]
    exact hbody

end ThreeAddress
end ClassCompiler
