import ClassCompiler.Proofs.Machine.Emittable
import Mathlib.Logic.Relation

/-!
# Where the code of a method ends

Code is left by a return.  It must not be left in any other way: behind its last instruction there
is nothing to go on with.  The ways through code are those that its instructions allow, whatever the
values are: to the next instruction, unless there is a return or a jump, and to the label that an
instruction names.

A method without a result ends in a return, written or not.  Any other ends as its last statement
does: with a return, if that is what it is, and else with something that may be gone past.  Blocks
are looked into, and what has no code does not count.

* `Flows`, `Contained`: the ways through code, and code that is left by returns only.
* `contained_of_getLast?`: closed code that ends in a return or a jump is contained.
* `Tree.returns?`: how a statement ends.
* `lowerMethod_ends_iff`: how the code of a method ends.
* `EndsAsWritten`, `lowerClass_endsAsWritten`: what this means for the methods of a class.
-/

namespace ClassCompiler

/-! ## Ways through code -/

namespace ThreeAddress

/-- An instruction may be followed by another. -/
inductive Flows (code : List Instr) : Nat → Nat → Prop
  | next {place i} (hi : code[place]? = some i) (hgoes : i.isTerminator = false) :
    Flows code place (place + 1)
  | jump {place i name place'} (hi : code[place]? = some i) (hname : i.target? = some name)
    (hlabel : code[place']? = some (.label name)) : Flows code place place'

/-- Every way from the start of the code gets to an instruction, and from there to another one
unless it is a return. -/
def Contained (code : List Instr) : Prop :=
  ∀ place, Relation.ReflTransGen (Flows code) 0 place →
    ∃ i, code[place]? = some i ∧ ((∃ value, i = .ret value) ∨ ∃ place', Flows code place place')

section

variable {code : List Instr} {last : Instr}

/-- What is not a return or a jump is not the last instruction of code that ends in one. -/
theorem succ_lt_length (hlast : code.getLast? = some last) (hends : last.isTerminator = true)
    {place : Nat} {i : Instr} (hi : code[place]? = some i) (hgoes : i.isTerminator = false) :
    place + 1 < code.length := by
  obtain ⟨hlt, -⟩ := List.getElem?_eq_some_iff.mp hi
  refine Nat.lt_of_le_of_ne hlt fun hplace => ?_
  rw [List.getLast?_eq_getElem?, ← hplace, Nat.succ_sub_one, hi] at hlast
  rw [Option.some.inj hlast, hends] at hgoes
  cases hgoes

/-- A step on a way through code that ends in a return or a jump. -/
theorem Flows.inside (hlast : code.getLast? = some last) (hends : last.isTerminator = true)
    {place place' : Nat} (h : Flows code place place') : place' < code.length := by
  cases h with
  | next hi hgoes => exact succ_lt_length hlast hends hi hgoes
  | jump _ _ hlabel => exact (List.getElem?_eq_some_iff.mp hlabel).1

/-- **Code that ends in a return or a jump is left by returns only**, if its jumps have labels. -/
theorem contained_of_getLast? (hlast : code.getLast? = some last)
    (hends : last.isTerminator = true)
    (hjumps : ∀ i ∈ code, ∀ name, i.target? = some name → name ∈ labelsOf code) :
    Contained code := by
  intro place hway
  have hinside : place < code.length := by
    induction hway with
    | refl => exact List.length_pos_of_mem (List.mem_of_getLast? hlast)
    | tail _ hstep _ => exact hstep.inside hlast hends
  obtain ⟨i, hi⟩ : ∃ i, code[place]? = some i := ⟨_, List.getElem?_eq_getElem hinside⟩
  refine ⟨i, hi, ?_⟩
  by_cases hgoes : i.isTerminator = false
  · exact .inr ⟨place + 1, .next hi hgoes⟩
  · cases i with
    | ret value => exact .inl ⟨value, rfl⟩
    | jump name =>
      have hmem := hjumps _ (List.mem_of_getElem? hi) name rfl
      obtain ⟨j, hj, hname⟩ := List.mem_filterMap.mp hmem
      obtain ⟨place', hplace'⟩ := List.getElem?_of_mem hj
      have hlabel : j = .label name := by
        cases j with
        | label other => exact congrArg Instr.label (Option.some.inj hname)
        | _ => cases hname
      exact .inr ⟨place', .jump hi rfl (hlabel ▸ hplace')⟩
    | _ => exact absurd rfl hgoes

end

end ThreeAddress

/-! ## How statements end -/

namespace Tree

mutual

/-- Whether the code of a statement ends in a return.  A declaration has no code, and neither has a
block with nothing but declarations in it. -/
def returns? : Ast → Option Bool
  | .node n ts =>
    match n.kind with
    | .returnType _ | .argument _ _ | .localVar _ _ => none
    | .block | .thenBranch | .elseBranch => returnsAll? ts
    | .ret => some true
    | _ => some false

/-- Whether the code of statements ends in a return: the last one that has code decides. -/
def returnsAll? : List Ast → Option Bool
  | [] => none
  | t :: ts => (returnsAll? ts).or (returns? t)

end

/-- The last statement that has code is a return. -/
def endsInReturn (ts : List Ast) : Bool :=
  returnsAll? ts == some true

/-- The methods among the members of a class. -/
def methods (c : Ast) : List Ast :=
  c.children.filter fun member => member.kind.methodName?.isSome

end Tree

namespace ThreeAddress

open Meaning (except_bind_eq_ok)

variable {Γ : Site} {f f' : Fresh} {code : List Instr}

/-- How code ends: whether its last instruction is a return or a jump, if there is one. -/
def ending? (code : List Instr) : Option Bool :=
  code.getLast?.map Instr.isTerminator

@[simp] theorem ending?_concat (code : List Instr) (i : Instr) :
    ending? (code ++ [i]) = some i.isTerminator := by
  rw [ending?, List.getLast?_concat, Option.map_some]

theorem ending?_append (code code' : List Instr) :
    ending? (code ++ code') = (ending? code').or (ending? code) := by
  rw [ending?, List.getLast?_append, Option.map_or]
  rfl

theorem ending?_eq_some {b : Bool} :
    ending? code = some b ↔ ∃ i, code.getLast? = some i ∧ i.isTerminator = b :=
  Option.map_eq_some_iff

theorem ending?_storeIn (dest : Var) (v : Lowered) : ending? (v.storeIn dest) = some false := by
  unfold Lowered.storeIn
  split
  · split
    · exact ending?_concat ..
    · exact ending?_concat ..
  · exact ending?_concat ..

theorem lowerEffect_ending {t : Ast} (h : (lowerEffect Γ t).run f = .ok (code, f')) :
    ending? code = some false := by
  induction t using Tree.induction generalizing f code f' with
  | node n ts ih =>
    cases lowerEffect_cases h with
    | @parenthesis t ts _ _ _ h => exact ih t List.mem_cons_self h
    | invocation _ _ => exact ending?_concat ..
    | value _ _ _ => exact ending?_concat ..

theorem lowerStatements_ending {ts : List Ast}
    (ih : ∀ t ∈ ts, ∀ f code f', (lowerStatement Γ t).run f = .ok (code, f') →
      ending? code = t.returns?)
    (h : (lowerStatements Γ ts).run f = .ok (code, f')) : ending? code = Tree.returnsAll? ts := by
  induction ts generalizing f code with
  | nil =>
    obtain ⟨rfl, -⟩ := lowerStatements_nil_eq_ok h
    rfl
  | cons t ts ihs =>
    obtain ⟨first, f₁, rest, hfirst, hrest, rfl⟩ := lowerStatements_cons_eq_ok h
    have hlater := ihs (fun u hu => ih u (List.mem_cons_of_mem t hu)) hrest
    rw [ending?_append, hlater, ih t List.mem_cons_self _ _ _ hfirst, Tree.returnsAll?]

/-- **The code of a statement ends as the statement does.** -/
theorem lowerStatement_ending {t : Ast} (h : (lowerStatement Γ t).run f = .ok (code, f')) :
    ending? code = t.returns? := by
  induction t using Tree.induction generalizing f code f' with
  | node n ts ih =>
    unfold Tree.returns?
    cases lowerStatement_cases h with
    | declaration hk =>
      cases hkind : n.kind with
      | returnType _ | argument _ _ | localVar _ _ => rfl
      | _ =>
        rw [hkind] at hk
        cases hk
    | sequence hk h =>
      have hall := lowerStatements_ending (fun t ht _ _ _ h => ih t ht h) h
      rcases hk with hk | hk | hk <;> simp only [hk, hall]
    | conditional hk _ _ _ => simp only [hk, conditionalCode, ending?_concat, Instr.isTerminator]
    | loop hk _ _ _ =>
      simp only [hk, loopCode, ending?_append]
      rfl
    | expression hk h => simp only [hk, lowerEffect_ending h]
    | «variable» hk _ _ _ _ => simp only [hk, ending?_storeIn]
    | field hk _ _ _ => simp only [hk, ending?_concat, Instr.isTerminator]
    | element hk _ _ _ _ _ => simp only [hk, ending?_concat, Instr.isTerminator]
    | returnNone hk =>
      simp only [hk]
      rfl
    | returnSome hk _ _ => simp only [hk, ending?_concat, Instr.isTerminator]
    | condition hk _ => simp only [hk, ending?_concat, Instr.isTerminator]
    | effect hk h =>
      rw [lowerEffect_ending h]
      cases hkind : n.kind with
      | returnType _ | argument _ _ | localVar _ _ | block | thenBranch | elseBranch | ret =>
        rw [hkind] at hk
        cases hk
      | _ => rfl

/-! ## How methods end -/

/-- **The code of a method ends in a return or a jump exactly if** the method has no result or its
last statement is a return. -/
theorem lowerMethod_ends_iff {T : ClassTable} {info : MethodInfo} {ts : List Ast} {m : Method}
    (h : lowerMethod T info ts = .ok m) :
    (∃ i, m.code.getLast? = some i ∧ i.isTerminator = true) ↔
      m.result = .void ∨ Tree.endsInReturn ts = true := by
  obtain ⟨code, f, hcode, -, -, -, -, -, hclose⟩ := lowerMethod_eq_ok h
  have hends : ending? code = Tree.returnsAll? ts :=
    lowerStatements_ending (fun _ _ _ _ _ h => lowerStatement_ending h) hcode
  rw [← ending?_eq_some, hclose, Tree.endsInReturn, beq_iff_eq, ← hends]
  rcases Meaning.closeBody_cases m.result code with ⟨hresult, heq⟩ | ⟨hresult, heq⟩ |
    ⟨hresult, heq, operand, hlast⟩
  · rw [heq]
    exact ⟨.inr, fun h => h.resolve_left hresult⟩
  · rw [heq, ending?_concat]
    exact ⟨fun _ => .inl hresult, fun _ => rfl⟩
  · rw [heq, ending?, hlast]
    exact ⟨fun _ => .inl hresult, fun _ => rfl⟩

/-- A method that has no result or whose last statement is a return, and no other, has code that
ends in a return or a jump.  Something follows every label in such code, and nothing but returns
leaves it. -/
structure EndsAsWritten (member : Ast) (m : Method) : Prop where
  ends : (∃ i, m.code.getLast? = some i ∧ i.isTerminator = true) ↔
    m.result = .void ∨ Tree.endsInReturn member.children = true
  followed : m.result = .void ∨ Tree.endsInReturn member.children = true →
    ∀ place name, m.code[place]? = some (.label name) → place + 1 < m.code.length
  contained : m.result = .void ∨ Tree.endsInReturn member.children = true → Contained m.code

theorem lowerMethod_endsAsWritten {T : ClassTable} {info : MethodInfo} {member : Ast} {m : Method}
    (hinfo : T.method? info.name = some info) (h : lowerMethod T info member.children = .ok m) :
    EndsAsWritten member m := by
  have hiff := lowerMethod_ends_iff h
  refine ⟨hiff, fun hends place name hlabel => ?_, fun hends => ?_⟩
  · obtain ⟨last, hlast, hterminates⟩ := hiff.mpr hends
    exact succ_lt_length hlast hterminates hlabel rfl
  · obtain ⟨last, hlast, hterminates⟩ := hiff.mpr hends
    exact contained_of_getLast? hlast hterminates (Machine.lowerMethod_isClosed hinfo h).jumps

/-- The methods of a class and their code, in order. -/
theorem lowerMethods_forall₂ {T : ClassTable} {c : Ast} {ms : List Method}
    (h : lowerMethods T c.children = .ok ms) :
    List.Forall₂ (fun member m => ∃ info, member.kind.methodName? = some info.name ∧
      T.method? info.name = some info ∧ lowerMethod T info member.children = .ok m)
      c.methods ms := by
  unfold Tree.methods
  generalize c.children = members at h ⊢
  induction members generalizing ms with
  | nil =>
    cases Except.ok.inj h
    exact .nil
  | cons member members ih =>
    rw [lowerMethods] at h
    split at h
    · rename_i hname
      rw [List.filter_cons_of_neg (by simp [hname])]
      exact ih h
    · rename_i name hname
      rw [List.filter_cons_of_pos (by simp [hname])]
      split at h
      · cases h
      · rename_i info hinfo
        obtain rfl := ClassTable.name_of_method? hinfo
        obtain ⟨m, hm, h⟩ := except_bind_eq_ok.mp h
        obtain ⟨rest, hrest, h⟩ := except_bind_eq_ok.mp h
        cases Except.ok.inj h
        exact .cons ⟨info, hname, hinfo, hm⟩ (ih hrest)

theorem lowerClass_endsAsWritten {T : ClassTable} {t c : Ast} {code : ClassCode}
    (hc : t.classTree = .ok c) (h : lowerClass T t = .ok code) :
    List.Forall₂ EndsAsWritten c.methods code.methods := by
  obtain ⟨-, hmethods⟩ := Machine.lowerClass_eq_ok hc h
  refine (lowerMethods_forall₂ hmethods).imp ?_
  rintro member m ⟨info, -, hinfo, hm⟩
  exact lowerMethod_endsAsWritten hinfo hm

end ThreeAddress
end ClassCompiler
