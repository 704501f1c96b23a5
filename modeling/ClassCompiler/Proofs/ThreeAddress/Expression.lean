import ClassCompiler.Proofs.ThreeAddress.Fresh
import ClassCompiler.Proofs.ThreeAddress.Lower
import ClassCompiler.Proofs.ThreeAddress.Simulate
import ClassCompiler.Proofs.Tree.Induction

/-!
# Lowered expressions compute what the tree computes

The value of a lowered expression waits in its operand until it is used.  Meanwhile the code of
other expressions runs.  It changes temporaries only, and none that was handed out before; so the
operand still has its value, and that is all that the order of evaluation needs.

An expression that is assigned to a variable is not computed into its own temporary.  The code of an
expression is therefore compared with the tree for *every* destination of its last instruction
(`Computes`).

* `lowerExpr_tidy`: the supply of names after an expression.
* `lowerExpr_computes`: every expression.
* `Computes.value`, `Computes.storeIn`: its value in its operand, or in a variable.
* `lowerEffect_evaluates`: expressions that are run for their effect.
-/

namespace ClassCompiler
namespace ThreeAddress

/-! ## Names -/

/-- The names of the parameters and locals of the method. -/
def Site.frameNames (Γ : Site) : List String :=
  (Γ.info.parameters ++ Γ.info.locals).map Symbol.name

/-- The method is the one that the table has under its name. -/
def Site.IsListed (Γ : Site) : Prop :=
  Γ.table.method? Γ.info.name = some Γ.info

/-- No name of the class is handed out as a temporary. -/
def Site.Reserved (Γ : Site) (f : Fresh) : Prop :=
  f.reserved = reservedNames Γ.table Γ.info

theorem name_of_find? {symbols : List Symbol} {name : String} {s : Symbol}
    (h : Symbol.find? symbols name = some s) : s.name = name ∧ s ∈ symbols := by
  unfold Symbol.find? at h
  have hname := List.find?_some h
  exact ⟨eq_of_beq hname, List.mem_of_find?_eq_some h⟩

/-- A variable that is no field is a parameter or a local. -/
theorem Site.mem_frameNames {Γ : Site} (hΓ : Γ.IsListed) {name : String} {scope : Scope}
    {symbol : Symbol} (h : Γ.table.resolve? Γ.info.name name = some (scope, symbol))
    (hscope : scope ≠ .field) : name ∈ Γ.frameNames := by
  unfold ClassTable.resolve? at h
  rw [show Γ.table.method? Γ.info.name = some Γ.info from hΓ, Option.bind_some] at h
  unfold ClassTable.frameVariable? at h
  unfold Site.frameNames
  cases hlocal : Symbol.find? Γ.info.locals name with
  | some s =>
    obtain ⟨hname, hmem⟩ := name_of_find? hlocal
    exact List.mem_map.mpr ⟨s, List.mem_append_right _ hmem, hname⟩
  | none =>
    rw [hlocal] at h
    cases hparam : Symbol.find? Γ.info.parameters name with
    | some s =>
      obtain ⟨hname, hmem⟩ := name_of_find? hparam
      exact List.mem_map.mpr ⟨s, List.mem_append_left _ hmem, hname⟩
    | none =>
      rw [hparam] at h
      cases hfield : Γ.table.field? name with
      | none => simp [hfield] at h
      | some s =>
        simp only [hfield, Option.map_none, Option.map_some, Option.some.injEq,
          Prod.mk.injEq] at h
        exact absurd h.1.symm hscope

theorem Site.Reserved.mem {Γ : Site} {f : Fresh} (hf : Γ.Reserved f) {name : String}
    (h : name ∈ Γ.frameNames) : name ∈ f.reserved := by
  rw [show f.reserved = _ from hf, reservedNames, List.map_append]
  exact List.mem_append_left _ h

theorem Site.Reserved.mono {Γ : Site} {f f' : Fresh} (hf : Γ.Reserved f) (h : f.Before f') :
    Γ.Reserved f' :=
  h.reserved.trans hf

/-- Code that changes only temporaries leaves the variables of the method alone. -/
theorem Site.Reserved.not_gives {Γ : Site} {f f' : Fresh} (hf : Γ.Reserved f) :
    ∀ x ∈ Γ.frameNames, ¬ f.Gives f' x :=
  fun _ hx hgives => Fresh.not_mem_of_gives hgives (hf.mem hx)

/-- An operand whose variable, if it is one, is not handed out any more. -/
def Operand.Settled (f : Fresh) (o : Operand) : Prop :=
  ∀ v, o = .var v → f.Settled v.name

/-- The supply of names after an expression: it has grown, and will not touch the value. -/
structure Tidy (f f' : Fresh) (o : Operand) : Prop where
  before : f.Before f'
  settled : o.Settled f'

theorem Fresh.lowered_tidy {f f₁ : Fresh} (h : f.Before f₁) (code : List Instr) (type : ValueType)
    (rhs : Rhs) : Tidy f (f₁.temp type).2 (f₁.lowered code type rhs).value := by
  refine ⟨h.trans (f₁.temp_before type), fun v hv => ?_⟩
  rw [← Operand.var.inj hv]
  exact f₁.temp_settled type

theorem Tidy.literal {f : Fresh} {o : Operand} (h : ∀ v, o ≠ .var v) : Tidy f f o :=
  ⟨.refl f, fun v hv => absurd hv (h v)⟩

theorem lowerArgs_before {Γ : Site} {ts : List Ast}
    (h : ∀ t ∈ ts, ∀ expected f v f', Γ.Reserved f →
      (lowerExpr Γ expected t).run f = .ok (v, f') → f.Before f')
    {declared : List Symbol} {f f' : Fresh} {args : LoweredArgs} (hf : Γ.Reserved f)
    (hargs : (lowerArgs Γ declared ts).run f = .ok (args, f')) : f.Before f' := by
  induction ts generalizing declared f args with
  | nil =>
    obtain ⟨-, rfl⟩ := lowerArgs_nil_eq_ok hargs
    exact .refl f'
  | cons t ts ih =>
    obtain ⟨param, arg, f₁, rest, -, harg, hrest, -⟩ := lowerArgs_cons_eq_ok hargs
    have hfirst := h t List.mem_cons_self _ _ _ _ hf harg
    exact hfirst.trans (ih (fun u hu => h u (List.mem_cons_of_mem t hu)) (hf.mono hfirst) hrest)

/-- **The supply of names after an expression.** -/
theorem lowerExpr_tidy {Γ : Site} (hΓ : Γ.IsListed) {t : Ast} {expected : Option ValueType}
    {f f' : Fresh} {v : Lowered} (hf : Γ.Reserved f)
    (hlower : (lowerExpr Γ expected t).run f = .ok (v, f')) : Tidy f f' v.value := by
  induction t using Tree.induction generalizing expected f v f' with
  | node n ts ih =>
    cases lowerExpr_cases hlower with
    | integer _ | boolean _ | string _ | this _ | className _ | classRef _ _ _ =>
      exact .literal fun v hv => nomatch hv
    | «variable» hk hres hscope htype =>
      refine ⟨.refl f, fun v hv => ?_⟩
      rw [← Operand.var.inj hv]
      exact Fresh.settled_of_mem (hf.mem (Γ.mem_frameNames hΓ hres hscope))
    | parenthesis _ h => exact ih _ List.mem_cons_self hf h
    | field _ _ _ _ | newObject _ => exact Fresh.lowered_tidy (.refl f) ..
    | binary _ hl hr =>
      have hleft := (ih _ List.mem_cons_self hf hl).before
      have hright := (ih _ (by simp) (hf.mono hleft) hr).before
      exact Fresh.lowered_tidy (hleft.trans hright) ..
    | arrayAccess _ ha hi _ =>
      have hbase := (ih _ List.mem_cons_self hf ha).before
      have hindex := (ih _ (by simp) (hf.mono hbase) hi).before
      exact Fresh.lowered_tidy (hbase.trans hindex) ..
    | negation _ h | arrayLength _ h | newArray _ h =>
      exact Fresh.lowered_tidy (ih _ List.mem_cons_self hf h).before ..
    | invocation _ h =>
      obtain ⟨t, rest, target, f₁, args, result, rfl, ht, hargs, -, -, -⟩ := lowerCall_eq_ok h
      have htarget := (ih t List.mem_cons_self hf ht).before
      refine Fresh.lowered_tidy (htarget.trans ?_) ..
      refine lowerArgs_before (fun u hu expected f v f' hf hu' => ?_) (hf.mono htarget) hargs
      exact (ih u (List.mem_cons_of_mem t hu) hf hu').before

theorem lowerCall_before {Γ : Site} (hΓ : Γ.IsListed) {n : Numbered} {method : String}
    {expected : Option ValueType} {ts : List Ast} {f f' : Fresh} {code : List Instr} {call : Call}
    (hf : Γ.Reserved f) (h : (lowerCall Γ n method expected ts).run f = .ok ((code, call), f')) :
    f.Before f' := by
  obtain ⟨t, rest, target, f₁, args, result, -, ht, hargs, -, -, -⟩ := lowerCall_eq_ok h
  have htarget := (lowerExpr_tidy hΓ hf ht).before
  exact htarget.trans (lowerArgs_before
    (fun _ _ _ _ _ _ hf h => (lowerExpr_tidy hΓ hf h).before) (hf.mono htarget) hargs)

theorem lowerCondition_tidy {Γ : Site} (hΓ : Γ.IsListed) {t : Ast} {f f' : Fresh} {v : Lowered}
    (hf : Γ.Reserved f) (hlower : (lowerCondition Γ t).run f = .ok (v, f')) :
    Tidy f f' v.value := by
  obtain ⟨n, ts⟩ := t
  rcases lowerCondition_eq_ok hlower with ⟨t, rest, -, -, h⟩ | ⟨-, h⟩
  · exact lowerExpr_tidy hΓ hf h
  · exact lowerExpr_tidy hΓ hf h

theorem lowerEffect_before {Γ : Site} (hΓ : Γ.IsListed) {t : Ast} {f f' : Fresh}
    {code : List Instr} (hf : Γ.Reserved f) (hlower : (lowerEffect Γ t).run f = .ok (code, f')) :
    f.Before f' := by
  induction t using Tree.induction generalizing code with
  | node n ts ih =>
    cases lowerEffect_cases hlower with
    | parenthesis _ h => exact ih _ List.mem_cons_self h
    | invocation _ h => exact lowerCall_before hΓ hf h
    | value _ _ h => exact (lowerExpr_tidy hΓ hf h).before

end ThreeAddress

namespace Meaning

open ThreeAddress

variable {σ α β : Type} {S : Setting σ} {N : List String}

/-! ## Right-hand sides whose operands are known -/

theorem evalRhs_of_value {vars : Vars} {rhs : Rhs} {x : Except Fault Value}
    (h : compute .free S.receiver vars rhs = x.map .value) : evalRhs S vars rhs = .ofExcept x := by
  unfold evalRhs
  rw [h]
  cases x <;> rfl

theorem evalRhs_of_ask {vars : Vars} {rhs : Rhs} {x : Except Fault (Request Value)}
    (type : ValueType) (h : compute .free S.receiver vars rhs = x.map (.ask · type)) :
    evalRhs S vars rhs = S.world.demand x := by
  unfold evalRhs
  rw [h]
  cases x <;> rfl

/-- To ask for what is still to be found out. -/
theorem World.demand_eq_bind (w : World σ) (x : Except Fault (Request Value)) :
    w.demand x = Effect.ofExcept x >>= fun r => w.demand (.ok r) := by
  cases x <;> rfl

theorem readVar_free {vars : Vars} {v : Var} {a : Value} (h : vars v.name = some a) :
    readVar .free vars v = .ok a := by
  unfold readVar Vars.read
  rw [h]
  rfl

section Operands

variable {vars : Vars} {a b : Value}

theorem evalRhs_operand {o : Operand} (h : readOperand .free S.receiver vars o = .ok a) :
    evalRhs S vars (.operand o) = pure a :=
  evalRhs_of_value (x := .ok a) (by rw [compute, h]; rfl)

theorem evalRhs_binary {op : BinaryOp} {l r : Operand}
    (hl : readOperand .free S.receiver vars l = .ok a)
    (hr : readOperand .free S.receiver vars r = .ok b) :
    evalRhs S vars (.binary op l r) = .ofExcept (Value.binary op a b) := by
  refine evalRhs_of_value ?_
  rw [compute, hl, hr]
  exact except_bind_pure ..

theorem evalRhs_not {o : Operand} (h : readOperand .free S.receiver vars o = .ok a) :
    evalRhs S vars (.not o) = .ofExcept a.negate := by
  refine evalRhs_of_value ?_
  rw [compute, h]
  exact except_bind_pure ..

theorem evalRhs_arrayLength {o : Operand} (h : readOperand .free S.receiver vars o = .ok a) :
    evalRhs S vars (.arrayLength o) = S.world.demand (Request.lengthOf a) := by
  refine evalRhs_of_ask .int ?_
  rw [compute, h]
  exact except_bind_pure ..

theorem evalRhs_newArray {o : Operand} (h : readOperand .free S.receiver vars o = .ok a) :
    evalRhs S vars (.newArray o) = S.world.demand (Request.arrayOf a) := by
  refine evalRhs_of_ask .intArray ?_
  rw [compute, h]
  exact except_bind_pure ..

theorem evalRhs_arrayLoad {v : Var} {i : Operand}
    (hv : readOperand .free S.receiver vars (.var v) = .ok a)
    (hi : readOperand .free S.receiver vars i = .ok b) :
    evalRhs S vars (.arrayLoad v i) = S.world.demand (Request.loadFrom a b) := by
  refine evalRhs_of_ask .int ?_
  rw [readOperand] at hv
  rw [compute, hv, hi]
  exact except_bind_pure ..

theorem checkArgs_free (types : List ValueType) (values : List Value) :
    checkArgs .free types values = .ok () := by
  induction types generalizing values with
  | nil => rfl
  | cons type types ih =>
    cases values with
    | nil => rfl
    | cons value values => exact ih values

theorem callRequest_free {c : Call} {args : List Value}
    (htarget : readOperand .free S.receiver vars c.target = .ok a)
    (hargs : readOperands .free S.receiver vars c.args = .ok args) :
    callRequest .free S.receiver vars c = Request.callOn c.method args a := by
  rw [callRequest, htarget, hargs]
  change (checkArgs .free c.params args >>= fun _ => _) = _
  rw [checkArgs_free]
  rfl

theorem evalRhs_call {c : Call} {args : List Value}
    (htarget : readOperand .free S.receiver vars c.target = .ok a)
    (hargs : readOperands .free S.receiver vars c.args = .ok args) :
    evalRhs S vars (.call c) = S.world.demand (Request.callOn c.method args a) := by
  refine evalRhs_of_ask c.result ?_
  rw [compute, callRequest_free htarget hargs]
  exact except_bind_pure ..

end Operands

/-! ## Values that wait -/

/-- An operand keeps its value while code of a later supply runs. -/
theorem readOperand_keep {f f' : Fresh} {o : Operand} (ho : o.Settled f) {vars vars' : Vars}
    (hvars : ∀ x, ¬ f.Gives f' x → vars' x = vars x) {a : Value}
    (h : readOperand .free S.receiver vars o = .ok a) :
    readOperand .free S.receiver vars' o = .ok a := by
  cases o with
  | var v =>
    have hkeep := hvars v.name (ho v rfl).not_gives
    rw [readOperand, readVar, Vars.read] at h ⊢
    rwa [hkeep]
  | int _ | bool _ | string _ | this _ | classRef _ => exact h

/-- Code of a later supply runs while an operand waits. -/
theorem Evaluates.waiting {f f' : Fresh} {code : List Instr} {e : Vars → Effect σ α}
    {Q : α → Vars → Prop} (h : Evaluates S N (fun _ => True) (f.Gives f') code e Q) {o : Operand}
    (ho : o.Settled f) (a : Value) :
    Evaluates S N (fun vars => readOperand .free S.receiver vars o = .ok a) (f.Gives f') code e
      fun b vars => Q b vars ∧ readOperand .free S.receiver vars o = .ok a :=
  (h.keeping fun _ _ hvars hread => readOperand_keep ho hvars hread).mono
    (fun _ hread => ⟨trivial, hread⟩) (fun _ => id) fun _ _ => id

/-! ## What a lowered expression computes -/

/-- A lowered expression computes what an evaluation gives: it is an operand that can be read at any
time, or code whose last instruction may assign to any variable. -/
inductive Computes (S : Setting σ) (N : List String) (f f' : Fresh) (e : Vars → Effect σ Value) :
    Lowered → Prop
  | operand {o : Operand}
    (h : ∀ source vars, Matches N source vars →
      ∃ a, e source = pure a ∧ readOperand .free S.receiver vars o = .ok a) :
    Computes S N f f' e (.ofOperand o)
  | temp {code : List Instr} {d : Var} {rhs : Rhs} (hd : f.Gives f' d.name)
    (h : ∀ dest : Var, Evaluates S N (fun _ => True) (fun x => f.Gives f' x ∨ x = dest.name)
      (code ++ [.assign dest rhs]) e fun a vars => vars dest.name = some a) :
    Computes S N f f' e ⟨code ++ [.assign d rhs], .var d⟩

namespace Computes

variable {f f₁ f' : Fresh} {e : Vars → Effect σ Value} {v : Lowered}

/-- The value is in the operand when the code has run. -/
theorem value (h : Computes S N f f' e v) :
    Evaluates S N (fun _ => True) (f.Gives f') v.code e
      fun a vars => readOperand .free S.receiver vars v.value = .ok a := by
  cases h with
  | operand h =>
    exact .nil fun source vars hmatch _ => h source vars hmatch
  | temp hd h =>
    refine (h _).mono (fun _ => id) (fun x hx => hx.elim id fun hx => hx ▸ hd)
      fun a vars hvars => ?_
    exact readVar_free hvars

/-- The value is in the variable that it is stored in. -/
theorem storeIn (h : Computes S N f f' e v) (hC : ∀ x ∈ N, ¬ f.Gives f' x) (dest : Var) :
    Evaluates S N (fun _ => True) (fun x => f.Gives f' x ∨ x = dest.name) (v.storeIn dest) e
      fun a vars => vars dest.name = some a := by
  -- Unless the last instruction is redirected, it is followed by a copy.
  have hcopy : Evaluates S N (fun _ => True) (fun x => f.Gives f' x ∨ x = dest.name)
      (v.code ++ [.assign dest (.operand v.value)]) (fun source => e source >>= pure)
      fun a vars => vars dest.name = some a := by
    refine .bind hC (fun _ => .inl) h.value fun a => ?_
    exact (Evaluates.assign fun _ vars _ hread => evalRhs_operand hread).mono (fun _ => id)
      (fun _ => .inr) fun _ _ => id
  simp only [Effect.bind_pure] at hcopy
  cases h with
  | @operand o h =>
    have hstore : (Lowered.ofOperand o).storeIn dest = [.assign dest (.operand o)] := by
      cases o <;> rfl
    rw [hstore]
    exact hcopy
  | temp hd h =>
    unfold Lowered.storeIn
    simp only [List.getLast?_append, List.getLast?_singleton, Option.some_or, List.dropLast_concat]
    split
    · exact h dest
    · exact hcopy

/-- Code followed by an assignment to a new temporary. -/
theorem lowered (hbefore : f.Before f₁) {code : List Instr} {type : ValueType} {rhs : Rhs}
    (h : ∀ dest : Var, Evaluates S N (fun _ => True) (fun x => f.Gives f₁ x ∨ x = dest.name)
      (code ++ [.assign dest rhs]) e fun a vars => vars dest.name = some a) :
    Computes S N f (f₁.temp type).2 e (f₁.lowered code type rhs) := by
  refine .temp ((f₁.temp_gives type).left hbefore) fun dest => ?_
  refine (h dest).mono (fun _ => id) (fun x hx => ?_) fun _ _ => id
  exact hx.imp (fun hx => hx.right (f₁.temp_before type)) id

/-- The last instruction of an expression with one part. -/
theorem unary {f₀ : Fresh} {inner : Lowered} {g : Value → Effect σ Value} {rhs : Rhs}
    {type : ValueType} (hbefore : f₀.Before f₁) (hC : ∀ x ∈ N, ¬ f₀.Gives f₁ x)
    (h : Computes S N f₀ f₁ e inner)
    (hrhs : ∀ a vars, readOperand .free S.receiver vars inner.value = .ok a →
      evalRhs S vars rhs = g a) :
    Computes S N f₀ (f₁.temp type).2 (fun source => e source >>= g)
      (f₁.lowered inner.code type rhs) := by
  refine .lowered hbefore fun dest => .bind hC (fun _ => .inl) h.value fun a => ?_
  exact (Evaluates.assign fun _ vars _ hread => hrhs a vars hread).mono (fun _ => id)
    (fun _ => .inr) fun _ _ => id

/-- The last instruction of an expression with two parts. -/
theorem binary {f₀ f₂ : Fresh} {e' : Vars → Effect σ Value} {first second : Lowered}
    {g : Value → Value → Effect σ Value} {rhs : Rhs} {type : ValueType}
    (hfirst : Tidy f₀ f₁ first.value) (hsecond : Tidy f₁ f₂ second.value)
    (hC : ∀ x ∈ N, ¬ f₀.Gives f₁ x) (hC' : ∀ x ∈ N, ¬ f₁.Gives f₂ x)
    (h : Computes S N f₀ f₁ e first) (h' : Computes S N f₁ f₂ e' second)
    (hrhs : ∀ a b vars, readOperand .free S.receiver vars first.value = .ok a →
      readOperand .free S.receiver vars second.value = .ok b → evalRhs S vars rhs = g a b) :
    Computes S N f₀ (f₂.temp type).2 (fun source => e source >>= fun a => e' source >>= g a)
      (f₂.lowered (first.code ++ second.code) type rhs) := by
  refine .lowered (hfirst.before.trans hsecond.before) fun dest => ?_
  rw [List.append_assoc]
  refine .bind hC (fun x hx => .inl (hx.right hsecond.before)) h.value fun a => ?_
  refine .bind hC' (fun x hx => .inl (hx.left hfirst.before))
    (h'.value.waiting hfirst.settled a) fun b => ?_
  exact (Evaluates.assign fun _ vars _ hread => hrhs a b vars hread.2 hread.1).mono (fun _ => id)
    (fun _ => .inr) fun _ _ => id

end Computes

/-! ## Every expression -/

/-- The method at work, called on an object. -/
def activationOf (Γ : Site) (receiver : Reference) : Activation :=
  { table := Γ.table, method := Γ.info.name, isStatic := Γ.info.isStatic, receiver }

theorem readName_frame {Γ : Site} {name : String} {scope : Scope} {symbol : Symbol}
    (hres : Γ.table.resolve? Γ.info.name name = some (scope, symbol)) (hscope : scope ≠ .field)
    (w : World σ) (receiver : Reference) (vars : Vars) :
    (activationOf Γ receiver).readName w vars name = .ofExcept (vars.read name) := by
  unfold Activation.readName activationOf
  cases scope with
  | field => exact absurd rfl hscope
  | «local» | parameter => simp only [hres]

theorem readName_classRef {Γ : Site} {name : String}
    (hres : Γ.table.resolve? Γ.info.name name = none ∨
      ∃ symbol, Γ.table.resolve? Γ.info.name name = some (.field, symbol) ∧
        Γ.info.isStatic = true)
    (hclass : (Γ.table.classReference? name).isSome) (w : World σ) (receiver : Reference)
    (vars : Vars) :
    (activationOf Γ receiver).readName w vars name = pure (.classRef name) := by
  have hread : (activationOf Γ receiver).readClass name = .ok (.classRef name) := if_pos hclass
  unfold Activation.readName
  rcases hres with hres | ⟨symbol, hres, hstatic⟩
  · simp only [activationOf] at hread ⊢
    simp only [hres, hread, Effect.ofExcept_ok]
  · simp only [activationOf] at hread ⊢
    simp only [hres, hstatic, if_true] at hread ⊢
    rw [hread, Effect.ofExcept_ok]

/-- The arguments of a call, given what each of them computes. -/
theorem lowerArgs_evaluates {Γ : Site} {A : Activation} {ts : List Ast}
    (h : ∀ t ∈ ts, ∀ expected f v f', Γ.Reserved f →
      (lowerExpr Γ expected t).run f = .ok (v, f') →
      Tidy f f' v.value ∧ Computes S Γ.frameNames f f' (evalExpr S.world A · t) v)
    {declared : List Symbol} {f f' : Fresh} {args : LoweredArgs} (hf : Γ.Reserved f)
    (hargs : (lowerArgs Γ declared ts).run f = .ok (args, f')) :
    Evaluates S Γ.frameNames (fun _ => True) (f.Gives f') args.code (evalAll S.world A · ts)
      fun values vars => readOperands .free S.receiver vars args.args = .ok values := by
  induction ts generalizing declared f args with
  | nil =>
    obtain ⟨rfl, rfl⟩ := lowerArgs_nil_eq_ok hargs
    refine .nil fun source vars _ _ => ⟨[], ?_, rfl⟩
    rw [evalAll]
  | cons t ts ih =>
    obtain ⟨param, arg, f₁, rest, -, harg, hrest, rfl⟩ := lowerArgs_cons_eq_ok hargs
    obtain ⟨htidy, hcomputes⟩ := h t List.mem_cons_self _ _ _ _ hf harg
    have hts : ∀ u ∈ ts, ∀ expected f v f', Γ.Reserved f →
        (lowerExpr Γ expected u).run f = .ok (v, f') →
        Tidy f f' v.value ∧ Computes S Γ.frameNames f f' (evalExpr S.world A · u) v :=
      fun u hu => h u (List.mem_cons_of_mem t hu)
    have hf₁ := hf.mono htidy.before
    have hbefore : f₁.Before f' :=
      lowerArgs_before (fun u hu expected f v f' hf h => (hts u hu expected f v f' hf h).1.before)
        hf₁ hrest
    have heq : (evalAll S.world A · (t :: ts)) = fun source =>
        evalExpr S.world A source t >>= fun value =>
          evalAll S.world A source ts >>= fun values => pure (value :: values) := by
      funext source
      rw [evalAll]
    rw [heq]
    refine .bind hf.not_gives (fun x hx => hx.right hbefore) hcomputes.value fun value => ?_
    refine (((ih hts hf₁ hrest).waiting htidy.settled value).map fun values vars hread => ?_).mono
      (fun _ => id) (fun x hx => hx.left htidy.before) fun _ _ => id
    rw [readOperands, hread.2, hread.1]
    rfl

/-- The target and the arguments of a call. -/
def evalParts (w : World σ) (A : Activation) (source : Vars) (t : Ast) (ts : List Ast) :
    Effect σ (Value × List Value) :=
  evalExpr w A source t >>= fun target => evalAll w A source ts >>= fun args => pure (target, args)

theorem evalCall_cons (w : World σ) (A : Activation) (source : Vars) (method : String) (t : Ast)
    (ts : List Ast) :
    evalCall w A source method (t :: ts) =
      evalParts w A source t ts >>= fun p => .ofExcept (Request.callOn method p.2 p.1) := by
  rw [evalCall, evalParts, Effect.bind_assoc]
  simp only [Effect.bind_assoc, Effect.pure_bind]

/-- The code of a call before the call itself. -/
theorem lowerCall_evaluates {Γ : Site} {A : Activation} {n : Numbered} {method : String}
    {expected : Option ValueType} {ts : List Ast}
    (h : ∀ t ∈ ts, ∀ expected f v f', Γ.Reserved f →
      (lowerExpr Γ expected t).run f = .ok (v, f') →
      Tidy f f' v.value ∧ Computes S Γ.frameNames f f' (evalExpr S.world A · t) v)
    {f f' : Fresh} {code : List Instr} {call : Call} (hf : Γ.Reserved f)
    (hcall : (lowerCall Γ n method expected ts).run f = .ok ((code, call), f')) :
    ∃ t rest, ts = t :: rest ∧ call.method = method ∧
      Evaluates S Γ.frameNames (fun _ => True) (f.Gives f') code (evalParts S.world A · t rest)
        fun p vars => readOperand .free S.receiver vars call.target = .ok p.1 ∧
          readOperands .free S.receiver vars call.args = .ok p.2 := by
  obtain ⟨t, rest, target, f₁, args, result, rfl, ht, hargs, -, rfl, rfl⟩ := lowerCall_eq_ok hcall
  obtain ⟨htidy, hcomputes⟩ := h t List.mem_cons_self _ _ _ _ hf ht
  have hf₁ := hf.mono htidy.before
  have hbefore : f₁.Before f' :=
    lowerArgs_before (fun u hu expected f v f' hf hu' =>
      (h u (List.mem_cons_of_mem t hu) expected f v f' hf hu').1.before) hf₁ hargs
  refine ⟨t, rest, rfl, rfl, ?_⟩
  refine .bind hf.not_gives (fun x hx => hx.right hbefore) hcomputes.value fun a => ?_
  have hrest := lowerArgs_evaluates (fun u hu => h u (List.mem_cons_of_mem t hu)) hf₁ hargs
  exact ((hrest.waiting htidy.settled a).map fun values vars hread => ⟨hread.2, hread.1⟩).mono
    (fun _ => id) (fun x hx => hx.left htidy.before) fun _ _ => id

/-- **A lowered expression computes what the tree computes.** -/
theorem lowerExpr_computes {Γ : Site} (hΓ : Γ.IsListed) {t : Ast} {expected : Option ValueType}
    {f f' : Fresh} {v : Lowered} (hf : Γ.Reserved f)
    (hlower : (lowerExpr Γ expected t).run f = .ok (v, f')) :
    Computes S Γ.frameNames f f' (evalExpr S.world (activationOf Γ S.receiver) · t) v := by
  induction t using Tree.induction generalizing expected f v f' with
  | node n ts ih =>
    have hchild : ∀ t ∈ ts, ∀ expected f v f', Γ.Reserved f →
        (lowerExpr Γ expected t).run f = .ok (v, f') → Tidy f f' v.value ∧
          Computes S Γ.frameNames f f' (evalExpr S.world (activationOf Γ S.receiver) · t) v :=
      fun t ht expected f v f' hf h => ⟨lowerExpr_tidy hΓ hf h, ih t ht hf h⟩
    cases lowerExpr_cases hlower with
    | integer hk | boolean hk | string hk | className hk =>
      refine .operand fun source vars _ => ⟨_, ?_, rfl⟩
      rw [evalExpr.eq_def]
      simp only [hk]
      rfl
    | this hk =>
      refine .operand fun source vars _ => ⟨.ref S.receiver, ?_, rfl⟩
      rw [evalExpr.eq_def]
      simp only [hk]
      rfl
    | @«variable» name _ _ _ _ hk hres hscope htype =>
      refine .operand fun source vars hmatch => ?_
      obtain ⟨a, hsource, hvars⟩ := hmatch name (Γ.mem_frameNames hΓ hres hscope)
      refine ⟨a, ?_, readVar_free hvars⟩
      simp only [evalExpr_identifier hk, readName_frame hres hscope, Vars.read, hsource,
        Effect.ofExcept_ok]
    | @classRef name _ hk hres hclass =>
      refine .operand fun source vars _ => ⟨.classRef name, ?_, rfl⟩
      simp only [evalExpr_identifier hk, readName_classRef hres hclass]
    | @field name _ _ _ hk hres hstatic htype =>
      refine .lowered (.refl f) fun dest => ?_
      refine (Evaluates.assign fun source vars _ _ => ?_).mono (fun _ => id) (fun _ => .inr)
        fun _ _ => id
      simp only [evalExpr_identifier hk, Activation.readName, activationOf, hres, hstatic]
      exact evalRhs_of_ask _ rfl
    | parenthesis hk h =>
      simp only [evalExpr_parenthesis hk]
      exact ih _ List.mem_cons_self hf h
    | binary hk hl hr =>
      have hleft := lowerExpr_tidy hΓ hf hl
      have hf₁ := hf.mono hleft.before
      simp only [evalExpr_binary hk]
      exact .binary hleft (lowerExpr_tidy hΓ hf₁ hr) hf.not_gives hf₁.not_gives
        (ih _ List.mem_cons_self hf hl) (ih _ (by simp) hf₁ hr)
        fun a b vars ha hb => evalRhs_binary ha hb
    | arrayAccess hk ha hi harray =>
      have hbase := lowerExpr_tidy hΓ hf ha
      have hf₁ := hf.mono hbase.before
      simp only [evalExpr_arrayAccess hk]
      exact .binary hbase (lowerExpr_tidy hΓ hf₁ hi) hf.not_gives hf₁.not_gives
        (ih _ List.mem_cons_self hf ha) (ih _ (by simp) hf₁ hi)
        fun a b vars ha hb => evalRhs_arrayLoad (harray ▸ ha) hb
    | negation hk h =>
      simp only [evalExpr_negation hk]
      exact .unary (lowerExpr_tidy hΓ hf h).before hf.not_gives (ih _ List.mem_cons_self hf h)
        fun a vars ha => evalRhs_not ha
    | arrayLength hk h =>
      simp only [evalExpr_arrayLength hk]
      exact .unary (lowerExpr_tidy hΓ hf h).before hf.not_gives (ih _ List.mem_cons_self hf h)
        fun a vars ha => evalRhs_arrayLength ha
    | newArray hk h =>
      simp only [evalExpr_newArray hk]
      exact .unary (lowerExpr_tidy hΓ hf h).before hf.not_gives (ih _ List.mem_cons_self hf h)
        fun a vars ha => evalRhs_newArray ha
    | newObject hk =>
      refine .lowered (.refl f) fun dest => ?_
      refine (Evaluates.assign fun source vars _ _ => ?_).mono (fun _ => id) (fun _ => .inr)
        fun _ _ => id
      simp only [evalExpr_newObject hk]
      exact evalRhs_of_ask _ rfl
    | @invocation _ _ _ call _ hk h =>
      obtain ⟨t, rest, rfl, rfl, hparts⟩ := lowerCall_evaluates hchild hf h
      refine .lowered (lowerCall_before hΓ hf h) fun dest => ?_
      have heq : (evalExpr S.world (activationOf Γ S.receiver) · (.node n (t :: rest))) =
          fun source => evalParts S.world (activationOf Γ S.receiver) source t rest >>= fun p =>
            S.world.demand (Request.callOn call.method p.2 p.1) := by
        funext source
        rw [evalExpr_invocation hk, evalCall_cons, Effect.bind_assoc]
        simp only [← World.demand_eq_bind]
      rw [heq]
      refine .bind hf.not_gives (fun _ => .inl) hparts fun p => ?_
      exact (Evaluates.assign fun _ vars _ hread => evalRhs_call hread.1 hread.2).mono
        (fun _ => id) (fun _ => .inr) fun _ _ => id

/-! ## Conditions and effects -/

theorem lowerCondition_computes {Γ : Site} (hΓ : Γ.IsListed) {t : Ast} {f f' : Fresh} {v : Lowered}
    (hf : Γ.Reserved f) (hlower : (lowerCondition Γ t).run f = .ok (v, f')) :
    Computes S Γ.frameNames f f' (evalCondition S.world (activationOf Γ S.receiver) · t) v := by
  obtain ⟨n, ts⟩ := t
  rcases lowerCondition_eq_ok hlower with ⟨t, rest, hk, rfl, h⟩ | ⟨hk, h⟩
  · have heq : (evalCondition S.world (activationOf Γ S.receiver) · (.node n (t :: rest))) =
        (evalExpr S.world (activationOf Γ S.receiver) · t) := by
      funext source
      unfold evalCondition
      simp only [hk]
    rw [heq]
    exact lowerExpr_computes hΓ hf h
  · have heq : (evalCondition S.world (activationOf Γ S.receiver) · (.node n ts)) =
        (evalExpr S.world (activationOf Γ S.receiver) · (.node n ts)) := by
      funext source
      unfold evalCondition
      dsimp only
      split
      · exact absurd ‹n.kind = .condition› hk
      · rfl
    rw [heq]
    exact lowerExpr_computes hΓ hf h

/-- **An expression that is run for its effect.** -/
theorem lowerEffect_evaluates {Γ : Site} (hΓ : Γ.IsListed) {t : Ast} {f f' : Fresh}
    {code : List Instr} (hf : Γ.Reserved f) (hlower : (lowerEffect Γ t).run f = .ok (code, f')) :
    Evaluates S Γ.frameNames (fun _ => True) (f.Gives f') code
      (evalEffect S.world (activationOf Γ S.receiver) · t) fun _ _ => True := by
  induction t using Tree.induction generalizing code with
  | node n ts ih =>
    cases lowerEffect_cases hlower with
    | parenthesis hk h =>
      have heq : ∀ t ts, (evalEffect S.world (activationOf Γ S.receiver) · (.node n (t :: ts))) =
          (evalEffect S.world (activationOf Γ S.receiver) · t) := by
        intro t ts
        funext source
        rw [evalEffect.eq_def]
        simp only [hk]
      rw [heq]
      exact ih _ List.mem_cons_self h
    | @invocation _ _ _ call _ hk h =>
      obtain ⟨t, rest, rfl, rfl, hparts⟩ := lowerCall_evaluates
        (fun t _ expected f v f' hf h => ⟨lowerExpr_tidy hΓ hf h, lowerExpr_computes hΓ hf h⟩) hf h
      have heq : (evalEffect S.world (activationOf Γ S.receiver) · (.node n (t :: rest))) =
          fun source => evalParts S.world (activationOf Γ S.receiver) source t rest >>= fun p =>
            Effect.ofExcept (Request.callOn call.method p.2 p.1) >>= fun r =>
              S.world.ask r >>= fun _ => pure () := by
        funext source
        rw [evalEffect.eq_def]
        simp only [hk, evalCall_cons, Effect.bind_assoc]
      rw [heq]
      refine .bind hf.not_gives (fun _ => id) hparts fun p => ?_
      refine .tell fun _ vars _ hread => ⟨Request.callOn call.method p.2 p.1, ?_, rfl⟩
      rw [moveOf, callRequest_free hread.1 hread.2]
      exact except_bind_pure ..
    | value hk hk' h =>
      have heq : (evalEffect S.world (activationOf Γ S.receiver) · (.node n ts)) = fun source =>
          evalExpr S.world (activationOf Γ S.receiver) source (.node n ts) >>=
            fun _ => pure () := by
        funext source
        rw [evalEffect.eq_def]
        dsimp only
        split
        · exact absurd ‹n.kind = .parenthesis› hk
        · exact absurd ‹n.kind = .invocation _› (hk' _)
        · rfl
      rw [heq]
      refine .bind hf.not_gives (fun _ => id) (lowerExpr_computes hΓ hf h).value fun a => ?_
      exact .noop fun _ vars _ hread => ⟨⟨a, hread⟩, (), rfl, trivial⟩

end Meaning
end ClassCompiler
