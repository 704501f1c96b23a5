import ClassCompiler.Proofs.Compilation.Lowering
import ClassCompiler.Proofs.Machine.Emittable
import ClassCompiler.Proofs.ThreeAddress.Liveness

/-!
# Temporaries are assigned once and read in a straight line

A name in the code of a method is a parameter or a local, or a temporary.  A temporary is assigned
by one instruction, and whatever reads it comes after that instruction with no label and no jump in
between.  So no way into the code gets to a place that reads a temporary without passing the
assignment, and only parameters and locals are live at the start.

What is read at a place is described by the code before the place (`Site.Waits`): a variable that
the method declares, or the destination of an assignment with nothing but straight code after it.
More code in front changes nothing about this, and neither does straight code behind; the code of an
expression is straight.  A variable carries its type, so the same description says that a name has
one type: a declared name has the type of its declaration, and a temporary the type with which it is
assigned.

* `Instr.reads`, `Instr.occurrences`: the variables that stand in an instruction.
* `Site.Waits`, `Disciplined`: what may be read, and code that reads nothing else.
* `lowerExpr_ready`, `lowerStatement_disciplined`: expressions and statements.
* `Method.IsSingle`: what is said of a temporary.
* `lowerClass_single`: the methods of a class.
-/

namespace ClassCompiler
namespace ThreeAddress

open Meaning (except_bind_eq_ok)

/-! ## The variables in an instruction -/

/-- The variable that an operand reads. -/
def Operand.vars (o : Operand) : List Var :=
  o.var?.toList

/-- The variables that a right-hand side reads. -/
def Rhs.reads : Rhs → List Var
  | .operand value => value.vars
  | .binary _ left right => left.vars ++ right.vars
  | .not value => value.vars
  | .call c => c.target.vars ++ c.args.flatMap Operand.vars
  | .getField object _ => object.vars
  | .arrayLength array => array.vars
  | .arrayLoad array index => array :: index.vars
  | .newObject _ => []
  | .newArray length => length.vars

/-- The field that a right-hand side reads. -/
def Rhs.field? : Rhs → Option Var
  | .getField _ field => some field
  | _ => none

namespace Instr

/-- The variables that an instruction reads. -/
def reads : Instr → List Var
  | assign _ rhs => rhs.reads
  | arrayStore array index value => array :: (index.vars ++ value.vars)
  | call c => c.target.vars ++ c.args.flatMap Operand.vars
  | putField object _ value => object.vars ++ value.vars
  | ret (some value) => value.vars
  | ret none => []
  | jump _ => []
  | branch cond _ _ => cond.vars
  | label _ => []
  | noop value => value.vars

/-- The field that an instruction reads or writes. -/
def field? : Instr → Option Var
  | assign _ rhs => rhs.field?
  | putField _ field _ => some field
  | _ => none

/-- Every variable and field that stands in an instruction. -/
def occurrences (i : Instr) : List Var :=
  i.reads ++ i.dest?.toList ++ i.field?.toList

/-- Control comes from elsewhere or goes elsewhere. -/
def isControl : Instr → Bool
  | label _ | jump _ | branch .. => true
  | _ => false

end Instr

section Names

theorem Operand.uses_eq (o : Operand) : o.uses = o.vars.map Var.name := by
  cases o <;> rfl

theorem flatMap_uses_eq (os : List Operand) :
    os.flatMap Operand.uses = (os.flatMap Operand.vars).map Var.name := by
  rw [List.map_flatMap]
  exact congrArg (os.flatMap ·) (funext Operand.uses_eq)

theorem Rhs.uses_eq (rhs : Rhs) : rhs.uses = rhs.reads.map Var.name := by
  cases rhs <;> simp [Rhs.uses, Rhs.reads, Call.uses, Operand.uses_eq, flatMap_uses_eq]

/-- The names that an instruction reads are those of the variables that it reads. -/
theorem Instr.uses_eq (i : Instr) : i.uses = i.reads.map Var.name := by
  cases i with
  | ret value => cases value <;> simp [Instr.uses, Instr.reads, Operand.uses_eq]
  | _ =>
    simp [Instr.uses, Instr.reads, Call.uses, Rhs.uses_eq, Operand.uses_eq, flatMap_uses_eq]

theorem Instr.defs_eq (i : Instr) : i.defs = i.dest?.toList.map Var.name := by
  cases i <;> rfl

end Names

/-! ## Straight code -/

/-- Nothing in the code is a label or a jump. -/
def Straight (code : List Instr) : Prop :=
  ∀ i ∈ code, i.isControl = false

theorem Straight.nil : Straight [] :=
  fun _ hi => absurd hi List.not_mem_nil

theorem Straight.append {code code' : List Instr} (h : Straight code) (h' : Straight code') :
    Straight (code ++ code') :=
  List.forall_mem_append.mpr ⟨h, h'⟩

theorem Straight.snoc {code : List Instr} (h : Straight code) {i : Instr}
    (hi : i.isControl = false) : Straight (code ++ [i]) :=
  h.append fun _ hj => List.mem_singleton.mp hj ▸ hi

/-! ## What may be read -/

namespace Site

variable {Γ : Site} {pre code : List Instr} {v : Var}

/-- The name of a variable stands for something of its type. -/
def Types (Γ : Site) (scope : Scope) (v : Var) : Prop :=
  ∃ symbol, Γ.table.resolve? Γ.info.name v.name = some (scope, symbol) ∧
    ValueType.ofType symbol.type = .ok v.type

/-- A parameter or a local, with its type. -/
def Declares (Γ : Site) (v : Var) : Prop :=
  ∃ scope, scope ≠ .field ∧ Γ.Types scope v

/-- A variable that may be read after some code: it is declared, or assigned by the code with
nothing but straight code after that. -/
def Waits (Γ : Site) (pre : List Instr) (v : Var) : Prop :=
  Γ.Declares v ∨ ∃ first rhs last, pre = first ++ .assign v rhs :: last ∧ Straight last

theorem Waits.behind (h : Γ.Waits pre v) (code : List Instr) : Γ.Waits (code ++ pre) v := by
  refine h.imp_right ?_
  rintro ⟨first, rhs, last, rfl, hlast⟩
  exact ⟨code ++ first, rhs, last, by rw [List.append_assoc], hlast⟩

theorem Waits.over (h : Γ.Waits pre v) (hcode : Straight code) : Γ.Waits (pre ++ code) v := by
  refine h.imp_right ?_
  rintro ⟨first, rhs, last, rfl, hlast⟩
  exact ⟨first, rhs, last ++ code, by rw [List.append_assoc, List.cons_append], hlast.append hcode⟩

theorem waits_assigned (code : List Instr) (v : Var) (rhs : Rhs) :
    Γ.Waits (code ++ [.assign v rhs]) v :=
  .inr ⟨code, rhs, [], rfl, .nil⟩

end Site

/-- Code that reads only what may be read where it is read, assigns only declared variables and
temporaries, and uses only declared fields. -/
structure Disciplined (Γ : Site) (code : List Instr) : Prop where
  reads : ∀ pre i post, code = pre ++ i :: post → ∀ v ∈ i.reads, Γ.Waits pre v
  dests : ∀ i ∈ code, ∀ v, i.dest? = some v →
    Γ.Declares v ∨ v.name ∉ reservedNames Γ.table Γ.info
  fields : ∀ i ∈ code, ∀ v, i.field? = some v → Γ.Types .field v

namespace Disciplined

variable {Γ : Site} {code code' : List Instr}

theorem nil : Disciplined Γ [] where
  reads pre i post h := by simp at h
  dests _ hi := absurd hi List.not_mem_nil
  fields _ hi := absurd hi List.not_mem_nil

theorem append (h : Disciplined Γ code) (h' : Disciplined Γ code') :
    Disciplined Γ (code ++ code') where
  reads pre i post heq v hv := by
    rcases List.append_eq_append_iff.mp heq with ⟨middle, rfl, hcode'⟩ | ⟨middle, hcode, hpost⟩
    · exact (h'.reads middle i post hcode' v hv).behind code
    · cases middle with
      | nil =>
        rw [List.append_nil] at hcode
        have hwaits := h'.reads [] i post hpost.symm v hv
        rw [← hcode, ← List.append_nil code]
        exact hwaits.behind code
      | cons j middle =>
        obtain ⟨rfl, -⟩ := List.cons.inj hpost
        exact h.reads pre i middle hcode v hv
  dests := List.forall_mem_append.mpr ⟨h.dests, h'.dests⟩
  fields := List.forall_mem_append.mpr ⟨h.fields, h'.fields⟩

/-- One more instruction. -/
theorem snoc (h : Disciplined Γ code) {i : Instr} (hreads : ∀ v ∈ i.reads, Γ.Waits code v)
    (hdest : ∀ v, i.dest? = some v → Γ.Declares v ∨ v.name ∉ reservedNames Γ.table Γ.info)
    (hfield : ∀ v, i.field? = some v → Γ.Types .field v) : Disciplined Γ (code ++ [i]) where
  reads pre j post heq v hv := by
    rcases List.eq_nil_or_concat post with rfl | ⟨post, last, rfl⟩
    · obtain ⟨rfl, hone⟩ := List.append_inj' heq rfl
      obtain ⟨rfl, -⟩ := List.cons.inj hone
      exact hreads v hv
    · rw [List.concat_eq_append, ← List.cons_append, ← List.append_assoc] at heq
      obtain ⟨rfl, -⟩ := List.append_inj' heq rfl
      exact h.reads pre j post rfl v hv
  dests := List.forall_mem_append.mpr ⟨h.dests, fun j hj => List.mem_singleton.mp hj ▸ hdest⟩
  fields := List.forall_mem_append.mpr ⟨h.fields, fun j hj => List.mem_singleton.mp hj ▸ hfield⟩

/-- One more instruction that assigns nothing and uses no field. -/
theorem plain (h : Disciplined Γ code) {i : Instr} (hreads : ∀ v ∈ i.reads, Γ.Waits code v)
    (hdest : i.dest? = none) (hfield : i.field? = none) : Disciplined Γ (code ++ [i]) := by
  refine h.snoc hreads (fun v hv => ?_) fun v hv => ?_
  · rw [hdest] at hv
    cases hv
  · rw [hfield] at hv
    cases hv

end Disciplined

/-! ## Expressions -/

/-- The shape of a lowered expression: an operand over declared variables, or straight code and a
right-hand side over what may be read after it, which a new temporary is assigned. -/
inductive Ready (Γ : Site) : Lowered → Prop
  | operand {o : Operand} (h : ∀ v ∈ o.vars, Γ.Declares v) : Ready Γ (.ofOperand o)
  | temp {f : Fresh} {code : List Instr} {type : ValueType} {rhs : Rhs} (hf : Γ.Reserved f)
    (hcode : Disciplined Γ code) (hstraight : Straight code)
    (hreads : ∀ v ∈ rhs.reads, Γ.Waits code v)
    (hfield : ∀ v, rhs.field? = some v → Γ.Types .field v) : Ready Γ (f.lowered code type rhs)

namespace Ready

variable {Γ : Site} {v : Lowered}

theorem disciplined (h : Ready Γ v) : Disciplined Γ v.code := by
  cases h with
  | operand _ => exact .nil
  | @temp f code type rhs hf hcode hstraight hreads hfield =>
    refine hcode.snoc hreads (fun v hv => .inr ?_) hfield
    rw [← Option.some.inj hv, ← show f.reserved = _ from hf]
    exact Fresh.not_mem_of_gives (f.temp_gives type)

theorem straight (h : Ready Γ v) : Straight v.code := by
  cases h with
  | operand _ => exact .nil
  | temp _ _ hstraight _ _ => exact hstraight.snoc rfl

/-- The value may be read when the code has run. -/
theorem value (h : Ready Γ v) : ∀ x ∈ v.value.vars, Γ.Waits v.code x := by
  cases h with
  | operand h => exact fun x hx => .inl (h x hx)
  | @temp f code type rhs _ _ _ _ _ =>
    intro x hx
    rw [List.mem_singleton.mp hx]
    exact Γ.waits_assigned code _ rhs

/-- The value may be assigned to a variable instead. -/
theorem storeIn (h : Ready Γ v) {dest : Var} (hdest : Γ.Declares dest) :
    Disciplined Γ (v.storeIn dest) := by
  have hcopy : Disciplined Γ (v.code ++ [.assign dest (.operand v.value)]) := by
    refine h.disciplined.snoc h.value (fun x hx => .inl ?_) fun x hx => by cases hx
    rwa [← Option.some.inj hx]
  cases h with
  | operand h =>
    rw [Lowered.storeIn_ofOperand]
    exact hcopy
  | @temp f code type rhs hf hcode hstraight hreads hfield =>
    rw [Fresh.storeIn_lowered]
    split_ifs
    · refine hcode.snoc hreads (fun x hx => .inl ?_) hfield
      rwa [← Option.some.inj hx]
    · exact hcopy

end Ready

section

variable {Γ : Site}

theorem lowerArgs_ready {ts : List Ast}
    (h : ∀ t ∈ ts, ∀ expected f v f', Γ.Reserved f →
      (lowerExpr Γ expected t).run f = .ok (v, f') → Ready Γ v ∧ f.Before f')
    {declared : List Symbol} {f f' : Fresh} {args : LoweredArgs} (hf : Γ.Reserved f)
    (hargs : (lowerArgs Γ declared ts).run f = .ok (args, f')) :
    Disciplined Γ args.code ∧ Straight args.code ∧
      (∀ x ∈ args.args.flatMap Operand.vars, Γ.Waits args.code x) ∧ f.Before f' := by
  induction ts generalizing declared f args with
  | nil =>
    obtain ⟨rfl, rfl⟩ := lowerArgs_nil_eq_ok hargs
    exact ⟨.nil, .nil, fun _ hx => absurd hx List.not_mem_nil, .refl f'⟩
  | cons t ts ih =>
    obtain ⟨param, arg, f₁, rest, -, harg, hrest, rfl⟩ := lowerArgs_cons_eq_ok hargs
    obtain ⟨hfirst, hbefore⟩ := h t List.mem_cons_self _ _ _ _ hf harg
    obtain ⟨hcode, hstraight, hreads, hbefore'⟩ :=
      ih (fun u hu => h u (List.mem_cons_of_mem t hu)) (hf.mono hbefore) hrest
    refine ⟨hfirst.disciplined.append hcode, hfirst.straight.append hstraight, fun x hx => ?_,
      hbefore.trans hbefore'⟩
    rw [List.flatMap_cons] at hx
    rcases List.mem_append.mp hx with hx | hx
    · exact (hfirst.value x hx).over hstraight
    · exact (hreads x hx).behind _

theorem lowerCall_ready {n : Numbered} {method : String} {expected : Option ValueType}
    {ts : List Ast}
    (h : ∀ t ∈ ts, ∀ expected f v f', Γ.Reserved f →
      (lowerExpr Γ expected t).run f = .ok (v, f') → Ready Γ v ∧ f.Before f')
    {f f' : Fresh} {code : List Instr} {call : Call} (hf : Γ.Reserved f)
    (hcall : (lowerCall Γ n method expected ts).run f = .ok ((code, call), f')) :
    Disciplined Γ code ∧ Straight code ∧
      (∀ x ∈ call.target.vars ++ call.args.flatMap Operand.vars, Γ.Waits code x) ∧
      f.Before f' := by
  obtain ⟨t, rest, target, f₁, args, result, rfl, ht, hargs, -, rfl, rfl⟩ := lowerCall_eq_ok hcall
  obtain ⟨htarget, hbefore⟩ := h t List.mem_cons_self _ _ _ _ hf ht
  obtain ⟨hcode, hstraight, hreads, hbefore'⟩ :=
    lowerArgs_ready (fun u hu => h u (List.mem_cons_of_mem t hu)) (hf.mono hbefore) hargs
  refine ⟨htarget.disciplined.append hcode, htarget.straight.append hstraight, fun x hx => ?_,
    hbefore.trans hbefore'⟩
  rcases List.mem_append.mp hx with hx | hx
  · exact (htarget.value x hx).over hstraight
  · exact (hreads x hx).behind _

/-- **The reads of a lowered expression.** -/
theorem lowerExpr_ready (hΓ : Γ.IsListed) {t : Ast} {expected : Option ValueType} {f f' : Fresh}
    {v : Lowered} (hf : Γ.Reserved f) (hlower : (lowerExpr Γ expected t).run f = .ok (v, f')) :
    Ready Γ v ∧ f.Before f' := by
  refine ⟨?_, (lowerExpr_named hΓ hf hlower).closed.before⟩
  induction t using Tree.induction generalizing expected f v f' with
  | node n ts ih =>
    have hbefore {t : Ast} {expected : Option ValueType} {f f' : Fresh} {v : Lowered}
        (hf : Γ.Reserved f) (h : (lowerExpr Γ expected t).run f = .ok (v, f')) : Γ.Reserved f' :=
      hf.mono (lowerExpr_named hΓ hf h).closed.before
    cases lowerExpr_cases hlower with
    | integer _ | boolean _ | string _ | this _ | className _ | classRef _ _ _ =>
      exact .operand fun _ hx => absurd hx List.not_mem_nil
    | @«variable» name scope symbol type _ hk hres hscope htype =>
      refine .operand fun x hx => ?_
      rw [List.mem_singleton.mp hx]
      exact ⟨scope, hscope, symbol, hres, htype⟩
    | parenthesis _ h => exact ih _ List.mem_cons_self hf h
    | @field name symbol type _ hk hres hstatic htype =>
      refine .temp hf .nil .nil (fun _ hx => absurd hx List.not_mem_nil) fun x hx => ?_
      rw [← Option.some.inj hx]
      exact ⟨symbol, hres, htype⟩
    | newObject _ =>
      exact .temp hf .nil .nil (fun _ hx => absurd hx List.not_mem_nil) fun _ hx => by cases hx
    | binary _ hl hr =>
      have hleft := ih _ List.mem_cons_self hf hl
      have hright := ih _ (by simp) (hbefore hf hl) hr
      refine .temp (hbefore (hbefore hf hl) hr) (hleft.disciplined.append hright.disciplined)
        (hleft.straight.append hright.straight) (fun x hx => ?_) fun _ hx => by cases hx
      rcases List.mem_append.mp hx with hx | hx
      · exact (hleft.value x hx).over hright.straight
      · exact (hright.value x hx).behind _
    | negation _ h | arrayLength _ h | newArray _ h =>
      have hinner := ih _ List.mem_cons_self hf h
      exact .temp (hbefore hf h) hinner.disciplined hinner.straight hinner.value
        fun _ hx => by cases hx
    | @arrayAccess a i rest base f₁ index f₂ array _ ha hi harray =>
      have hbase := ih _ List.mem_cons_self hf ha
      have hindex := ih _ (by simp) (hbefore hf ha) hi
      refine .temp (hbefore (hbefore hf ha) hi) (hbase.disciplined.append hindex.disciplined)
        (hbase.straight.append hindex.straight) (fun x hx => ?_) fun _ hx => by cases hx
      rcases List.mem_cons.mp hx with rfl | hx
      · have hvalue : x ∈ base.value.vars := by simp [harray, Operand.vars, Operand.var?]
        exact (hbase.value x hvalue).over hindex.straight
      · exact (hindex.value x hx).behind _
    | invocation _ h =>
      obtain ⟨hcode, hstraight, hreads, hafter⟩ := lowerCall_ready
        (fun t ht _ _ _ _ hf h => ⟨ih t ht hf h, (lowerExpr_named hΓ hf h).closed.before⟩) hf h
      exact .temp (hf.mono hafter) hcode hstraight hreads fun _ hx => by cases hx

theorem lowerCondition_ready (hΓ : Γ.IsListed) {t : Ast} {f f' : Fresh} {v : Lowered}
    (hf : Γ.Reserved f) (hlower : (lowerCondition Γ t).run f = .ok (v, f')) :
    Ready Γ v ∧ f.Before f' := by
  obtain ⟨n, ts⟩ := t
  rcases lowerCondition_eq_ok hlower with ⟨t, rest, -, -, h⟩ | ⟨-, h⟩
  · exact lowerExpr_ready hΓ hf h
  · exact lowerExpr_ready hΓ hf h

theorem lowerEffect_disciplined (hΓ : Γ.IsListed) {t : Ast} {f f' : Fresh} {code : List Instr}
    (hf : Γ.Reserved f) (hlower : (lowerEffect Γ t).run f = .ok (code, f')) :
    Disciplined Γ code := by
  induction t using Tree.induction generalizing code with
  | node n ts ih =>
    cases lowerEffect_cases hlower with
    | parenthesis _ h => exact ih _ List.mem_cons_self h
    | invocation _ h =>
      obtain ⟨hcode, -, hreads, -⟩ :=
        lowerCall_ready (fun _ _ _ _ _ _ hf h => lowerExpr_ready hΓ hf h) hf h
      exact hcode.plain hreads rfl rfl
    | value _ _ h =>
      obtain ⟨hvalue, -⟩ := lowerExpr_ready hΓ hf h
      exact hvalue.disciplined.plain hvalue.value rfl rfl

/-! ## Statements -/

/-- The array that an element is assigned to may be read. -/
theorem lowerArray_ready {name : String} {scope : Scope} {symbol : Symbol} {type : ValueType}
    (hres : Γ.table.resolve? Γ.info.name name = some (scope, symbol))
    (htype : ValueType.ofType symbol.type = .ok type) {array : Var} {f f' : Fresh}
    {code : List Instr} (hf : Γ.Reserved f)
    (h : (lowerArray Γ scope ⟨name, type⟩).run f = .ok ((code, array), f')) :
    Disciplined Γ code ∧ Γ.Waits code array := by
  cases scope with
  | field =>
    obtain ⟨temp, f₁, htemp, h⟩ := Lowering.bind_eq_ok.mp h
    obtain ⟨rfl, rfl⟩ := Lowering.newTemp_eq_ok.mp htemp
    obtain ⟨heq, -⟩ := Lowering.pure_eq_ok.mp h
    obtain ⟨rfl, rfl⟩ := Prod.mk.inj heq
    have hready : Ready Γ (f.lowered [] type (.getField Γ.this ⟨name, type⟩)) := by
      refine .temp hf .nil .nil (fun _ hx => absurd hx List.not_mem_nil) fun x hx => ?_
      rw [← Option.some.inj hx]
      exact ⟨symbol, hres, htype⟩
    exact ⟨hready.disciplined, hready.value _ (List.mem_singleton.mpr rfl)⟩
  | «local» | parameter =>
    obtain ⟨heq, -⟩ := Lowering.pure_eq_ok.mp h
    obtain ⟨rfl, rfl⟩ := Prod.mk.inj heq
    exact ⟨.nil, .inl ⟨_, by simp, symbol, hres, htype⟩⟩

theorem lowerStatements_disciplined_of (hΓ : Γ.IsListed) {ts : List Ast}
    (h : ∀ t ∈ ts, ∀ f code f', Γ.Reserved f → (lowerStatement Γ t).run f = .ok (code, f') →
      Disciplined Γ code)
    {f f' : Fresh} {code : List Instr} (hf : Γ.Reserved f)
    (hlower : (lowerStatements Γ ts).run f = .ok (code, f')) : Disciplined Γ code := by
  induction ts generalizing f code with
  | nil =>
    obtain ⟨rfl, -⟩ := lowerStatements_nil_eq_ok hlower
    exact .nil
  | cons t ts ih =>
    obtain ⟨first, f₁, rest, ht, hts, rfl⟩ := lowerStatements_cons_eq_ok hlower
    have hbefore := (lowerStatement_closed hΓ hf ht).before
    exact (h t List.mem_cons_self _ _ _ hf ht).append
      (ih (fun u hu => h u (List.mem_cons_of_mem t hu)) (hf.mono hbefore) hts)

/-- The parts of a conditional read nothing of one another. -/
theorem conditionalCode_disciplined (k : Nat) {cond : Lowered} {thenCode elseCode : List Instr}
    (hcond : Ready Γ cond) (hthen : Disciplined Γ thenCode) (helse : Disciplined Γ elseCode) :
    Disciplined Γ (conditionalCode k cond thenCode elseCode) := by
  have hbranch := hcond.disciplined.plain (i := .branch cond.value true s!"Else_{k}")
    hcond.value rfl rfl
  have hjump := (hbranch.append hthen).plain (i := .jump s!"EndIf_{k}")
    (fun _ hx => absurd hx List.not_mem_nil) rfl rfl
  have helse' := (hjump.plain (i := .label s!"Else_{k}") (fun _ hx => absurd hx List.not_mem_nil)
    rfl rfl).append helse
  have hend := helse'.plain (i := .label s!"EndIf_{k}") (fun _ hx => absurd hx List.not_mem_nil)
    rfl rfl
  simpa [conditionalCode] using hend

/-- The parts of a loop read nothing of one another. -/
theorem loopCode_disciplined (k : Nat) {first again : Lowered} {body : List Instr}
    (hfirst : Ready Γ first) (hbody : Disciplined Γ body) (hagain : Ready Γ again) :
    Disciplined Γ (loopCode k first body again) := by
  have hbranch := hfirst.disciplined.plain (i := .branch first.value true s!"EndLoop_{k}")
    hfirst.value rfl rfl
  have hloop := (hbranch.plain (i := .label s!"Loop_{k}") (fun _ hx => absurd hx List.not_mem_nil)
    rfl rfl).append hbody
  have hback := (hloop.append hagain.disciplined).plain
    (i := .branch again.value false s!"Loop_{k}") (fun x hx => (hagain.value x hx).behind _) rfl rfl
  have hend := hback.plain (i := .label s!"EndLoop_{k}") (fun _ hx => absurd hx List.not_mem_nil)
    rfl rfl
  simpa [loopCode] using hend

/-- **Lowered statements are disciplined.** -/
theorem lowerStatement_disciplined (hΓ : Γ.IsListed) {t : Ast} {f f' : Fresh} {code : List Instr}
    (hf : Γ.Reserved f) (hlower : (lowerStatement Γ t).run f = .ok (code, f')) :
    Disciplined Γ code := by
  induction t using Tree.induction generalizing f code f' with
  | node n ts ih =>
    cases lowerStatement_cases hlower with
    | declaration _ => exact .nil
    | returnNone _ => exact Disciplined.nil.plain (fun _ hx => absurd hx List.not_mem_nil) rfl rfl
    | sequence _ h =>
      exact lowerStatements_disciplined_of hΓ (fun t ht _ _ _ hf h => ih t ht hf h) hf h
    | expression _ h | effect _ h => exact lowerEffect_disciplined hΓ hf h
    | «variable» _ hres hscope htype h =>
      exact (lowerExpr_ready hΓ hf h).1.storeIn ⟨_, hscope, _, hres, htype⟩
    | field _ hres htype h =>
      obtain ⟨hvalue, -⟩ := lowerExpr_ready hΓ hf h
      refine hvalue.disciplined.snoc hvalue.value (fun x hx => by cases hx) fun x hx => ?_
      rw [← Option.some.inj hx]
      exact ⟨_, hres, htype⟩
    | returnSome _ _ h =>
      obtain ⟨hvalue, -⟩ := lowerExpr_ready hΓ hf h
      exact hvalue.disciplined.plain hvalue.value rfl rfl
    | condition _ h =>
      obtain ⟨hvalue, -⟩ := lowerCondition_ready hΓ hf h
      exact hvalue.disciplined.plain hvalue.value rfl rfl
    | element _ hres htype ha hi he =>
      obtain ⟨hcode, harray⟩ := lowerArray_ready hres htype hf ha
      have hf₁ := hf.mono (lowerArray_closed hΓ hres ha).1.before
      obtain ⟨hindex, hbefore⟩ := lowerExpr_ready hΓ hf₁ hi
      obtain ⟨hvalue, -⟩ := lowerExpr_ready hΓ (hf₁.mono hbefore) he
      refine ((hcode.append hindex.disciplined).append hvalue.disciplined).plain (fun x hx => ?_)
        rfl rfl
      rcases List.mem_cons.mp hx with rfl | hx
      · exact (harray.over hindex.straight).over hvalue.straight
      · rcases List.mem_append.mp hx with hx | hx
        · exact ((hindex.value x hx).behind _).over hvalue.straight
        · exact (hvalue.value x hx).behind _
    | @conditional c t rest cond f₁ thenCode f₂ elseCode f₃ _ hc ht he =>
      obtain ⟨hcond, hbefore⟩ := lowerCondition_ready hΓ (hf.mono f.label_before) hc
      have hf₁ := hf.mono (f.label_before.trans hbefore)
      have helse : Disciplined Γ elseCode := by
        cases rest with
        | nil =>
          obtain ⟨rfl, -⟩ := Lowering.pure_eq_ok.mp he
          exact .nil
        | cons e rest =>
          exact ih e (by simp) (hf₁.mono (lowerStatement_closed hΓ hf₁ ht).before) he
      exact conditionalCode_disciplined f.nextLabel hcond (ih t (by simp) hf₁ ht) helse
    | loop _ hc hb hc' =>
      obtain ⟨hfirst, hbefore⟩ := lowerCondition_ready hΓ (hf.mono f.label_before) hc
      have hf₁ := hf.mono (f.label_before.trans hbefore)
      have hbody := lowerStatements_disciplined_of hΓ
        (fun t ht _ _ _ hf h => ih t (by simp [ht]) hf h) hf₁ hb
      have hf₂ := hf₁.mono (lowerStatements_closed hΓ hf₁ hb).before
      exact loopCode_disciplined f.nextLabel hfirst hbody (lowerCondition_ready hΓ hf₂ hc').1

end

/-! ## Places -/

section

variable {Γ : Site} {m : Method} {N : List String} {x : String}

/-- A temporary that is read was assigned before, with straight code in between. -/
theorem Disciplined.assigned (h : Disciplined Γ m.code) (hΓ : Γ.IsListed) {j : Nat} {c : Instr}
    (hc : m.code[j]? = some c) {v : Var} (hv : v ∈ c.reads) (hname : v.name ∉ Γ.frameNames) :
    ∃ d rhs, d < j ∧ m.code[d]? = some (.assign v rhs) ∧
      ∀ k c', d < k → k < j → m.code[k]? = some c' → c'.isControl = false := by
  obtain ⟨hj, hget⟩ := List.getElem?_eq_some_iff.mp hc
  have hsplit : m.code = m.code.take j ++ c :: m.code.drop (j + 1) := by
    rw [← hget, List.getElem_cons_drop, List.take_append_drop]
  rcases h.reads _ c _ hsplit v hv with
    ⟨scope, hscope, symbol, hres, -⟩ | ⟨first, rhs, last, heq, hlast⟩
  · exact absurd (Γ.mem_frameNames hΓ hres hscope) hname
  · have hlength : j = first.length + (last.length + 1) := by
      have hlengths := congrArg List.length heq
      rw [List.length_take, List.length_append, List.length_cons] at hlengths
      omega
    have hat : ∀ k, k < j → m.code[k]? = (first ++ .assign v rhs :: last)[k]? := by
      intro k hk
      rw [← heq, List.getElem?_take_of_lt hk]
    refine ⟨first.length, rhs, by omega, ?_, fun k c' hfirst hk hc' => ?_⟩
    · rw [hat _ (by omega), List.getElem?_append_right (Nat.le_refl _), Nat.sub_self,
        List.getElem?_cons_zero]
    · rw [hat k hk, List.getElem?_append_right (by omega), List.getElem?_cons,
        if_neg (by omega)] at hc'
      exact hlast c' (List.mem_of_getElem? hc')

/-- A temporary is assigned at one place. -/
theorem assignsAt_unique (hnodup : (tempsOf N m.code).Nodup) (hx : x ∉ N) {i j : Nat}
    (hi : m.AssignsAt x i) (hj : m.AssignsAt x j) : i = j := by
  have hapart : ∀ i j, i < j → m.AssignsAt x i → ¬ m.AssignsAt x j := by
    rintro i j hlt ⟨c, hc, hdefs⟩ ⟨c', hc', hdefs'⟩
    rw [← List.take_append_drop j m.code, tempsOf_append] at hnodup
    have hearly : x ∈ tempsOf N (m.code.take j) := by
      rw [← List.getElem?_take_of_lt hlt] at hc
      exact mem_tempsOf.mpr ⟨List.mem_flatMap.mpr ⟨c, List.mem_of_getElem? hc, hdefs⟩, hx⟩
    have hlate : x ∈ tempsOf N (m.code.drop j) := by
      rw [← Nat.add_zero j, ← List.getElem?_drop] at hc'
      exact mem_tempsOf.mpr ⟨List.mem_flatMap.mpr ⟨c', List.mem_of_getElem? hc', hdefs'⟩, hx⟩
    exact (List.nodup_append.mp hnodup).2.2 x hearly x hlate rfl
  rcases Nat.lt_trichotomy i j with hlt | heq | hlt
  · exact absurd hj (hapart i j hlt hi)
  · exact heq
  · exact absurd hi (hapart j i hlt hj)

namespace Method

/-- A name is assigned at one place, and whatever reads it comes after that place with no label and
no jump in between. -/
def IsSingle (m : Method) (x : String) : Prop :=
  ∃ d, m.AssignsAt x d ∧ (∀ j, m.AssignsAt x j → j = d) ∧
    ∀ j, m.ReadsAt x j → d < j ∧
      ∀ k c, d < k → k < j → m.code[k]? = some c → c.isControl = false

/-- No way into the code gets to a place that reads such a name but through its assignment. -/
theorem IsSingle.not_readsAhead (h : m.IsSingle x) (hland : m.JumpsLand) :
    ¬ m.ReadsAhead x 0 := by
  obtain ⟨d, hassign, -, hreads⟩ := h
  intro hahead
  -- Carried back along the path: the place is behind the assignment, and no label is in between.
  have hbehind : d < 0 ∧ ∀ k c, d < k → k ≤ 0 → m.code[k]? = some c → c.label? = none := by
    refine hahead.induction (P := fun i => d < i ∧
      ∀ k c, d < k → k ≤ i → m.code[k]? = some c → c.label? = none) ?_ ?_
    · intro i hread
      obtain ⟨hlt, hstraight⟩ := hreads i hread
      refine ⟨hlt, fun k c hdk hki hc => ?_⟩
      rcases Nat.lt_or_eq_of_le hki with hki | rfl
      · have hcontrol := hstraight k c hdk hki hc
        cases c with
        | label name => cases hcontrol
        | _ => rfl
      · have huses := (readsAt_iff hc).mp hread
        cases c with
        | label name => cases huses
        | _ => rfl
    · rintro i j hleads hkeep ⟨hlt, hstraight⟩
      obtain ⟨c, succ, hc, -, -⟩ := id hleads
      rcases (leadsTo_iff hland hc).mp hleads with ⟨-, rfl, -⟩ | ⟨label, -, hplace⟩
      · have hne : i ≠ d := by
          rintro rfl
          exact hkeep hassign
        exact ⟨by omega, fun k c hdk hki => hstraight k c hdk (by omega)⟩
      · obtain ⟨k, c', rfl, hk, hlabel⟩ := labelIndex?_eq_some hplace
        rw [Nat.zero_add] at hlt hstraight
        rw [hstraight k c' hlt (Nat.le_refl k) hk] at hlabel
        cases hlabel
  exact Nat.not_lt_zero d hbehind.1

end Method

/-- **Temporaries are single.** -/
theorem Disciplined.isSingle (h : Disciplined Γ m.code) (hΓ : Γ.IsListed)
    (hnodup : (tempsOf Γ.frameNames m.code).Nodup) {i : Instr} (hi : i ∈ m.code)
    (hx : x ∈ i.uses ++ i.defs) (hname : x ∉ Γ.frameNames) : m.IsSingle x := by
  have hassigned : ∀ {j : Nat}, m.ReadsAt x j → ∃ d, d < j ∧ m.AssignsAt x d ∧
      ∀ k c, d < k → k < j → m.code[k]? = some c → c.isControl = false := by
    rintro j ⟨c, hc, hread⟩
    rw [Instr.uses_eq] at hread
    obtain ⟨v, hv, rfl⟩ := List.mem_map.mp hread
    obtain ⟨d, rhs, hlt, hd, hstraight⟩ := h.assigned hΓ hc hv hname
    exact ⟨d, hlt, ⟨_, hd, List.mem_singleton.mpr rfl⟩, hstraight⟩
  obtain ⟨d, hd⟩ : ∃ d, m.AssignsAt x d := by
    obtain ⟨j, hj⟩ := List.getElem?_of_mem hi
    rcases List.mem_append.mp hx with hread | hassign
    · obtain ⟨d, -, hd, -⟩ := hassigned ⟨i, hj, hread⟩
      exact ⟨d, hd⟩
    · exact ⟨j, i, hj, hassign⟩
  refine ⟨d, hd, fun j hj => assignsAt_unique hnodup hname hj hd, fun j hread => ?_⟩
  obtain ⟨d', hlt, hd', hstraight⟩ := hassigned hread
  cases assignsAt_unique hnodup hname hd' hd
  exact ⟨hlt, hstraight⟩

/-! ## Types -/

theorem Site.Types.mem_reservedNames {scope : Scope} {v : Var} (h : Γ.Types scope v)
    (hΓ : Γ.IsListed) : v.name ∈ reservedNames Γ.table Γ.info := by
  obtain ⟨symbol, hres, -⟩ := h
  unfold reservedNames
  obtain ⟨hname, ⟨-, hmem⟩ | ⟨-, info, hinfo, hmem⟩⟩ := ClassTable.resolve?_cases hres
  · exact List.mem_map.mpr ⟨symbol, List.mem_append_right _ hmem, hname⟩
  · cases Option.some.inj (hinfo.symm.trans hΓ)
    exact List.mem_map.mpr ⟨symbol, List.mem_append_left _ hmem, hname⟩

/-- What stands in an instruction is declared, or a temporary that is assigned as it stands. -/
theorem Disciplined.occurrence (h : Disciplined Γ m.code) {i : Instr} (hi : i ∈ m.code) {v : Var}
    (hv : v ∈ i.occurrences) :
    (∃ scope, Γ.Types scope v) ∨ v.name ∉ reservedNames Γ.table Γ.info ∧
      ∃ (d : Nat) (rhs : Rhs), m.code[d]? = some (.assign v rhs) := by
  have hdest : ∀ j ∈ m.code, j.dest? = some v → (∃ scope, Γ.Types scope v) ∨
      v.name ∉ reservedNames Γ.table Γ.info ∧
        ∃ (d : Nat) (rhs : Rhs), m.code[d]? = some (.assign v rhs) := by
    intro j hj hassign
    rcases h.dests j hj v hassign with ⟨scope, -, htypes⟩ | hfree
    · exact .inl ⟨scope, htypes⟩
    · obtain ⟨d, hd⟩ := List.getElem?_of_mem hj
      cases j with
      | assign dest rhs =>
        cases Option.some.inj hassign
        exact .inr ⟨hfree, d, rhs, hd⟩
      | _ => cases hassign
  rcases List.mem_append.mp hv with hv | hfield
  · rcases List.mem_append.mp hv with hread | hassign
    · obtain ⟨pre, post, hsplit⟩ := List.append_of_mem hi
      rcases h.reads pre i post hsplit v hread with ⟨scope, -, htypes⟩ | ⟨first, rhs, last, rfl, -⟩
      · exact .inl ⟨scope, htypes⟩
      · exact hdest (.assign v rhs) (by simp [hsplit]) rfl
    · exact hdest i hi (Option.mem_toList.mp hassign)
  · exact .inl ⟨.field, h.fields i hi v (Option.mem_toList.mp hfield)⟩

/-- **A name has one type.** -/
theorem Disciplined.type_eq (h : Disciplined Γ m.code) (hΓ : Γ.IsListed)
    (hnodup : (tempsOf Γ.frameNames m.code).Nodup) {i j : Instr} (hi : i ∈ m.code)
    (hj : j ∈ m.code) {v w : Var} (hv : v ∈ i.occurrences) (hw : w ∈ j.occurrences)
    (hname : v.name = w.name) : v.type = w.type := by
  rcases h.occurrence hi hv with ⟨scope, htypes⟩ | ⟨hfree, d, rhs, hd⟩
  · rcases h.occurrence hj hw with ⟨scope', htypes'⟩ | ⟨hfree', -⟩
    · obtain ⟨symbol, hres, htype⟩ := htypes
      obtain ⟨symbol', hres', htype'⟩ := htypes'
      rw [hname, hres'] at hres
      obtain ⟨-, rfl⟩ := Prod.mk.inj (Option.some.inj hres)
      exact Except.ok.inj (htype.symm.trans htype')
    · exact absurd (hname ▸ htypes.mem_reservedNames hΓ) hfree'
  · rcases h.occurrence hj hw with ⟨scope', htypes'⟩ | ⟨-, d', rhs', hd'⟩
    · exact absurd (hname ▸ htypes'.mem_reservedNames hΓ) hfree
    · have hN : v.name ∉ Γ.frameNames := by
        refine mt (fun hmem => ?_) hfree
        rw [reservedNames, List.map_append]
        exact List.mem_append_left _ hmem
      have hplace : d = d' := assignsAt_unique hnodup hN ⟨_, hd, List.mem_singleton.mpr rfl⟩
        ⟨_, hd', List.mem_singleton.mpr hname⟩
      rw [hplace, hd'] at hd
      obtain ⟨rfl, -⟩ := Instr.assign.inj (Option.some.inj hd)
      rfl

end

/-! ## Methods -/

section

variable {T : ClassTable} {info : MethodInfo} {ts : List Ast} {m : Method}

theorem lowerMethod_disciplined (hinfo : T.method? info.name = some info)
    (h : lowerMethod T info ts = .ok m) : Disciplined ⟨T, info⟩ m.code := by
  obtain ⟨code, f, hcode, -, -, -, -, -, hclose⟩ := lowerMethod_eq_ok h
  have hlisted : Site.IsListed ⟨T, info⟩ := hinfo
  have hreserved : Site.Reserved ⟨T, info⟩ { reserved := reservedNames T info } := rfl
  have hbody := lowerStatements_disciplined_of hlisted
    (fun _ _ _ _ _ hf h => lowerStatement_disciplined hlisted hf h) hreserved hcode
  rw [hclose]
  rcases Meaning.closeBody_cases m.result code with ⟨-, heq⟩ | ⟨-, heq⟩ | ⟨-, heq, -⟩
  · rw [heq]
    exact hbody
  · rw [heq]
    exact hbody.plain (fun _ hx => absurd hx List.not_mem_nil) rfl rfl
  · rw [heq]
    exact hbody

theorem lowerMethod_frameNames (h : lowerMethod T info ts = .ok m) :
    m.frameNames = Site.frameNames ⟨T, info⟩ := by
  obtain ⟨_, _, -, -, hparams, hlocals, -⟩ := lowerMethod_eq_ok h
  rw [Method.frameNames, Site.frameNames, List.map_append, List.map_append, varsOf_names hparams,
    varsOf_names hlocals]

/-- A frame has a slot for whatever is read or assigned. -/
theorem build_slot (h : Machine.IsClosed m) {budget : Nat} {F : Machine.Frame}
    (hF : Machine.Frame.build budget m = .ok F) {i : Instr} (hi : i ∈ m.code) {v : Var}
    (hv : v ∈ i.reads ++ i.dest?.toList) : Machine.IsOk (F.slot v) := by
  obtain ⟨rfl, hslots, -⟩ := Machine.Frame.build_eq_ok hF
  obtain ⟨start, heq, -⟩ := Machine.allocate_eq F.method
  rw [heq] at hslots
  have hmem : v.name ∈ (Machine.frameVars F.method).map Var.name := by
    rcases List.mem_append.mp hv with hread | hassign
    · exact h.reads i hi v.name (i.uses_eq ▸ List.mem_map_of_mem hread)
    · exact Machine.defs_subset_frameVars hi (i.defs_eq ▸ List.mem_map_of_mem hassign)
  obtain ⟨w, hw, hname⟩ := List.mem_map.mp hmem
  exact Machine.Frame.slot_isOk (hname ▸ Machine.SlotTable.assignAll_covers hslots hw)

/-- A temporary has a name that was handed out, and fields are not called like that. -/
theorem name_of_isSingle {f : Fresh} {x : String}
    (hclosed : Closed (Site.frameNames ⟨T, info⟩) [] { reserved := reservedNames T info } f m.code)
    (hname : x ∉ Site.frameNames ⟨T, info⟩) (h : m.IsSingle x) :
    (∃ k, x = Fresh.tempName k) ∧ x ∉ T.fields.map Symbol.name := by
  obtain ⟨d, ⟨c, hc, hassign⟩, -, -⟩ := h
  have hmem : x ∈ tempsOf (Site.frameNames ⟨T, info⟩) m.code :=
    mem_tempsOf.mpr ⟨List.mem_flatMap.mpr ⟨c, List.mem_of_getElem? hc, hassign⟩, hname⟩
  have hgives := hclosed.gives x hmem
  obtain ⟨k, -, -, -, hk⟩ := id hgives
  refine ⟨⟨k, hk⟩, fun hfield => Fresh.not_mem_of_gives hgives ?_⟩
  show x ∈ reservedNames T info
  rw [reservedNames, List.map_append]
  exact List.mem_append_right _ hfield

/-- Only declared names are live at the start, if all others are assigned once. -/
theorem mem_frameNames_of_live (hland : m.JumpsLand)
    (hsingle : ∀ i ∈ m.code, ∀ x ∈ i.uses ++ i.defs, x ∉ m.frameNames → m.IsSingle x) :
    ∃ L, m.liveness = .ok L ∧ ∀ x ∈ L.before 0, x ∈ m.frameNames := by
  obtain ⟨L, hL⟩ := hland.liveness
  refine ⟨L, hL, fun x hx => by_contra fun hname => ?_⟩
  rw [Method.mem_before hL] at hx
  obtain ⟨i, hi, hread⟩ := hx.exists_reads
  exact (hsingle i hi x (List.mem_append_left _ hread) hname).not_readsAhead hland hx

end

/-- **Temporaries obey the single-assignment discipline.**  In every method of a class that was
lowered with any table, a name that is read or assigned and is neither a parameter nor a local is
`t` and a number and no name of a field; one instruction assigns it, and what reads it comes after
that with no label and no jump in between.  All that has the same name has the same type.  So only
parameters and locals are live at the start.  A frame exists unless the method needs too many slots,
and has a slot for whatever is read or assigned. -/
theorem lowerClass_single {T : ClassTable} {t : Ast} {code : ClassCode}
    (h : lowerClass T t = .ok code) {m : Method} (hm : m ∈ code.methods) :
    (∀ i ∈ m.code, ∀ x ∈ i.uses ++ i.defs, x ∉ m.frameNames →
      (∃ k : Nat, x = Fresh.tempName k) ∧ x ∉ code.fields.map Var.name ∧ m.IsSingle x) ∧
    (∀ i ∈ m.code, ∀ j ∈ m.code, ∀ v ∈ i.occurrences, ∀ w ∈ j.occurrences,
      v.name = w.name → v.type = w.type) ∧
    (∃ L, m.liveness = .ok L ∧ ∀ x ∈ L.before 0, x ∈ m.frameNames) ∧
    ∀ budget, (Machine.IsOk (Machine.Frame.build budget m) ↔
        Machine.slotsNeeded m ≤ Machine.maxSlots) ∧
      ∀ F, Machine.Frame.build budget m = .ok F → ∀ i ∈ m.code,
        ∀ v ∈ i.reads ++ i.dest?.toList, Machine.IsOk (F.slot v) := by
  obtain ⟨c, hc, -⟩ := except_bind_eq_ok.mp (id h)
  obtain ⟨hfields, hmethods⟩ := Machine.lowerClass_eq_ok hc h
  obtain ⟨member, -, name, info, -, hinfo, hmethod⟩ := mem_lowerMethods hmethods hm
  obtain rfl := ClassTable.name_of_method? hinfo
  have hlisted : Site.IsListed ⟨T, info⟩ := hinfo
  have hdisciplined := lowerMethod_disciplined hinfo hmethod
  obtain ⟨f, hclosed⟩ := Machine.lowerMethod_closed hinfo hmethod
  have hisClosed := Machine.lowerMethod_isClosed hinfo hmethod
  have hsingle : ∀ i ∈ m.code, ∀ x ∈ i.uses ++ i.defs, x ∉ m.frameNames → m.IsSingle x := by
    intro i hi x hx hname
    rw [lowerMethod_frameNames hmethod] at hname
    exact hdisciplined.isSingle hlisted hclosed.nodup hi hx hname
  refine ⟨fun i hi x hx hname => ?_, fun i hi j hj v hv w hw hsame => ?_, ?_, fun budget => ?_⟩
  · have hfull := hsingle i hi x hx hname
    rw [lowerMethod_frameNames hmethod] at hname
    obtain ⟨htemp, hfield⟩ := name_of_isSingle hclosed hname hfull
    rw [varsOf_names hfields]
    exact ⟨htemp, hfield, hfull⟩
  · exact hdisciplined.type_eq hlisted hclosed.nodup hi hj hv hw hsame
  · refine mem_frameNames_of_live (fun c hc label htarget => ?_) hsingle
    exact List.mem_filterMap.mp (hisClosed.jumps c hc label htarget)
  · refine ⟨Machine.build_isOk hisClosed budget, fun F hF i hi v hv => ?_⟩
    exact build_slot hisClosed hF hi hv

/-- A class with a loop whose test is lowered twice. -/
def countClass : Program :=
  .ofSource <| .classOf "Count" none [
    .method .int "count" [.argument .int "n"] [
      .localVar .int "t0",
      .assign "t0" (.int 0),
      .loop (.binary .lt (.identifier "t0") (.identifier "n"))
        [.assign "t0" (.binary .add (.identifier "t0") (.int 1))],
      .returnValue (.identifier "t0")]]

/-- Its local is called like a temporary, and its temporaries are called otherwise. -/
theorem countClass_single : ∃ a code m, countClass.analyze {} = .ok a ∧
    lowerClass a.table countClass.tree = .ok code ∧ m ∈ code.methods ∧
      m.frameNames = ["n", "t0"] ∧ destsOf m.code = ["t0", "t1", "t0", "t3"] ∧
      m.IsSingle "t1" ∧ m.IsSingle "t3" ∧
      ∃ L, m.liveness = .ok L ∧ ∀ x ∈ L.before 0, x ∈ ["n", "t0"] := by
  obtain ⟨a, code, m, ha, hcode, hm, hnames, hdests⟩ : ∃ a code m,
      countClass.analyze {} = .ok a ∧ lowerClass a.table countClass.tree = .ok code ∧
        m ∈ code.methods ∧ m.frameNames = ["n", "t0"] ∧
        destsOf m.code = ["t0", "t1", "t0", "t3"] :=
    ⟨_, _, _, rfl, rfl, List.mem_cons_self, rfl, rfl⟩
  obtain ⟨htemps, -, hlive, -⟩ := lowerClass_single hcode hm
  have hsingle : ∀ x ∈ destsOf m.code, x ∉ m.frameNames → m.IsSingle x := by
    intro x hx hname
    obtain ⟨i, hi, hx⟩ := List.mem_flatMap.mp hx
    exact (htemps i hi x (List.mem_append_right _ hx) hname).2.2
  exact ⟨a, code, m, ha, hcode, hm, hnames, hdests,
    hsingle "t1" (by simp [hdests]) (by simp [hnames]),
    hsingle "t3" (by simp [hdests]) (by simp [hnames]), hnames ▸ hlive⟩

end ThreeAddress
end ClassCompiler
