import ClassCompiler.Proofs.OnStore.Reading
import ClassCompiler.ThreeAddress.Lower

/-!
# Lowering a tree where it is stored

The code of a class, read off the nodes of a store.

* `lowerExpr_eq`, `lowerStatement_eq`, `lowerClass_eq`: where the store has the tree, this form does
  not break off and gives what the form on trees gives.  Nothing is asked of the program: it may
  have been rejected before.
-/

namespace ClassCompiler
namespace OnStore

open ThreeAddress

variable {s : Store} {Γ : Site} {depth : Nat} {n : Numbered} {t : Ast} {ts : List Ast}

/-- A child that must be there. -/
def operand (s : Store) (id index : Nat) (expected : String) : ExceptT Abort Lowering Nat :=
  childOr throw s id index expected

theorem operand_eq (h : s.Has n ts) (index : Nat) (expected : String) :
    operand s n.id index expected =
      match ts[index]? with
      | some t => pure t.id
      | none => sure (throw (.missing n index expected)) :=
  childOr_eq h _ index expected

theorem throw_bind {α β : Type} (e : Error) (f : α → ExceptT Abort Lowering β) :
    (sure (throw e : Lowering α) >>= f) = sure (throw e) := rfl

/-! ## Expressions -/

/-- Lowers the arguments of a call, given what is known of the parameters from here on. -/
def lowerArgs (lower : Option ValueType → Nat → ExceptT Abort Lowering ThreeAddress.Lowered)
    (declared : List Symbol) : List Nat → ExceptT Abort Lowering LoweredArgs
  | [] => return {}
  | id :: ids => do
    let param ← sure (ThreeAddress.liftExcept (nextParam declared))
    let arg ← lower param id
    let rest ← lowerArgs lower declared.tail ids
    return { code := arg.code ++ rest.code, args := arg.value :: rest.args,
             params := param.getD arg.value.type :: rest.params }

/-- Lowers the target and the arguments of a call. -/
def lowerCall (s : Store) (Γ : Site)
    (lower : Option ValueType → Nat → ExceptT Abort Lowering ThreeAddress.Lowered) (n : Numbered)
    (method : String) (expected : Option ValueType) :
    ExceptT Abort Lowering (List Instr × Call) := do
  let target ← lower none (← operand s n.id 0 "invocation target")
  let callee := Γ.callee? target.value method
  let args ← behindFirst s n.id
  let rest ← lowerArgs lower (match callee with | some info => info.parameters | none => []) args
  let result ← sure (ThreeAddress.liftExcept (callResult callee expected))
  return (target.code ++ rest.code,
    { kind := callKind target.value, target := target.value, method, args := rest.args,
      params := rest.params, result })

/-- Lowers an expression whose value is used. -/
def lowerExpr (s : Store) (Γ : Site) :
    Nat → Option ValueType → Nat → ExceptT Abort Lowering ThreeAddress.Lowered
  | 0, _, _ => abort .endless
  | depth + 1, expected, id => do
    let n ← labelAt s id
    match n.kind with
    | .parenthesis => lowerExpr s Γ depth expected (← operand s id 0 "inner expression")
    | .binary op =>
      let left ← lowerExpr s Γ depth (some (operandType op)) (← operand s id 0 "left operand")
      let right ← lowerExpr s Γ depth (some (operandType op)) (← operand s id 1 "right operand")
      sure (assignTemp (left.code ++ right.code) (resultType op)
        (.binary op left.value right.value))
    | .negation =>
      let inner ← lowerExpr s Γ depth (some .bool) (← operand s id 0 "operand")
      sure (assignTemp inner.code .bool (.not inner.value))
    | .arrayAccess =>
      let base ← lowerExpr s Γ depth (some .intArray) (← operand s id 0 "array")
      let index ← lowerExpr s Γ depth (some .int) (← operand s id 1 "index")
      sure <| match base.value.var? with
        | none => throw (.malformedTree id (.notIndexable base.value))
        | some array => assignTemp (base.code ++ index.code) .int (.arrayLoad array index.value)
    | .arrayLength =>
      let base ← lowerExpr s Γ depth none (← operand s id 0 "array")
      sure (assignTemp base.code .int (.arrayLength base.value))
    | .newArray =>
      let length ← lowerExpr s Γ depth (some .int) (← operand s id 0 "length")
      sure (assignTemp length.code .intArray (.newArray length.value))
    | .invocation method =>
      let (code, call) ← lowerCall s Γ (lowerExpr s Γ depth) n method (some (expected.getD .int))
      sure (assignTemp code call.result (.call call))
    | kind => sure (lowerLeaf Γ n kind)

theorem lowerArgs_eq {lower : Option ValueType → Nat → ExceptT Abort Lowering ThreeAddress.Lowered}
    (h : ∀ t ∈ ts, ∀ expected, lower expected t.id = sure (ThreeAddress.lowerExpr Γ expected t))
    (declared : List Symbol) :
    lowerArgs lower declared (ts.map Tree.id) = sure (ThreeAddress.lowerArgs Γ declared ts) := by
  induction ts generalizing declared with
  | nil =>
    rw [ThreeAddress.lowerArgs]
    exact pure_eq_sure (m := Lowering) _
  | cons t ts ih =>
    rw [List.map_cons, lowerArgs, ThreeAddress.lowerArgs]
    simp only [h t List.mem_cons_self, ih fun u hu => h u (List.mem_cons_of_mem t hu), sure_bind,
      sure_bind_pure]

theorem lowerCall_eq {lower : Option ValueType → Nat → ExceptT Abort Lowering ThreeAddress.Lowered}
    (has : s.Has n ts)
    (h : ∀ t ∈ ts, ∀ expected, lower expected t.id = sure (ThreeAddress.lowerExpr Γ expected t))
    (method : String) (expected : Option ValueType) :
    lowerCall s Γ lower n method expected =
      sure (ThreeAddress.lowerCall Γ n method expected ts) := by
  rw [lowerCall, operand_eq has, ThreeAddress.lowerCall.eq_def]
  rcases ts with _ | ⟨t, args⟩
  · rfl
  · simp only [List.getElem?_cons_zero, pure_bind, h t List.mem_cons_self, behindFirst_eq has,
      lowerArgs_eq fun u hu => h u (List.mem_cons_of_mem t hu), sure_bind_pure]
    exact (bind_congr fun _ => sure_bind _ _).trans (sure_bind _ _)

/-- **Expressions are lowered without breaking off.** -/
theorem lowerExpr_eq (h : s.Holds t) (hsize : t.size ≤ depth) (expected : Option ValueType) :
    lowerExpr s Γ depth expected t.id = sure (ThreeAddress.lowerExpr Γ expected t) := by
  induction h generalizing depth expected with
  | @node n ts has all ih =>
    obtain ⟨depth, rfl⟩ := Tree.depth_eq_succ hsize
    have hchild : ∀ t ∈ ts, ∀ expected,
        lowerExpr s Γ depth expected t.id = sure (ThreeAddress.lowerExpr Γ expected t) :=
      fun t ht => ih t ht (Tree.size_le_of_mem hsize ht)
    rw [lowerExpr, ThreeAddress.lowerExpr.eq_def]
    simp only [Tree.id_node, labelAt_eq has, pure_bind, operand_eq has]
    cases hk : n.kind with
    | parenthesis =>
      rcases ts with _ | ⟨t, rest⟩
      · rfl
      · exact hchild t List.mem_cons_self expected
    | binary _ =>
      rcases ts with _ | ⟨a, _ | ⟨b, rest⟩⟩
      · rfl
      · simp [hchild, throw_bind, sure_bind]
      · simp [hchild, sure_bind]
    | arrayAccess =>
      rcases ts with _ | ⟨a, _ | ⟨i, rest⟩⟩
      · rfl
      · simp [hchild, throw_bind, sure_bind]
      · have hi : i ∈ a :: i :: rest := List.mem_cons_of_mem a List.mem_cons_self
        simp only [List.getElem?_cons_zero, List.getElem?_cons_succ, pure_bind,
          hchild a List.mem_cons_self, hchild i hi]
        exact (bind_congr fun _ => sure_bind _ _).trans (sure_bind _ _)
    | negation | arrayLength | newArray =>
      rcases ts with _ | ⟨t, rest⟩
      · rfl
      · simp [hchild, sure_bind]
    | invocation method =>
      simp only [lowerCall_eq has hchild, sure_bind]
    | _ => rfl

/-! ## Statements -/

/-- Lowers a condition, or an expression in its place. -/
def lowerCondition (s : Store) (Γ : Site) (depth id : Nat) :
    ExceptT Abort Lowering ThreeAddress.Lowered := do
  let guard ← match (← labelAt s id).kind with
    | .condition => operand s id 0 "guard expression"
    | _ => pure id
  lowerExpr s Γ depth (some .bool) guard

/-- Lowers an expression that is run for its effect. -/
def lowerEffect (s : Store) (Γ : Site) : Nat → Nat → ExceptT Abort Lowering (List Instr)
  | 0, _ => abort .endless
  | depth + 1, id => do
    let n ← labelAt s id
    match n.kind with
    | .parenthesis => lowerEffect s Γ depth (← operand s id 0 "inner expression")
    | .invocation method =>
      let (code, call) ← lowerCall s Γ (lowerExpr s Γ depth) n method none
      return code ++ [.call call]
    | _ =>
      let v ← lowerExpr s Γ (depth + 1) none id
      return v.code ++ [.noop v.value]

/-- Lowers an assignment to a variable or a field. -/
def lowerAssignment (s : Store) (Γ : Site) (depth : Nat) (n : Numbered) (name : String) :
    ExceptT Abort Lowering (List Instr) := do
  let (scope, dest) ← sure (ThreeAddress.liftExcept (Γ.target n name))
  let v ← lowerExpr s Γ depth (some dest.type) (← operand s n.id 0 "value")
  sure <| match scope with
    | .field => return v.code ++ [.putField Γ.this dest v.value]
    | _ => return v.storeIn dest

/-- Lowers an assignment to an element of an array. -/
def lowerArrayAssignment (s : Store) (Γ : Site) (depth : Nat) (n : Numbered) (name : String) :
    ExceptT Abort Lowering (List Instr) := do
  let (scope, place) ← sure (ThreeAddress.liftExcept (Γ.target n name))
  let (code, array) ← sure (lowerArray Γ scope place)
  let index ← lowerExpr s Γ depth (some .int) (← operand s n.id 0 "index")
  let value ← lowerExpr s Γ depth (some .int) (← operand s n.id 1 "value")
  return code ++ index.code ++ value.code ++ [.arrayStore array index.value value.value]

/-- Lowers a return. -/
def lowerReturn (s : Store) (Γ : Site) (depth id : Nat) :
    ExceptT Abort Lowering (List Instr) := do
  match (← childrenAt s id).head? with
  | none => return [.ret none]
  | some t =>
    let type ← sure (ThreeAddress.liftExcept (ValueType.ofType Γ.info.returnType))
    let v ← lowerExpr s Γ depth (some type) t
    return v.code ++ [.ret (some v.value)]

/-- Lowers statements one after another. -/
def lowerAll (lower : Nat → ExceptT Abort Lowering (List Instr)) :
    List Nat → ExceptT Abort Lowering (List Instr)
  | [] => return []
  | id :: ids => do
    let code ← lower id
    let rest ← lowerAll lower ids
    return code ++ rest

/-- Lowers a statement. -/
def lowerStatement (s : Store) (Γ : Site) : Nat → Nat → ExceptT Abort Lowering (List Instr)
  | 0, _ => abort .endless
  | depth + 1, id => do
    let n ← labelAt s id
    match n.kind with
    | .returnType _ => return []
    | .argument _ _ => return []
    | .localVar _ _ => return []
    | .block => lowerAll (lowerStatement s Γ depth) (← childrenAt s id)
    | .thenBranch => lowerAll (lowerStatement s Γ depth) (← childrenAt s id)
    | .elseBranch => lowerAll (lowerStatement s Γ depth) (← childrenAt s id)
    | .conditional =>
      let k ← sure newLabel
      let cond ← lowerCondition s Γ depth (← operand s id 0 "condition")
      let thenCode ← lowerStatement s Γ depth (← operand s id 1 "then branch")
      let elseCode ← match (← childrenAt s id)[2]? with
        | none => pure []
        | some e => lowerStatement s Γ depth e
      return cond.code ++ [.branch cond.value true s!"Else_{k}"] ++ thenCode
        ++ [.jump s!"EndIf_{k}", .label s!"Else_{k}"] ++ elseCode ++ [.label s!"EndIf_{k}"]
    | .loop =>
      let k ← sure newLabel
      let guard ← operand s id 0 "condition"
      let first ← lowerCondition s Γ depth guard
      let body ← behindFirst s id
      let bodyCode ← lowerAll (lowerStatement s Γ depth) body
      let again ← lowerCondition s Γ depth guard
      return first.code ++ [.branch first.value true s!"EndLoop_{k}", .label s!"Loop_{k}"]
        ++ bodyCode ++ again.code
        ++ [.branch again.value false s!"Loop_{k}", .label s!"EndLoop_{k}"]
    | .expression => lowerEffect s Γ depth (← operand s id 0 "expression")
    | .assignment name => lowerAssignment s Γ depth n name
    | .arrayAssignment name => lowerArrayAssignment s Γ depth n name
    | .ret => lowerReturn s Γ depth id
    | .condition =>
      let cond ← lowerCondition s Γ (depth + 1) id
      return cond.code ++ [.noop cond.value]
    | _ => lowerEffect s Γ (depth + 1) id

theorem lowerCondition_eq (h : s.Holds t) (hsize : t.size ≤ depth) :
    lowerCondition s Γ depth t.id = sure (ThreeAddress.lowerCondition Γ t) := by
  cases h with
  | @node n ts has all =>
    rw [lowerCondition, ThreeAddress.lowerCondition.eq_def, Tree.id_node, labelAt_eq has,
      pure_bind]
    cases hk : n.kind with
    | condition =>
      rcases ts with _ | ⟨g, rest⟩
      · simp only [hk, operand_eq has, List.getElem?_nil, throw_bind]
      · simp only [hk, operand_eq has, List.getElem?_cons_zero, pure_bind]
        have hg : g ∈ g :: rest := List.mem_cons_self
        exact lowerExpr_eq (all g hg)
          (Nat.le_trans (Nat.le_succ_of_le (Tree.size_le_sizeAll hg)) hsize) _
    | _ =>
      simp only [hk, pure_bind]
      exact lowerExpr_eq (.node has all) hsize _

theorem lowerEffect_eq (h : s.Holds t) (hsize : t.size ≤ depth) :
    lowerEffect s Γ depth t.id = sure (ThreeAddress.lowerEffect Γ t) := by
  induction h generalizing depth with
  | @node n ts has all ih =>
    obtain ⟨depth, rfl⟩ := Tree.depth_eq_succ hsize
    rw [lowerEffect, ThreeAddress.lowerEffect.eq_def]
    simp only [Tree.id_node, labelAt_eq has, pure_bind, operand_eq has]
    cases hk : n.kind with
    | parenthesis =>
      rcases ts with _ | ⟨t, rest⟩
      · rfl
      · exact ih t List.mem_cons_self (Tree.size_le_of_mem hsize List.mem_cons_self)
    | invocation method =>
      have hcall := lowerCall_eq has
        fun t ht => lowerExpr_eq (Γ := Γ) (all t ht) (Tree.size_le_of_mem hsize ht)
      simp only [hcall, sure_bind_pure]
    | _ =>
      have hself : lowerExpr s Γ (depth + 1) none n.id =
          sure (ThreeAddress.lowerExpr Γ none (.node n ts)) :=
        lowerExpr_eq (.node has all) hsize none
      simp only [hself, sure_bind_pure]

section Node

variable (has : s.Has n ts) (all : ∀ t ∈ ts, s.Holds t) (hsize : ∀ t ∈ ts, t.size ≤ depth)

include has all hsize

theorem lowerAssignment_eq (name : String) :
    lowerAssignment s Γ depth n name = sure (ThreeAddress.lowerAssignment Γ n name ts) := by
  rw [lowerAssignment, ThreeAddress.lowerAssignment, operand_eq has]
  rcases ts with _ | ⟨v, rest⟩
  · simp only [List.getElem?_nil, throw_bind, sure_bind]
  · have hv : v ∈ v :: rest := List.mem_cons_self
    simp only [List.getElem?_cons_zero, pure_bind, lowerExpr_eq (all v hv) (hsize v hv)]
    exact (bind_congr fun _ => sure_bind _ _).trans (sure_bind _ _)

theorem lowerArrayAssignment_eq (name : String) :
    lowerArrayAssignment s Γ depth n name =
      sure (ThreeAddress.lowerArrayAssignment Γ n name ts) := by
  have hlower : ∀ t ∈ ts, ∀ expected,
      lowerExpr s Γ depth expected t.id = sure (ThreeAddress.lowerExpr Γ expected t) :=
    fun t ht => lowerExpr_eq (all t ht) (hsize t ht)
  rw [lowerArrayAssignment, ThreeAddress.lowerArrayAssignment, operand_eq has, operand_eq has]
  rcases ts with _ | ⟨i, _ | ⟨v, rest⟩⟩
  · simp only [List.getElem?_nil, throw_bind, sure_bind]
  · simp [hlower, throw_bind, sure_bind]
  · have hv : v ∈ i :: v :: rest := List.mem_cons_of_mem i List.mem_cons_self
    simp only [List.getElem?_cons_zero, List.getElem?_cons_succ, pure_bind,
      hlower i List.mem_cons_self, hlower v hv, sure_bind_pure, sure_bind]

theorem lowerReturn_eq :
    lowerReturn s Γ depth n.id = sure (ThreeAddress.lowerReturn Γ ts) := by
  rw [lowerReturn, ThreeAddress.lowerReturn.eq_def, childrenAt_eq has, pure_bind]
  rcases ts with _ | ⟨v, rest⟩
  · exact pure_eq_sure (m := Lowering) _
  · have hv : v ∈ v :: rest := List.mem_cons_self
    simp only [List.map_cons, List.head?_cons, lowerExpr_eq (all v hv) (hsize v hv),
      sure_bind_pure, sure_bind]

end Node

theorem lowerAll_eq {lower : Nat → ExceptT Abort Lowering (List Instr)}
    (h : ∀ t ∈ ts, lower t.id = sure (ThreeAddress.lowerStatement Γ t)) :
    lowerAll lower (ts.map Tree.id) = sure (ThreeAddress.lowerStatements Γ ts) := by
  induction ts with
  | nil =>
    rw [ThreeAddress.lowerStatements]
    exact pure_eq_sure (m := Lowering) _
  | cons t ts ih =>
    rw [List.map_cons, lowerAll, ThreeAddress.lowerStatements]
    simp only [h t List.mem_cons_self, ih fun u hu => h u (List.mem_cons_of_mem t hu),
      sure_bind_pure, sure_bind]

/-- **Statements are lowered without breaking off.** -/
theorem lowerStatement_eq (h : s.Holds t) (hsize : t.size ≤ depth) :
    lowerStatement s Γ depth t.id = sure (ThreeAddress.lowerStatement Γ t) := by
  induction h generalizing depth with
  | @node n ts has all ih =>
    obtain ⟨depth, rfl⟩ := Tree.depth_eq_succ hsize
    have hle : ∀ t ∈ ts, t.size ≤ depth := fun t ht => Tree.size_le_of_mem hsize ht
    have hchild : ∀ t ∈ ts,
        lowerStatement s Γ depth t.id = sure (ThreeAddress.lowerStatement Γ t) :=
      fun t ht => ih t ht (hle t ht)
    have hcond : ∀ t ∈ ts,
        lowerCondition s Γ depth t.id = sure (ThreeAddress.lowerCondition Γ t) :=
      fun t ht => lowerCondition_eq (all t ht) (hle t ht)
    rw [lowerStatement, ThreeAddress.lowerStatement.eq_def]
    simp only [Tree.id_node, labelAt_eq has, pure_bind, operand_eq has, childrenAt_eq has]
    cases hk : n.kind with
    | returnType _ | argument _ _ | localVar _ _ => exact pure_eq_sure (m := Lowering) _
    | block | thenBranch | elseBranch => exact lowerAll_eq hchild
    | conditional =>
      rcases ts with _ | ⟨c, _ | ⟨t, rest⟩⟩
      · simp only [List.getElem?_nil, throw_bind, sure_bind]
      · simp [hcond, throw_bind, sure_bind]
      · have ht : t ∈ c :: t :: rest := List.mem_cons_of_mem c List.mem_cons_self
        simp only [List.getElem?_cons_zero, List.getElem?_cons_succ, List.map_cons, pure_bind,
          hcond c List.mem_cons_self, hchild t ht]
        rcases rest with _ | ⟨e, rest⟩
        · simp only [List.map_nil, List.getElem?_nil, sure_bind_pure, sure_bind]
        · have he : e ∈ c :: t :: e :: rest := by simp
          simp only [List.map_cons, List.getElem?_cons_zero, hchild e he, sure_bind_pure,
            sure_bind]
    | loop =>
      rcases ts with _ | ⟨c, body⟩
      · simp only [List.getElem?_nil, throw_bind, sure_bind]
      · have hbody := lowerAll_eq fun t ht => hchild t (List.mem_cons_of_mem c ht)
        simp only [List.getElem?_cons_zero, pure_bind, hcond c List.mem_cons_self,
          behindFirst_eq has, hbody, sure_bind, sure_bind_pure]
    | expression =>
      rcases ts with _ | ⟨e, rest⟩
      · rfl
      · exact lowerEffect_eq (all e List.mem_cons_self) (hle e List.mem_cons_self)
    | assignment name => exact lowerAssignment_eq has all hle name
    | arrayAssignment name => exact lowerArrayAssignment_eq has all hle name
    | ret => exact lowerReturn_eq has all hle
    | condition =>
      have hself : lowerCondition s Γ (depth + 1) n.id =
          sure (ThreeAddress.lowerCondition Γ (.node n ts)) :=
        lowerCondition_eq (.node has all) hsize
      simp only [hself, sure_bind_pure]
    | _ => exact lowerEffect_eq (.node has all) hsize

/-! ## The class -/

/-- A computation that hands out fresh names, from a state on. -/
def runFrom {α : Type} (x : ExceptT Abort Lowering α) (fresh : Fresh) :
    ExceptT Abort (Except Error) α :=
  ExceptT.mk (x.run.run fresh >>= fun r => pure r.1)

/-- Lowers a method. -/
def lowerMethod (s : Store) (T : ClassTable) (info : MethodInfo) (id : Nat) :
    ExceptT Abort (Except Error) Method := do
  let statements ← childrenAt s id
  let code ← runFrom (lowerAll (lowerStatement s ⟨T, info⟩ s.size) statements)
    { reserved := reservedNames T info }
  sure do
    let result ← ValueType.ofType info.returnType
    let params ← varsOf info.parameters
    let locals ← varsOf info.locals
    return { name := info.name, isStatic := info.isStatic, params, locals, result,
             code := closeBody result code }

/-- Lowers the methods among the members of the class. -/
def lowerMethods (s : Store) (T : ClassTable) :
    List Nat → ExceptT Abort (Except Error) (List Method)
  | [] => return []
  | id :: ids => do
    match (← labelAt s id).kind.methodName? with
    | none => lowerMethods s T ids
    | some name =>
      match T.method? name with
      | none => sure (.error (.malformedTree id (.unknownMethod name)))
      | some info =>
        let m ← lowerMethod s T info id
        let rest ← lowerMethods s T ids
        return m :: rest

/-- Lowers the class. -/
def lowerClass (s : Store) (T : ClassTable) : ExceptT Abort (Except Error) ClassCode := do
  let c ← classOr .error s
  let fields ← sure (varsOf T.fields)
  let methods ← lowerMethods s T (← childrenAt s c)
  return { name := T.className, superclass := T.superclass, imports := T.imports, fields, methods }

theorem runFrom_sure {α : Type} (x : Lowering α) (fresh : Fresh) :
    runFrom (sure x) fresh = sure (x.run fresh >>= fun r => pure r.1) := by
  have hrun : (sure x).run.run fresh = x.run fresh >>= fun r => pure (.ok r.1, r.2) := by
    rw [sure, ExceptT.run_lift, StateT.run_map]
    cases x.run fresh <;> rfl
  rw [runFrom, hrun]
  cases x.run fresh <;> rfl

theorem lowerMethod_eq (h : s.Holds t) (hsize : t.size ≤ s.size) (T : ClassTable)
    (info : MethodInfo) :
    lowerMethod s T info t.id = sure (ThreeAddress.lowerMethod T info t.children) := by
  have hcode := lowerAll_eq (Γ := ⟨T, info⟩) fun u hu => lowerStatement_eq (h.children u hu)
    (Nat.le_trans (Tree.size_le_of_mem_children hu) hsize)
  rw [lowerMethod, childrenAt_id h, pure_bind, hcode, runFrom_sure, sure_bind,
    ThreeAddress.lowerMethod, bind_assoc]
  rfl

theorem lowerMethods_eq (all : ∀ t ∈ ts, s.Holds t) (hsize : ∀ t ∈ ts, t.size ≤ s.size)
    (T : ClassTable) :
    lowerMethods s T (ts.map Tree.id) = sure (ThreeAddress.lowerMethods T ts) := by
  induction ts with
  | nil => exact pure_eq_sure (m := Except Error) []
  | cons t ts ih =>
    have ht : t ∈ t :: ts := List.mem_cons_self
    have ih := ih (fun u hu => all u (List.mem_cons_of_mem t hu))
      fun u hu => hsize u (List.mem_cons_of_mem t hu)
    rw [List.map_cons, lowerMethods, ThreeAddress.lowerMethods, labelAt_id (all t ht), pure_bind,
      show t.label.kind = t.kind from rfl]
    cases t.kind.methodName? with
    | none => exact ih
    | some name =>
      dsimp only
      cases T.method? name with
      | none => rfl
      | some info =>
        simp only [lowerMethod_eq (all t ht) (hsize t ht), ih, sure_bind_pure, sure_bind]

/-- **A class is lowered without breaking off**, whether its program was accepted or not. -/
theorem lowerClass_eq (h : s.Holds t) (hroot : t.id = Store.root) (hsize : t.size ≤ s.size)
    (T : ClassTable) : lowerClass s T = sure (ThreeAddress.lowerClass T t) := by
  rw [lowerClass, classOr_eq h hroot, ThreeAddress.lowerClass]
  cases hc : t.classTree with
  | error e => rfl
  | ok c =>
    obtain ⟨hholds, hle⟩ := h.classTree hc
    have hmethods := lowerMethods_eq hholds.children
      (fun u hu => Nat.le_trans (Nat.le_trans (Tree.size_le_of_mem_children hu) hle) hsize) T
    simp only [pure_bind, childrenAt_id hholds, hmethods, sure_bind_pure, sure_bind]
    rfl

end OnStore
end ClassCompiler
