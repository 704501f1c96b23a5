import ClassCompiler.Compilation
import ClassCompiler.Proofs.OnStore.Reading

/-!
# Checking a tree where it is stored

The declarations and the types of a class, read off the nodes of a store.  What is done with what
was read, the rules of typing and the table, is shared by both forms.

* `classTable_eq`, `infer_eq`, `checkStatement_eq`, `check_eq`: where the store has the tree, this
  form does not break off and gives what the form on trees gives.
-/

namespace ClassCompiler

namespace Checked

theorem bind_assoc {α β γ : Type} (x : Checked α) (f : α → Checked β) (g : β → Checked γ) :
    (x >>= f) >>= g = x >>= fun a => f a >>= g := by
  obtain ⟨ds, e | a⟩ := x
  · rfl
  · show Checked.bind (Checked.bind ⟨ds, .ok a⟩ f) g = Checked.bind ⟨ds, .ok a⟩ _
    simp only [Checked.bind]
    show _ = (⟨ds ++ (Checked.bind (f a) g).diagnostics, (Checked.bind (f a) g).outcome⟩ :
      Checked γ)
    simp only [Checked.bind]
    cases (f a).outcome with
    | error e => rfl
    | ok b => simp only [List.append_assoc]

instance : LawfulMonad Checked := by
  refine LawfulMonad.mk' Checked ?_ ?_ ?_
  · intro α x
    obtain ⟨ds, e | a⟩ := x
    · rfl
    · show (⟨ds ++ [], .ok a⟩ : Checked α) = ⟨ds, .ok a⟩
      rw [List.append_nil]
  · intro α β a f
    rfl
  · intro α β γ x f g
    exact bind_assoc x f g

end Checked

namespace OnStore

open Typing (Context)

variable {s : Store} {Γ : Context} {depth : Nat} {n : Numbered} {t : Ast} {ts : List Ast}

/-- A child that must be there. -/
def child (s : Store) (id index : Nat) (expected : String) : ExceptT Abort Checked Nat :=
  childOr Checked.fail s id index expected

theorem child_eq (h : s.Has n ts) (index : Nat) (expected : String) :
    child s n.id index expected =
      match ts[index]? with
      | some t => pure t.id
      | none => sure (Checked.fail (.missing n index expected)) :=
  childOr_eq h _ index expected

theorem fail_bind {α β : Type} (e : Error) (f : α → ExceptT Abort Checked β) :
    (sure (Checked.fail e) >>= f) = sure (Checked.fail e) := rfl

/-! ## Declarations -/

/-- The first of some nodes whose kind passes a test. -/
def findAt (s : Store) (test : Kind → Bool) : List Nat → ExceptT Abort Checked (Option Nat)
  | [] => return none
  | id :: ids => do
    if test (← labelAt s id).kind then return some id else findAt s test ids

/-- The kind of a return type. -/
def isReturnType : Kind → Bool
  | .returnType _ => true
  | _ => false

/-- The first return type among the children of a method.  What was found is looked at again. -/
def returnTypeAt (s : Store) (id : Nat) : ExceptT Abort Checked (Option TypeName) := do
  match ← findAt s isReturnType (← childrenAt s id) with
  | none => return none
  | some found =>
    match (← labelAt s found).kind with
    | .returnType type => return some type
    | _ => abort .ruledOut

/-- The table with one more member of the class. -/
def addMember (s : Store) (T : ClassTable) (id : Nat) : ExceptT Abort Checked ClassTable := do
  let member ← surfaceAt s id
  match member.kind with
  | .method name _ =>
    match ← returnTypeAt s id with
    | none => sure (Checked.fail (.malformedTree id (.noReturnType name)))
    | some type => sure do
      let info ← ClassTable.declareMethod name (.ofDeclared type) false [] member.children
      T.addMethod member.label info
  | _ => sure (T.addMember member)

/-- The table of the class. -/
def classTable (s : Store) : ExceptT Abort Checked ClassTable := do
  let root ← surfaceAt s Store.root
  let c ← classOr Checked.fail s
  let header := ClassTable.ofHeader root.imports (← labelAt s c).kind
  (← childrenAt s c).foldlM (addMember s) header

theorem findAt_eq (all : ∀ t ∈ ts, s.Holds t) (test : Kind → Bool) :
    findAt s test (ts.map Tree.id) = pure ((ts.find? fun t => test t.kind).map Tree.id) := by
  induction ts with
  | nil => rfl
  | cons t ts ih =>
    rw [List.map_cons, findAt, labelAt_id (all t List.mem_cons_self), pure_bind,
      ih fun u hu => all u (List.mem_cons_of_mem t hu), List.find?_cons]
    show (if test t.kind then _ else _) = _
    cases test t.kind <;> rfl

theorem returnType?_eq_none (h : (ts.find? fun t => isReturnType t.kind) = none) :
    Tree.returnType? ts = none := by
  rw [Tree.returnType?, List.findSome?_eq_none_iff]
  intro t ht
  have hnot := List.find?_eq_none.mp h t ht
  cases hk : t.kind <;> simp_all [isReturnType]

theorem returnType?_eq_some (h : (ts.find? fun t => isReturnType t.kind) = some t) :
    ∃ type, t.kind = .returnType type ∧ Tree.returnType? ts = some type := by
  induction ts with
  | nil => cases h
  | cons u ts ih =>
    rw [Tree.returnType?, List.findSome?_cons]
    rw [List.find?_cons] at h
    cases hk : u.kind with
    | returnType type =>
      rw [hk] at h
      obtain rfl : u = t := Option.some.inj h
      exact ⟨type, hk, rfl⟩
    | _ =>
      rw [hk] at h
      exact ih h

/-- What was found is a return type when it is looked at again. -/
theorem returnTypeAt_eq (h : s.Holds t) :
    returnTypeAt s t.id = pure (Tree.returnType? t.children) := by
  rw [returnTypeAt, childrenAt_id h]
  simp only [pure_bind, findAt_eq h.children]
  cases hfind : t.children.find? fun t => isReturnType t.kind with
  | none =>
    rw [returnType?_eq_none hfind]
    rfl
  | some found =>
    obtain ⟨type, hkind, hsome⟩ := returnType?_eq_some hfind
    rw [hsome]
    show (labelAt s found.id >>= _) = _
    rw [labelAt_id (h.children found (List.mem_of_find?_eq_some hfind)), pure_bind,
      show found.label.kind = _ from hkind]

theorem declareFrame_leaf (method : String) (parameters locals : List Symbol) (ts : List Ast) :
    ClassTable.declareFrame method parameters locals (ts.map Tree.leaf) =
      ClassTable.declareFrame method parameters locals ts := by
  induction ts generalizing parameters locals with
  | nil => rfl
  | cons t ts ih =>
    simp only [List.map_cons, ClassTable.declareFrame, Tree.kind_leaf, Tree.label_leaf, ih]

theorem declareMethod_leaf (name : String) (type : Ty) (isStatic : Bool)
    (parameters : List Symbol) (ts : List Ast) :
    ClassTable.declareMethod name type isStatic parameters (ts.map Tree.leaf) =
      ClassTable.declareMethod name type isStatic parameters ts := by
  simp only [ClassTable.declareMethod, declareFrame_leaf]

theorem addMember_eq (h : s.Holds t) (T : ClassTable) :
    addMember s T t.id = sure (T.addMember t) := by
  rw [addMember, surfaceAt_eq h, pure_bind]
  cases hk : t.kind with
  | method name _ =>
    simp only [Tree.kind_surface, Tree.children_surface, Tree.label_surface, hk, returnTypeAt_eq h,
      pure_bind, declareMethod_leaf, ClassTable.addMember]
    cases Tree.returnType? t.children <;> rfl
  | _ =>
    simp only [Tree.kind_surface, Tree.children_surface, Tree.label_surface, Tree.id_surface, hk,
      declareMethod_leaf, ClassTable.addMember]

theorem foldlM_addMember (all : ∀ t ∈ ts, s.Holds t) (T : ClassTable) :
    (ts.map Tree.id).foldlM (addMember s) T = sure (T.addMembers ts) := by
  induction ts generalizing T with
  | nil => exact pure_eq_sure T
  | cons t ts ih =>
    rw [List.map_cons, List.foldlM_cons, addMember_eq (all t List.mem_cons_self),
      ClassTable.addMembers]
    simp only [ih fun u hu => all u (List.mem_cons_of_mem t hu), sure_bind]

theorem imports_surface (t : Ast) : t.surface.imports = t.imports := by
  rw [Tree.imports, Tree.imports, Tree.kind_surface, Tree.children_surface, List.filterMap_map]
  rfl

/-- **The declarations of a class are collected without breaking off.** -/
theorem classTable_eq (h : s.Holds t) (hroot : t.id = Store.root) :
    classTable s = sure (ClassTable.ofTree t) := by
  have hsurface : (surfaceAt s Store.root : ExceptT Abort Checked Ast) = pure t.surface := by
    rw [← hroot, surfaceAt_eq h]
  rw [classTable, hsurface, pure_bind, classOr_eq h hroot, ClassTable.ofTree]
  cases hc : t.classTree with
  | error e => rfl
  | ok c =>
    have hholds := (h.classTree hc).1
    dsimp only
    rw [pure_bind, labelAt_id hholds, pure_bind, childrenAt_id hholds, pure_bind,
      foldlM_addMember hholds.children, imports_surface]
    rfl

/-! ## Expressions -/

/-- A call, however many parentheses stand around it. -/
def isCall (s : Store) : Nat → Nat → ExceptT Abort Checked Bool
  | 0, _ => abort .endless
  | depth + 1, id => do
    match (← labelAt s id).kind with
    | .invocation _ => return true
    | .parenthesis =>
      match (← childrenAt s id).head? with
      | none => return false
      | some t => isCall s depth t
    | _ => return false

/-- The bare name of the class itself, not a value of its type. -/
def namesOwnClass (s : Store) (Γ : Context) : Nat → Nat → ExceptT Abort Checked Bool
  | 0, _ => abort .endless
  | depth + 1, id => do
    match (← labelAt s id).kind with
    | .parenthesis =>
      match (← childrenAt s id).head? with
      | none => return false
      | some t => namesOwnClass s Γ depth t
    | _ => return Typing.namesOwnClass Γ (← leafAt s id)

/-- The type of an expression, if it has one. -/
def infer (s : Store) (Γ : Context) : Nat → Nat → ExceptT Abort Checked (Option Ty)
  | 0, _ => abort .endless
  | depth + 1, id => do
    let n ← labelAt s id
    match n.kind with
    | .parenthesis => infer s Γ depth (← child s id 0 "inner expression")
    | .binary op =>
      let left ← infer s Γ depth (← child s id 0 "left operand")
      let right ← infer s Γ depth (← child s id 1 "right operand")
      sure (Typing.inferBinary n op left right)
    | .negation =>
      let operand ← infer s Γ depth (← child s id 0 "operand")
      sure (Typing.inferUnary n Ty.isBoolean .boolean .negatedNonBoolean operand)
    | .arrayAccess =>
      let base ← infer s Γ depth (← child s id 0 "array")
      let index ← infer s Γ depth (← child s id 1 "index")
      sure (Typing.inferAccess n base index)
    | .arrayLength =>
      let array ← infer s Γ depth (← child s id 0 "array")
      sure (Typing.inferUnary n Ty.isArray .int .lengthOfNonArray array)
    | .newArray =>
      let length ← infer s Γ depth (← child s id 0 "length")
      sure (Typing.inferUnary n Ty.isInt .intArray .sizeNotInt length)
    | .invocation method =>
      let t ← child s id 0 "invocation target"
      let target ← infer s Γ depth t
      let args ← behindFirst s id
      args.forM fun arg => do let _ ← infer s Γ depth arg
      let byName ← namesOwnClass s Γ depth t
      sure <| match target with
        | none => return none
        | some target => Typing.inferCall Γ n method target byName args.length
    | kind => sure (Typing.inferLeaf Γ n kind)

theorem isCall_eq (h : s.Holds t) (hsize : t.size ≤ depth) :
    isCall s depth t.id = pure (Typing.isCall t) := by
  induction h generalizing depth with
  | @node n ts has all ih =>
    obtain ⟨depth, rfl⟩ := Tree.depth_eq_succ hsize
    rw [isCall, Typing.isCall.eq_def]
    simp only [Tree.id_node, labelAt_eq has, childrenAt_eq has, pure_bind]
    cases hk : n.kind with
    | parenthesis =>
      cases ts with
      | nil => rfl
      | cons t ts => exact ih t List.mem_cons_self (Tree.size_le_of_mem hsize List.mem_cons_self)
    | _ => rfl

theorem namesOwnClass_eq (h : s.Holds t) (hsize : t.size ≤ depth) :
    namesOwnClass s Γ depth t.id = pure (Typing.namesOwnClass Γ t) := by
  induction h generalizing depth with
  | @node n ts has all ih =>
    obtain ⟨depth, rfl⟩ := Tree.depth_eq_succ hsize
    rw [namesOwnClass, leafAt_eq (.node has all), Typing.namesOwnClass.eq_def Γ (.node n ts)]
    simp only [Tree.id_node, labelAt_eq has, childrenAt_eq has, pure_bind]
    cases hk : n.kind with
    | parenthesis =>
      cases ts with
      | nil => rfl
      | cons t ts => exact ih t List.mem_cons_self (Tree.size_le_of_mem hsize List.mem_cons_self)
    | _ => simp only [Tree.leaf, Tree.label, Typing.namesOwnClass.eq_def, hk]

theorem inferArgs_eq_forM (Γ : Context) (ts : List Ast) :
    Typing.inferArgs Γ ts = ts.forM (fun t => do let _ ← Typing.infer Γ t) := by
  induction ts with
  | nil =>
    rw [Typing.inferArgs]
    rfl
  | cons t ts ih =>
    rw [Typing.inferArgs, ih, List.forM_eq_forM, List.forM_cons, bind_assoc]
    simp only [pure_bind]

/-- **The types of expressions are found without breaking off.**  The children behind the target of
a call are asked for once the target was there. -/
theorem infer_eq (h : s.Holds t) (hsize : t.size ≤ depth) :
    infer s Γ depth t.id = sure (Typing.infer Γ t) := by
  induction h generalizing depth with
  | @node n ts has all ih =>
    obtain ⟨depth, rfl⟩ := Tree.depth_eq_succ hsize
    have hchild : ∀ t ∈ ts, infer s Γ depth t.id = sure (Typing.infer Γ t) :=
      fun t ht => ih t ht (Tree.size_le_of_mem hsize ht)
    rw [infer, Typing.infer.eq_def]
    simp only [Tree.id_node, labelAt_eq has, pure_bind, child_eq has]
    cases hk : n.kind with
    | parenthesis =>
      rcases ts with _ | ⟨t, rest⟩
      · rfl
      · exact hchild t List.mem_cons_self
    | binary _ | arrayAccess =>
      rcases ts with _ | ⟨a, _ | ⟨b, rest⟩⟩
      · rfl
      · simp [hchild, fail_bind, sure_bind]
      · simp [hchild, sure_bind]
    | negation | arrayLength | newArray =>
      rcases ts with _ | ⟨t, rest⟩
      · rfl
      · simp [hchild, sure_bind]
    | invocation method =>
      rcases ts with _ | ⟨t, args⟩
      · rfl
      · have hargs : ((args.map Tree.id).forM fun arg => do let _ ← infer s Γ depth arg) =
            sure (Typing.inferArgs Γ args) := by
          rw [inferArgs_eq_forM]
          refine forM_eq_sure fun arg harg => ?_
          rw [hchild arg (List.mem_cons_of_mem t harg), sure_bind_pure]
        have hnames : namesOwnClass s Γ depth t.id = pure (Typing.namesOwnClass Γ t) :=
          namesOwnClass_eq (all t List.mem_cons_self)
            (Tree.size_le_of_mem hsize List.mem_cons_self)
        simp only [List.getElem?_cons_zero, pure_bind, hchild t List.mem_cons_self,
          behindFirst_eq has, hargs, hnames, List.length_map]
        exact (bind_congr fun _ => sure_bind _ _).trans (sure_bind _ _)
    | _ => rfl

/-! ## Statements -/

/-- A condition, or an expression in its place. -/
def checkCondition (s : Store) (Γ : Context) (depth id : Nat) : ExceptT Abort Checked Unit := do
  let guard ← match (← labelAt s id).kind with
    | .condition => child s id 0 "guard expression"
    | _ => pure id
  let n ← labelAt s guard
  let type ← infer s Γ depth guard
  sure <| match type with
    | some type =>
      if type.isBoolean then return () else Checked.report n (.conditionNotBoolean type)
    | none => return ()

/-- The value is checked before the place it goes to. -/
def checkAssignment (s : Store) (Γ : Context) (depth : Nat) (n : Numbered) (name : String) :
    ExceptT Abort Checked Unit := do
  let v ← child s n.id 0 "value"
  let value ← infer s Γ depth v
  let call ← isCall s depth v
  sure do
    match ← Γ.target? n name, value with
    | some target, some value =>
      if Γ.assignable target value call then return ()
      else Checked.report n (.unassignable value name target)
    | _, _ => return ()

/-- Index and value are checked before the array. -/
def checkArrayAssignment (s : Store) (Γ : Context) (depth : Nat) (n : Numbered) (name : String) :
    ExceptT Abort Checked Unit := do
  let index ← infer s Γ depth (← child s n.id 0 "index")
  let value ← infer s Γ depth (← child s n.id 1 "value")
  sure do
    match ← Γ.target? n name with
    | some target =>
      if !target.isIntArray then Checked.report n (.notAnIntArray name target)
    | none => pure ()
    Typing.checkInt n .indexNotInt index
    Typing.checkInt n .elementNotInt value

/-- A method gives back what it declares. -/
def checkReturn (s : Store) (Γ : Context) (depth : Nat) (n : Numbered) :
    ExceptT Abort Checked Unit := do
  match Γ.method with
  | none => return ()
  | some m =>
    match (← childrenAt s n.id).head? with
    | none => sure (Typing.checkReturn Γ n [])
    | some v =>
      let value ← infer s Γ depth v
      let call ← isCall s depth v
      sure <|
        if m.returnType.isVoid then Checked.report n (.valueFromVoid m.name)
        else
          match value with
          | some value =>
            if Γ.assignable m.returnType value call then return ()
            else Checked.report n (.wrongReturn m.returnType value)
          | none => return ()

/-- Checks a statement. -/
def checkStatement (s : Store) (Γ : Context) : Nat → Nat → ExceptT Abort Checked Unit
  | 0, _ => abort .endless
  | depth + 1, id => do
    let n ← labelAt s id
    match n.kind with
    | .returnType type => sure (Γ.checkDeclared n type)
    | .argument _ type => sure (Γ.checkDeclared n type)
    | .localVar _ type => sure (Γ.checkDeclared n type)
    | .block => (← childrenAt s id).forM (checkStatement s Γ depth)
    | .thenBranch => (← childrenAt s id).forM (checkStatement s Γ depth)
    | .elseBranch => (← childrenAt s id).forM (checkStatement s Γ depth)
    | .conditional =>
      checkCondition s Γ depth (← child s id 0 "condition")
      checkStatement s Γ depth (← child s id 1 "then branch")
      match (← childrenAt s id)[2]? with
      | none => return ()
      | some e => checkStatement s Γ depth e
    | .loop =>
      checkCondition s Γ depth (← child s id 0 "condition")
      (← behindFirst s id).forM (checkStatement s Γ depth)
    | .condition => checkCondition s Γ (depth + 1) id
    | .expression =>
      let _ ← infer s Γ depth (← child s id 0 "expression")
    | .assignment name => checkAssignment s Γ depth n name
    | .arrayAssignment name => checkArrayAssignment s Γ depth n name
    | .ret => checkReturn s Γ depth n
    | _ =>
      let _ ← infer s Γ (depth + 1) id

theorem checkCondition_eq (h : s.Holds t) (hsize : t.size ≤ depth) :
    checkCondition s Γ depth t.id = sure (Typing.checkCondition Γ t) := by
  have hguard : ∀ g : Ast, s.Holds g → g.size ≤ depth → (do
      let n ← labelAt s g.id
      let type ← infer s Γ depth g.id
      sure <| match type with
        | some type =>
          if type.isBoolean then return () else Checked.report n (.conditionNotBoolean type)
        | none => return ()) = sure (Typing.checkGuard Γ g) := by
    intro g hg hsize
    rw [labelAt_id hg, infer_eq hg hsize, pure_bind, sure_bind]
    rfl
  cases h with
  | @node n ts has all =>
    rw [checkCondition, Typing.checkCondition.eq_def, Tree.id_node, labelAt_eq has, pure_bind]
    cases hk : n.kind with
    | condition =>
      rcases ts with _ | ⟨g, rest⟩
      · simp only [hk, child_eq has, List.getElem?_nil, fail_bind]
      · simp only [hk, child_eq has, List.getElem?_cons_zero, pure_bind]
        have hg : g ∈ g :: rest := List.mem_cons_self
        exact hguard g (all g hg) (Nat.le_trans (Nat.le_succ_of_le (Tree.size_le_sizeAll hg)) hsize)
    | _ =>
      simp only [hk, pure_bind]
      exact hguard (.node n ts) (.node has all) hsize

section Node

variable (has : s.Has n ts) (all : ∀ t ∈ ts, s.Holds t) (hsize : ∀ t ∈ ts, t.size ≤ depth)

include has all hsize

theorem checkAssignment_eq (name : String) :
    checkAssignment s Γ depth n name = sure (Typing.checkAssignment Γ n name ts) := by
  rw [checkAssignment, child_eq has]
  rcases ts with _ | ⟨v, rest⟩
  · rfl
  · have hv : v ∈ v :: rest := List.mem_cons_self
    simp only [List.getElem?_cons_zero, pure_bind, infer_eq (all v hv) (hsize v hv),
      isCall_eq (all v hv) (hsize v hv), sure_bind]
    rfl

theorem checkArrayAssignment_eq (name : String) :
    checkArrayAssignment s Γ depth n name = sure (Typing.checkArrayAssignment Γ n name ts) := by
  have hinfer : ∀ t ∈ ts, infer s Γ depth t.id = sure (Typing.infer Γ t) :=
    fun t ht => infer_eq (all t ht) (hsize t ht)
  rw [checkArrayAssignment, child_eq has, child_eq has]
  rcases ts with _ | ⟨i, _ | ⟨v, rest⟩⟩
  · rfl
  · simp [hinfer, fail_bind, sure_bind, Typing.checkArrayAssignment]
  · have hv : v ∈ i :: v :: rest := List.mem_cons_of_mem i List.mem_cons_self
    simp only [List.getElem?_cons_zero, List.getElem?_cons_succ, pure_bind,
      hinfer i List.mem_cons_self, hinfer v hv, sure_bind]
    rfl

theorem checkReturn_eq : checkReturn s Γ depth n = sure (Typing.checkReturn Γ n ts) := by
  rw [checkReturn]
  cases hm : Γ.method with
  | none =>
    dsimp only
    rw [Typing.checkReturn, hm]
    exact pure_eq_sure (m := Checked) ()
  | some m =>
    simp only [childrenAt_eq has, pure_bind]
    rcases ts with _ | ⟨v, rest⟩
    · rfl
    · have hv : v ∈ v :: rest := List.mem_cons_self
      simp only [List.map_cons, List.head?_cons, infer_eq (all v hv) (hsize v hv),
        isCall_eq (all v hv) (hsize v hv), pure_bind]
      rw [Typing.checkReturn, hm]
      exact sure_bind _ _

end Node

theorem checkStatements_eq_forM (Γ : Context) (ts : List Ast) :
    Typing.checkStatements Γ ts = ts.forM (Typing.checkStatement Γ) := by
  induction ts with
  | nil =>
    rw [Typing.checkStatements]
    rfl
  | cons t ts ih => rw [Typing.checkStatements, ih, List.forM_eq_forM, List.forM_cons]

/-- **Statements are checked without breaking off.**  The children behind the condition of a loop
are asked for once the condition was there. -/
theorem checkStatement_eq (h : s.Holds t) (hsize : t.size ≤ depth) :
    checkStatement s Γ depth t.id = sure (Typing.checkStatement Γ t) := by
  induction h generalizing depth with
  | @node n ts has all ih =>
    obtain ⟨depth, rfl⟩ := Tree.depth_eq_succ hsize
    have hle : ∀ t ∈ ts, t.size ≤ depth := fun t ht => Tree.size_le_of_mem hsize ht
    have hchild : ∀ t ∈ ts, checkStatement s Γ depth t.id = sure (Typing.checkStatement Γ t) :=
      fun t ht => ih t ht (hle t ht)
    have hcond : ∀ t ∈ ts, checkCondition s Γ depth t.id = sure (Typing.checkCondition Γ t) :=
      fun t ht => checkCondition_eq (all t ht) (hle t ht)
    rw [checkStatement, Typing.checkStatement.eq_def]
    simp only [Tree.id_node, labelAt_eq has, pure_bind, child_eq has, childrenAt_eq has]
    cases hk : n.kind with
    | returnType _ | argument _ _ | localVar _ _ => rfl
    | block | thenBranch | elseBranch =>
      dsimp only
      rw [checkStatements_eq_forM]
      exact forM_eq_sure hchild
    | conditional =>
      rcases ts with _ | ⟨c, _ | ⟨t, _ | ⟨e, rest⟩⟩⟩
      · rfl
      · simp [hcond, fail_bind, sure_bind]
      · simp [hcond, hchild, sure_bind]
      · simp [hcond, hchild, sure_bind]
    | loop =>
      rcases ts with _ | ⟨c, body⟩
      · rfl
      · have hbody := forM_eq_sure fun t ht => hchild t (List.mem_cons_of_mem c ht)
        simp only [List.getElem?_cons_zero, pure_bind, hcond c List.mem_cons_self,
          behindFirst_eq has, hbody, sure_bind, checkStatements_eq_forM]
    | condition => exact checkCondition_eq (.node has all) hsize
    | expression =>
      rcases ts with _ | ⟨e, rest⟩
      · rfl
      · have he : e ∈ e :: rest := List.mem_cons_self
        simp only [List.getElem?_cons_zero, pure_bind, infer_eq (all e he) (hle e he),
          sure_bind_pure]
    | assignment name => exact checkAssignment_eq has all hle name
    | arrayAssignment name => exact checkArrayAssignment_eq has all hle name
    | ret => exact checkReturn_eq has all hle
    | _ =>
      have hself : infer s Γ (depth + 1) n.id = sure (Typing.infer Γ (.node n ts)) :=
        infer_eq (.node has all) hsize
      simp only [hself, sure_bind_pure]

/-! ## The class -/

/-- Checks a method among the members of the class. -/
def checkMethod (s : Store) (T : ClassTable) (id : Nat) : ExceptT Abort Checked Unit := do
  match (← labelAt s id).kind.methodName? with
  | none => return ()
  | some name =>
    match T.method? name with
    | none => return ()
    | some info =>
      (← childrenAt s id).forM (checkStatement s (Typing.contextOf T name info) s.size)

/-- Checks the class: the types of its fields, then its methods. -/
def checkClass (s : Store) (T : ClassTable) : ExceptT Abort Checked Unit := do
  let members ← childrenAt s (← classOr Checked.fail s)
  sure (Typing.checkFields T (← members.mapM (leafAt s)))
  members.forM (checkMethod s T)

/-- Collects the declarations and checks every method. -/
def check (s : Store) : ExceptT Abort Checked ClassTable := do
  let table ← classTable s
  checkClass s table
  return table

theorem checkFields_leaf (T : ClassTable) (ts : List Ast) :
    Typing.checkFields T (ts.map Tree.leaf) = Typing.checkFields T ts := by
  induction ts with
  | nil => rfl
  | cons t ts ih =>
    simp only [List.map_cons, Typing.checkFields, Tree.kind_leaf, Tree.label_leaf, ih]

/-- The check of one member of a class. -/
def memberCheck (T : ClassTable) (t : Ast) : Checked Unit :=
  match t.kind.methodName? with
  | none => return ()
  | some name =>
    match T.method? name with
    | none => return ()
    | some info => Typing.checkStatements (Typing.contextOf T name info) t.children

theorem checkMethods_eq_forM (T : ClassTable) (ts : List Ast) :
    Typing.checkMethods T ts = ts.forM (memberCheck T) := by
  induction ts with
  | nil => rfl
  | cons t ts ih =>
    rw [Typing.checkMethods, ih, List.forM_eq_forM, List.forM_cons, memberCheck]
    cases t.kind.methodName? with
    | none => rfl
    | some name =>
      dsimp only
      cases T.method? name <;> rfl

theorem checkMethod_eq (h : s.Holds t) (hsize : t.size ≤ s.size) (T : ClassTable) :
    checkMethod s T t.id = sure (memberCheck T t) := by
  rw [checkMethod, labelAt_id h, pure_bind, memberCheck, show t.label.kind = t.kind from rfl]
  cases t.kind.methodName? with
  | none => exact pure_eq_sure (m := Checked) ()
  | some name =>
    dsimp only
    cases T.method? name with
    | none => exact pure_eq_sure (m := Checked) ()
    | some info =>
      dsimp only
      rw [childrenAt_id h, pure_bind, checkStatements_eq_forM]
      exact forM_eq_sure fun u hu => checkStatement_eq (h.children u hu)
        (Nat.le_trans (Tree.size_le_of_mem_children hu) hsize)

theorem checkClass_eq (h : s.Holds t) (hroot : t.id = Store.root) (hsize : t.size ≤ s.size)
    (T : ClassTable) : checkClass s T = sure (Typing.checkClass T t) := by
  rw [checkClass, classOr_eq h hroot, Typing.checkClass]
  cases hc : t.classTree with
  | error e => rfl
  | ok c =>
    obtain ⟨hholds, hle⟩ := h.classTree hc
    have hmethods := forM_eq_sure fun u hu => checkMethod_eq (hholds.children u hu)
      (Nat.le_trans (Nat.le_trans (Tree.size_le_of_mem_children hu) hle) hsize) T
    simp only [pure_bind, childrenAt_id hholds, mapM_leafAt_eq hholds.children, checkFields_leaf,
      hmethods, sure_bind, ← checkMethods_eq_forM]
    rfl

/-- **A program is checked without breaking off.** -/
theorem check_eq (h : s.Holds t) (hroot : t.id = Store.root) (hsize : t.size ≤ s.size)
    (next : Nat) : check s = sure (Program.check ⟨t, next⟩) := by
  rw [check, classTable_eq h hroot, Program.check]
  simp only [checkClass_eq h hroot hsize, sure_bind, pure_eq_sure]

end OnStore
end ClassCompiler
