import ClassCompiler.Proofs.ThreeAddress.Method
import ClassCompiler.Proofs.ThreeAddress.Succeed

/-!
# Lowered code is well typed

The checker knows the type of every expression of a class that refers to no other class, but for
one: the methods of strings are not declared anywhere, and the checker takes their result to be a
string.  Lowering gives such a result the type that its place expects.  Where the checker asks for
an integer, a truth value or an array, a string is refused, so nothing is expected there but what
the checker found; where it asks for a string, a string is expected.

* `Instr.WellTyped`: an instruction agrees with the types of its operands.
* `assignable_ofType`: what may be assigned has the type of its place.
* `lowerExpr_wellTyped`, `lowerStatement_wellTyped`: along the cases of what is accepted.
* `lowerClass_wellTyped`: every method of an accepted class.
-/

namespace ClassCompiler

open ThreeAddress Checked Typing

/-! ## Classes that stand alone -/

/-- A class that refers to no other class, and is not called like a built-in type. -/
structure ClassTable.StandsAlone (T : ClassTable) : Prop where
  imports : T.imports = []
  superclass : T.superclass = none
  className : T.className ∉ ["int", "boolean", "void", "String"]

/-- A type that a class which stands alone can come by: built in, or the class itself. -/
structure ClassTable.Knows (T : ClassTable) (type : Ty) : Prop where
  name : type.isBuiltin = true ∨ type.name = T.className ∧ type.isArray = false
  origin : type.origin ∉ [.extension, .imported]
  this : type.origin = .this → type.name = T.className ∧ type.isArray = false

namespace ClassTable

variable {T : ClassTable}

theorem Knows.builtin {type : Ty} (h : type.isBuiltin = true)
    (horigin : type.origin ∉ [.extension, .imported, .this]) : T.Knows type := by
  refine ⟨.inl h, ?_, ?_⟩
  · intro hmem
    exact horigin (by simp at hmem ⊢; tauto)
  · intro hthis
    exact absurd (by simp [hthis]) horigin

theorem Knows.own {origin : Origin} (h : origin ∉ [.extension, .imported]) :
    T.Knows ⟨T.className, false, origin⟩ :=
  ⟨.inr ⟨rfl, rfl⟩, h, fun _ => ⟨rfl, rfl⟩⟩

namespace StandsAlone

theorem isSuperclass (hT : T.StandsAlone) (name : String) : T.isSuperclass name = false := by
  rw [ClassTable.isSuperclass, hT.superclass]
  rfl

theorem isImport (hT : T.StandsAlone) (name : String) : T.isImport name = false := by
  rw [ClassTable.isImport, importPath?, hT.imports]
  rfl

theorem tagOrigin (hT : T.StandsAlone) (type : Ty) : T.tagOrigin type = type := by
  unfold ClassTable.tagOrigin
  rw [hT.isSuperclass, hT.isImport]
  simp

/-- The only class that is visible is the class itself. -/
theorem classReference? (hT : T.StandsAlone) {name : String} {type : Ty}
    (h : T.classReference? name = some type) : name = T.className ∧ type = ⟨name, false, .object⟩ := by
  unfold ClassTable.classReference? at h
  rw [hT.isSuperclass, hT.isImport] at h
  by_cases hname : name = T.className
  · simp only [Bool.false_eq_true, if_false, if_pos hname, Option.some.injEq] at h
    exact ⟨hname, h.symm⟩
  · simp [hname] at h

theorem knows_classReference? (hT : T.StandsAlone) {name : String} {type : Ty}
    (h : T.classReference? name = some type) : T.Knows type := by
  obtain ⟨rfl, rfl⟩ := hT.classReference? h
  exact .own (by decide)

/-- A type that may be declared. -/
theorem knows_declared {Γ : Context} (hT : Γ.table.StandsAlone) {n : Numbered} {type : TypeName}
    (h : (Γ.checkDeclared n type).Gives ()) : Γ.table.Knows (.ofDeclared type) := by
  have horigin : (Ty.ofDeclared type).origin ∉ [.extension, .imported, .this] := by
    unfold Ty.ofDeclared
    dsimp only
    split <;> decide
  unfold Context.checkDeclared at h
  split at h
  · rename_i hname
    refine .builtin ?_ horigin
    rcases hname with hname | hname <;> simp [Ty.isBuiltin, Ty.ofDeclared, hname]
  · split at h
    · exact absurd h (not_report_gives rfl)
    · rename_i harray
      split at h
      · rename_i hname
        refine .builtin ?_ horigin
        rcases hname with hname | hname <;> simp [Ty.isBuiltin, Ty.ofDeclared, hname]
      · split at h
        · rename_i hclass
          obtain ⟨found, hfound⟩ := Option.isSome_iff_exists.mp hclass
          obtain ⟨hname, -⟩ := hT.classReference? hfound
          refine ⟨.inr ⟨hname, Bool.eq_false_iff.mpr harray⟩, ?_, ?_⟩
          · intro hmem
            exact horigin (by simp at hmem ⊢; tauto)
          · intro hthis
            exact absurd (by simp [hthis]) horigin
        · exact absurd h (not_report_gives rfl)

/-- The types of an accepted class that stands alone. -/
theorem allTypes (hT : T.StandsAlone) {t : Ast} (htable : (ofTree t).Gives T)
    (hcheck : (checkClass T t).Gives ()) : T.AllTypes T.Knows := by
  refine .of_accepted (.builtin rfl (by decide)) (.builtin rfl (by decide)) ?_ htable hcheck
  rintro Γ n type rfl h
  exact hT.knows_declared h

end StandsAlone
end ClassTable

/-- A target of a class that stands alone is of the class itself if it is called so. -/
theorem ClassTable.Knows.eq_own {Γ : Context} {target : Ty} (h : Γ.table.Knows target)
    (hown : Γ.isOwnTarget target) : target.name = Γ.table.className ∧ target.isArray = false := by
  rcases hown with hthis | ⟨harray, hname⟩
  · exact h.this hthis
  · exact ⟨hname, by simpa using harray⟩

/-- **The types of the expressions of a class that stands alone.** -/
theorem Typing.infer_knows {Γ : Context} (hT : Γ.table.StandsAlone)
    (htypes : Γ.table.AllTypes Γ.table.Knows) {t : Ast} {type : Ty}
    (h : (infer Γ t).Gives (some type)) : Γ.table.Knows type := by
  induction t using Tree.induction generalizing type with
  | node n ts ih =>
    obtain ⟨_, heq, hcases⟩ := infer_cases h
    cases Option.some.inj heq
    rw [Tree.label, Tree.children] at hcases
    cases hcases with
    | integer | boolean | string | arrayAccess | arrayLength | newArray | negation =>
      exact .builtin rfl (by decide)
    | binary =>
      unfold resultOf
      split
      · exact .builtin rfl (by decide)
      · exact .builtin rfl (by decide)
    | this => exact .own (by decide)
    | className hk hclass | newObject hk hclass | classRef hk _ hclass =>
      exact hT.knows_classReference? hclass
    | «variable» hk hres hstatic =>
      rw [hT.tagOrigin]
      exact htypes.resolve? hres
    | parenthesis hk h => exact ih _ List.mem_cons_self h
    | invocation hk ht hargs hcall =>
      rcases inferCall_gives hcall with ⟨-, info, hinfo, -, -, heq⟩ | ⟨-, -, _, hsuper, -⟩ |
        ⟨-, -, -, heq⟩
      · cases Option.some.inj heq
        have hreturn := htypes.methods info (ClassTable.method?_mem hinfo) _ List.mem_cons_self
        exact ⟨hreturn.name, by simp, fun hthis => by cases hthis⟩
      · rw [hT.superclass] at hsuper
        cases hsuper
      · cases Option.some.inj heq
        exact ih _ List.mem_cons_self ht

namespace ThreeAddress

/-! ## Types of values -/

/-- The origin of a type does not matter for its values. -/
theorem ValueType.ofType_congr {a b : Ty} (hname : a.name = b.name) (harray : a.isArray = b.isArray) :
    ValueType.ofType a = ValueType.ofType b := by
  unfold ValueType.ofType Ty.text
  rw [hname, harray]

theorem ValueType.ofType_own {T : ClassTable} (hT : T.StandsAlone) {type : Ty}
    (hname : type.name = T.className) (harray : type.isArray = false) :
    ValueType.ofType type = .ok (.object T.className) := by
  have hbuiltin := hT.className
  simp only [List.mem_cons, List.not_mem_nil, or_false, not_or] at hbuiltin
  obtain ⟨hint, hboolean, hvoid, hstring⟩ := hbuiltin
  unfold ValueType.ofType
  rw [hname, harray]
  simp [hint, hboolean, hvoid, hstring]

/-- **What may be assigned has the type of its place.** -/
theorem assignable_ofType {Γ : Context} {target value : Ty} (htarget : Γ.table.Knows target)
    (hvalue : Γ.table.Knows value) {isCall : Bool} (h : Γ.assignable target value isCall = true) :
    ValueType.ofType target = ValueType.ofType value := by
  have hto := htarget.origin
  have hvo := hvalue.origin
  simp only [List.mem_cons, List.not_mem_nil, or_false, not_or] at hto hvo
  have hsame (hs : target.same value = true) : ValueType.ofType target = ValueType.ofType value := by
    obtain ⟨harray, hname⟩ := Bool.and_eq_true_iff.mp hs
    exact ValueType.ofType_congr (eq_of_beq hname) (eq_of_beq harray)
  unfold Context.assignable at h
  dsimp only at h
  rw [if_neg (by simp [hto.1, hvo.1]), if_neg hto.2] at h
  split at h
  · -- Both are objects of the class.
    rename_i hown
    obtain ⟨htname, htarray⟩ := htarget.eq_own hown
    obtain ⟨hvname, hvarray⟩ : value.name = Γ.table.className ∧ value.isArray = false := by
      rcases Bool.or_eq_true_iff.mp h with hthis | hname
      · exact hvalue.this (eq_of_beq hthis)
      · obtain ⟨harray, hname⟩ := Bool.and_eq_true_iff.mp hname
        exact ⟨eq_of_beq hname, by simpa using harray⟩
    exact ValueType.ofType_congr (htname.trans hvname.symm) (htarray.trans hvarray.symm)
  · split at h
    · rcases Bool.or_eq_true_iff.mp h with hs | himported
      · exact hsame hs
      · exact absurd (eq_of_beq (Bool.and_eq_true_iff.mp himported).2) hvo.2
    · exact hsame h

/-- What an expression gives is of its type.  The result of a method of strings is of the type that
its place expects. -/
def Fits (expected : Option ValueType) (type : Ty) (given : ValueType) : Prop :=
  ValueType.ofType type = .ok given ∨
    type.name = "String" ∧ type.isArray = false ∧ given = expected.getD .int

namespace Fits

variable {expected : Option ValueType} {type : Ty} {given : ValueType}

/-- A type that is no string leaves no choice. -/
theorem ofType (h : Fits expected type given) (hname : type.name ≠ "String" ∨ type.isArray = true) :
    ValueType.ofType type = .ok given := by
  rcases h with h | ⟨hstring, harray, -⟩
  · exact h
  · rcases hname with hname | hname
    · exact absurd hstring hname
    · rw [harray] at hname
      cases hname

theorem int (h : Fits expected type given) (htype : type.isInt = true) : given = .int := by
  obtain ⟨harray, hname⟩ := Bool.and_eq_true_iff.mp htype
  have hname : type.name = "int" := eq_of_beq hname
  have harray : type.isArray = false := by simpa using harray
  have hgiven := h.ofType (.inl (by rw [hname]; decide))
  rw [ValueType.ofType_congr (b := .int) hname harray] at hgiven
  exact (Except.ok.inj hgiven).symm

theorem bool (h : Fits expected type given) (htype : type.isBoolean = true) : given = .bool := by
  obtain ⟨harray, hname⟩ := Bool.and_eq_true_iff.mp htype
  have hname : type.name = "boolean" := eq_of_beq hname
  have harray : type.isArray = false := by simpa using harray
  have hgiven := h.ofType (.inl (by rw [hname]; decide))
  rw [ValueType.ofType_congr (b := .boolean) hname harray] at hgiven
  exact (Except.ok.inj hgiven).symm

theorem intArray (h : Fits expected type given) (htype : type.isIntArray = true) :
    given = .intArray := by
  obtain ⟨harray, hname⟩ := Bool.and_eq_true_iff.mp htype
  have hgiven := h.ofType (.inr harray)
  rw [ValueType.ofType_congr (b := .intArray) (eq_of_beq hname) harray] at hgiven
  exact (Except.ok.inj hgiven).symm

theorem array (h : Fits expected type given) (htype : type.isArray = true) :
    given = .intArray ∨ given = .stringArray := by
  have hgiven := h.ofType (.inr htype)
  unfold ValueType.ofType at hgiven
  rw [if_pos htype] at hgiven
  split at hgiven
  · exact .inl (Except.ok.inj hgiven).symm
  · split at hgiven
    · exact .inr (Except.ok.inj hgiven).symm
    · cases hgiven

/-- A place that expects the type of its value gets it. -/
theorem eq_expected {wanted : ValueType} (h : Fits (some wanted) type given)
    (htype : ValueType.ofType type = .ok wanted) : given = wanted := by
  rcases h with h | ⟨-, -, h⟩
  · exact Except.ok.inj (h.symm.trans htype)
  · exact h

end Fits

/-! ## Well-typed code -/

/-- The type of what a right-hand side gives. -/
def Rhs.type : Rhs → ValueType
  | operand value => value.type
  | binary op _ _ => resultType op
  | not _ => .bool
  | call c => c.result
  | getField _ field => field.type
  | arrayLength _ => .int
  | arrayLoad _ _ => .int
  | newObject className => .object className
  | newArray _ => .intArray

/-- A right-hand side has operands of the types that it takes, and reads fields that there are.
Nothing is said of the target and the arguments of a call. -/
def Rhs.WellTyped (fields : List Var) : Rhs → Prop
  | operand _ | call _ | newObject _ => True
  | binary op left right => left.type = operandType op ∧ right.type = operandType op
  | not value => value.type = .bool
  | getField _ field => field ∈ fields
  | arrayLength array => array.type = .intArray ∨ array.type = .stringArray
  | arrayLoad array index => array.type = .intArray ∧ index.type = .int
  | newArray length => length.type = .int

/-- An instruction of a method with that result, in a class with those fields, has operands of the
types that it takes.  Nothing is said of the target and the arguments of a call. -/
def Instr.WellTyped (fields : List Var) (result : ValueType) : Instr → Prop
  | assign dest rhs => rhs.type = dest.type ∧ rhs.WellTyped fields
  | arrayStore array index value =>
    array.type = .intArray ∧ index.type = .int ∧ value.type = .int
  | putField _ field value => field ∈ fields ∧ value.type = field.type
  | ret (some value) => value.type = result
  | ret none => result = .void
  | branch cond _ _ => cond.type = .bool
  | call _ | jump _ | label _ | noop _ => True

/-- Every instruction is well typed. -/
def WellTyped (fields : List Var) (result : ValueType) (code : List Instr) : Prop :=
  ∀ i ∈ code, i.WellTyped fields result

variable {fields : List Var} {result : ValueType} {code code' : List Instr}

theorem WellTyped.nil : WellTyped fields result [] :=
  fun _ h => absurd h List.not_mem_nil

theorem WellTyped.append (h : WellTyped fields result code) (h' : WellTyped fields result code') :
    WellTyped fields result (code ++ code') := by
  intro i hi
  rcases List.mem_append.mp hi with hi | hi
  · exact h i hi
  · exact h' i hi

theorem WellTyped.cons {i : Instr} (hi : i.WellTyped fields result)
    (h : WellTyped fields result code) : WellTyped fields result (i :: code) := by
  intro j hj
  rcases List.mem_cons.mp hj with rfl | hj
  · exact hi
  · exact h j hj

/-- Code with one more instruction. -/
theorem WellTyped.snoc {i : Instr} (h : WellTyped fields result code)
    (hi : i.WellTyped fields result) : WellTyped fields result (code ++ [i]) :=
  h.append (.cons hi .nil)

/-- An expression: its code is well typed whatever the method gives back, since it does not return,
and its value fits. -/
structure Lowered.WellTyped (fields : List Var) (expected : Option ValueType) (type : Ty)
    (v : Lowered) : Prop where
  code : ∀ result, ThreeAddress.WellTyped fields result v.code
  value : Fits expected type v.value.type

/-- A value that goes to a variable of its type. -/
theorem Lowered.storeIn_wellTyped {v : Lowered} (h : ThreeAddress.WellTyped fields result v.code)
    {dest : Var} (hdest : v.value.type = dest.type) :
    ThreeAddress.WellTyped fields result (v.storeIn dest) := by
  have hcopy : ThreeAddress.WellTyped fields result
      (v.code ++ [.assign dest (.operand v.value)]) := h.snoc ⟨hdest, trivial⟩
  unfold Lowered.storeIn
  split
  · rename_i temp last rhs hvalue hlast
    split
    · -- The last instruction assigns to the variable instead.
      rename_i hdirect
      obtain ⟨rfl, htype⟩ := hdirect
      have hassign := h _ (List.mem_of_getLast? hlast)
      refine ThreeAddress.WellTyped.snoc (fun i hi => h i (List.dropLast_subset _ hi)) ?_
      exact ⟨hassign.1.trans htype, hassign.2⟩
    · exact hcopy
  · exact hcopy

/-! ## Expressions -/

/-- A method of an accepted class that stands alone, with the fields of the class. -/
structure Site.StandsAlone (Γ : Site) (fields : List Var) : Prop where
  table : Γ.table.StandsAlone
  types : Γ.table.AllTypes Γ.table.Knows
  mappable : Γ.table.Mappable
  fields : varsOf Γ.table.fields = .ok fields

variable {Γ : Site}

theorem mem_varsOf {symbols : List Symbol} {vars : List Var} (h : varsOf symbols = .ok vars)
    {s : Symbol} (hs : s ∈ symbols) {type : ValueType} (htype : ValueType.ofType s.type = .ok type) :
    ⟨s.name, type⟩ ∈ vars := by
  induction symbols generalizing vars with
  | nil => exact absurd hs List.not_mem_nil
  | cons s' ss ih =>
    obtain ⟨type', htype', h⟩ := Meaning.except_bind_eq_ok.mp h
    obtain ⟨rest, hrest, h⟩ := Meaning.except_bind_eq_ok.mp h
    rw [← Except.ok.inj h]
    rcases List.mem_cons.mp hs with rfl | hs
    · cases Except.ok.inj (htype'.symm.trans htype)
      exact List.mem_cons_self
    · exact List.mem_cons_of_mem _ (ih hrest hs)

/-- A name that means a field is a field of the class. -/
theorem Site.StandsAlone.mem_fields (hΓ : Γ.StandsAlone fields) {name : String} {symbol : Symbol}
    (hres : Γ.table.resolve? Γ.info.name name = some (.field, symbol)) {type : ValueType}
    (htype : ValueType.ofType symbol.type = .ok type) : ⟨name, type⟩ ∈ fields := by
  obtain ⟨rfl, ⟨-, hmem⟩ | ⟨hscope, -⟩⟩ := ClassTable.resolve?_cases hres
  · exact mem_varsOf hΓ.fields hmem htype
  · exact absurd rfl hscope

theorem assignTemp_wellTyped {expected : Option ValueType} {type : Ty} {given : ValueType}
    {rhs : Rhs} (hcode : ∀ result, WellTyped fields result code) (hrhs : rhs.WellTyped fields)
    (hgiven : rhs.type = given) (hfits : Fits expected type given) :
    Succeeds (assignTemp code given rhs) (Lowered.WellTyped fields expected type) := by
  intro f
  refine ⟨_, _, rfl, ⟨fun result => (hcode result).snoc ⟨hgiven, hrhs⟩, hfits⟩⟩

/-- An array is in a variable. -/
theorem Operand.eq_var_of_type {o : Operand} (h : o.type = .intArray) : ∃ x, o = .var x := by
  cases o with
  | var x => exact ⟨x, rfl⟩
  | _ => cases h

/-- What is no object is no target of the class. -/
theorem Site.isOwn_eq_false {target : Operand} (h : ∀ name, target.type ≠ .object name) :
    Γ.isOwn target = false :=
  Bool.eq_false_iff.mpr fun hown => h _ (Site.isOwn_eq_true.mp hown)

/-- The code of arguments is well typed if that of each is. -/
theorem lowerArgs_wellTyped {ts : List Ast}
    (h : ∀ t ∈ ts, ∀ expected, Succeeds (lowerExpr Γ expected t) fun v =>
      ∀ result, WellTyped fields result v.code)
    {declared : List Symbol} (hdeclared : ∀ s ∈ declared, s.type.Mappable) :
    Succeeds (lowerArgs Γ declared ts) fun args => ∀ result, WellTyped fields result args.code := by
  induction ts generalizing declared with
  | nil =>
    rw [lowerArgs]
    exact .pure fun _ => .nil
  | cons t ts ih =>
    obtain ⟨param, hparam⟩ := nextParam_succeeds hdeclared
    rw [lowerArgs]
    refine .bind (.lift hparam) fun _ _ => ?_
    refine .bind (h t List.mem_cons_self _) fun arg harg => ?_
    refine .bind (ih (fun u hu => h u (List.mem_cons_of_mem t hu))
      fun s hs => hdeclared s (List.mem_of_mem_tail hs)) fun rest hrest => .pure ?_
    exact fun result => (harg result).append (hrest result)

/-- What is known of the result of a call: the type that its method declares, or, of a method of
strings, the one that is expected. -/
def CallFits (expected : Option ValueType) (type : Ty) (call : Call) : Prop :=
  ValueType.ofType type = .ok call.result ∨
    type.name = "String" ∧ type.isArray = false ∧ call.result = expected.getD .void

/-- **A call whose target and arguments have well-typed code.** -/
theorem lowerCall_wellTyped (hΓ : Γ.StandsAlone fields) {n : Numbered} {method : String}
    {expected : Option ValueType} {t : Ast} {args : List Ast} {target type : Ty}
    (ht : Succeeds (lowerExpr Γ none t) (Lowered.WellTyped fields none target))
    (hargs : ∀ u ∈ args, ∀ expected, Succeeds (lowerExpr Γ expected u) fun v =>
      ∀ result, WellTyped fields result v.code)
    (hknows : Γ.table.Knows target) {throughName : Bool} {argCount : Nat}
    (hcall : (inferCall Γ.context n method target throughName argCount).Gives (some type)) :
    Succeeds (lowerCall Γ n method expected (t :: args)) fun r =>
      (∀ result, WellTyped fields result r.1) ∧ CallFits expected type r.2 := by
  rw [lowerCall]
  refine .bind ht fun v hv => ?_
  rcases inferCall_gives hcall with ⟨hown, info, hinfo, -, -, heq⟩ | ⟨-, -, _, hsuper, -⟩ |
    ⟨hown, harray, hname, heq⟩
  · -- The method is declared, and so is the type of its result.
    cases Option.some.inj heq
    have hinfo : Γ.table.method? method = some info := hinfo
    obtain ⟨hname, harray⟩ := hknows.eq_own hown
    have hobject : ValueType.ofType target = .ok (.object Γ.table.className) :=
      ValueType.ofType_own hΓ.table hname harray
    have hstring : target.name ≠ "String" := by
      intro hstring
      have hclass : Γ.table.className = "String" := hname.symm.trans hstring
      exact hΓ.table.className (by rw [hclass]; decide)
    have hvalue : v.value.type = .object Γ.table.className :=
      Except.ok.inj ((hv.value.ofType (.inl hstring)).symm.trans hobject)
    have hcallee : Γ.callee? v.value method = some info := by
      rw [Site.callee?, Site.isOwn_eq_true.mpr hvalue, if_pos rfl, hinfo]
    have hmappable := hΓ.mappable.methods info (ClassTable.method?_mem hinfo)
    obtain ⟨given, hgiven⟩ := hmappable _ List.mem_cons_self
    have hresult : callResult (some info) expected = .ok given := hgiven
    rw [hcallee]
    refine .bind (lowerArgs_wellTyped hargs fun s hs => ?_) fun rest hrest => ?_
    · exact hmappable s.type
        (List.mem_cons_of_mem _ (List.mem_map_of_mem (List.mem_append_left _ hs)))
    · refine .bind (.lift hresult) fun given' heq => .pure ⟨?_, .inl ?_⟩
      · exact fun result => (hv.code result).append (hrest result)
      · rw [heq]
        exact hgiven
  · have hsuper : Γ.table.superclass = some _ := hsuper
    rw [hΓ.table.superclass] at hsuper
    cases hsuper
  · -- The target is a string, and what its methods give is not known.
    cases Option.some.inj heq
    have hname : target.name = "String" := by
      rcases hknows.name with hbuiltin | ⟨hname', harray'⟩
      · simp only [List.mem_cons, List.not_mem_nil, or_false, not_or] at hname
        simpa [Ty.isBuiltin, hname] using hbuiltin
      · exact absurd (.inr ⟨by simpa using harray, hname'⟩) hown
    have hvalue : v.value.type = .string ∨ v.value.type = .int := by
      rcases hv.value with hgiven | ⟨-, -, hgiven⟩
      · rw [ValueType.ofType_congr (b := .string) hname harray] at hgiven
        exact .inl (Except.ok.inj hgiven).symm
      · exact .inr hgiven
    have hcallee : Γ.callee? v.value method = none := by
      rw [Site.callee?, Site.isOwn_eq_false, if_neg (by decide)]
      rcases hvalue with hvalue | hvalue <;> simp [hvalue]
    rw [hcallee]
    refine .bind (lowerArgs_wellTyped hargs fun s hs => absurd hs List.not_mem_nil)
      fun rest hrest => ?_
    refine .bind (.lift (a := expected.getD .void) rfl) fun given heq => .pure ⟨?_, .inr ?_⟩
    · exact fun result => (hv.code result).append (hrest result)
    · exact ⟨hname, harray, heq⟩

/-- **The code of an accepted expression is well typed, and its value fits.** -/
theorem lowerExpr_wellTyped (hΓ : Γ.StandsAlone fields) {t : Ast} {type : Ty}
    (htype : (infer Γ.context t).Gives (some type)) (expected : Option ValueType) :
    Succeeds (lowerExpr Γ expected t) (Lowered.WellTyped fields expected type) := by
  induction t using Tree.induction generalizing type expected with
  | node n ts ih =>
    obtain ⟨_, heq, htypes⟩ := infer_cases htype
    cases Option.some.inj heq
    rw [Tree.label, Tree.children] at htypes
    rw [lowerExpr.eq_def]
    have hoperand {o : Operand} {type : Ty} (h : ValueType.ofType type = .ok o.type) :
        Lowered.WellTyped fields expected type (.ofOperand o) :=
      ⟨fun _ => .nil, .inl h⟩
    cases htypes with
    | integer hk | boolean hk | string hk =>
      simp only [hk]
      exact .pure (hoperand rfl)
    | this hk _ =>
      simp only [hk]
      exact .pure (hoperand (ValueType.ofType_own hΓ.table rfl rfl))
    | className hk hclass =>
      obtain ⟨rfl, rfl⟩ := hΓ.table.classReference? hclass
      simp only [hk]
      exact .pure (hoperand (ValueType.ofType_own hΓ.table rfl rfl))
    | newObject hk hclass =>
      obtain ⟨rfl, rfl⟩ := hΓ.table.classReference? hclass
      simp only [hk]
      exact assignTemp_wellTyped (fun _ => .nil) trivial rfl
        (.inl (ValueType.ofType_own hΓ.table rfl rfl))
    | @«variable» name scope symbol _ hk hres hstatic =>
      have hres' : Γ.table.resolve? Γ.info.name name = some (scope, symbol) := hres
      have htag : Γ.context.table.tagOrigin symbol.type = symbol.type := hΓ.table.tagOrigin _
      obtain ⟨given, hgiven⟩ := hΓ.mappable.resolve? hres'
      rw [htag]
      simp only [hk]
      change Succeeds (lowerIdentifier Γ n name) _
      simp only [lowerIdentifier, hres']
      refine .bind (.lift hgiven) fun given' heq => ?_
      cases heq
      cases scope with
      | field =>
        have hstatic' : Γ.info.isStatic = false := hstatic rfl
        simp only [hstatic']
        exact assignTemp_wellTyped (fun _ => .nil) (hΓ.mem_fields hres' hgiven) rfl (.inl hgiven)
      | «local» | parameter => exact .pure (hoperand hgiven)
    | @classRef name _ _ hk hres hclass =>
      have hres' : Γ.table.resolve? Γ.info.name name = none := hres
      have hclass' : (Γ.table.classReference? name).isSome = true := by
        rw [show Γ.table.classReference? name = _ from hclass]
        rfl
      obtain ⟨rfl, rfl⟩ := hΓ.table.classReference? hclass
      simp only [hk]
      change Succeeds (lowerIdentifier Γ n _) _
      simp only [lowerIdentifier, hres', lowerClassName, hclass', if_true]
      exact .pure (hoperand (ValueType.ofType_own hΓ.table rfl rfl))
    | parenthesis hk h =>
      simp only [hk]
      exact ih _ List.mem_cons_self h expected
    | @binary op l r rest left right hk hl hr hfits =>
      simp only [hk]
      refine .bind (ih _ List.mem_cons_self hl _) fun a ha => ?_
      refine .bind (ih _ (by simp) hr _) fun b hb => ?_
      refine assignTemp_wellTyped (fun result => (ha.code result).append (hb.code result)) ?_ rfl ?_
      · -- The operands are what the operator takes.
        show a.value.type = operandType op ∧ b.value.type = operandType op
        unfold takesOperands at hfits
        unfold operandType
        split at hfits
        · rename_i hlogical
          obtain ⟨hleft, hright⟩ := Bool.and_eq_true_iff.mp hfits
          rw [if_pos hlogical]
          exact ⟨ha.value.bool hleft, hb.value.bool hright⟩
        · rename_i hlogical
          obtain ⟨hleft, hright⟩ := Bool.and_eq_true_iff.mp hfits
          rw [if_neg hlogical]
          exact ⟨ha.value.int hleft, hb.value.int hright⟩
      · refine .inl ?_
        cases op <;> rfl
    | negation hk h hfits =>
      simp only [hk]
      refine .bind (ih _ List.mem_cons_self h _) fun v hv => ?_
      exact assignTemp_wellTyped hv.code (hv.value.bool hfits) rfl (.inl rfl)
    | arrayLength hk h hfits =>
      simp only [hk]
      refine .bind (ih _ List.mem_cons_self h _) fun v hv => ?_
      exact assignTemp_wellTyped hv.code (hv.value.array hfits) rfl (.inl rfl)
    | newArray hk h hfits =>
      simp only [hk]
      refine .bind (ih _ List.mem_cons_self h _) fun v hv => ?_
      exact assignTemp_wellTyped hv.code (hv.value.int hfits) rfl (.inl rfl)
    | arrayAccess hk ha hi hbase hindex =>
      simp only [hk]
      refine .bind (ih _ List.mem_cons_self ha _) fun base hb => ?_
      refine .bind (ih _ (by simp) hi _) fun index hi => ?_
      have harray := hb.value.intArray hbase
      obtain ⟨x, hx⟩ := Operand.eq_var_of_type harray
      rw [hx] at harray ⊢
      exact assignTemp_wellTyped (fun result => (hb.code result).append (hi.code result))
        ⟨harray, hi.value.int hindex⟩ rfl (.inl rfl)
    | invocation hk ht hargs hcall =>
      simp only [hk]
      refine .bind (lowerCall_wellTyped hΓ (ih _ List.mem_cons_self ht none) (fun u hu expected => ?_)
        (infer_knows hΓ.table hΓ.types ht) hcall) fun r hr => ?_
      · obtain ⟨type, htype⟩ := inferArgs_gives hargs u hu
        exact (ih u (List.mem_cons_of_mem _ hu) htype expected).mono fun v hv => hv.code
      · refine assignTemp_wellTyped hr.1 trivial rfl ?_
        rcases hr.2 with hgiven | ⟨hname, harray, hgiven⟩
        · exact .inl hgiven
        · exact .inr ⟨hname, harray, hgiven⟩

/-- The code of an accepted condition, whose value is a truth value. -/
theorem lowerCondition_wellTyped (hΓ : Γ.StandsAlone fields) {t : Ast}
    (h : (checkCondition Γ.context t).Gives ()) :
    Succeeds (lowerCondition Γ t) fun v =>
      (∀ result, WellTyped fields result v.code) ∧ v.value.type = .bool := by
  obtain ⟨n, ts⟩ := t
  unfold lowerCondition
  rcases checkCondition_gives h with ⟨hk, t, rest, type, rfl, ht, hbool⟩ | ⟨hk, type, ht, hbool⟩
  · simp only [hk]
    exact (lowerExpr_wellTyped hΓ ht _).mono fun v hv => ⟨hv.code, hv.value.bool hbool⟩
  · dsimp only
    split
    · exact absurd ‹n.kind = .condition› hk
    · exact (lowerExpr_wellTyped hΓ ht _).mono fun v hv => ⟨hv.code, hv.value.bool hbool⟩

/-- The code of an accepted expression that is run for its effect. -/
theorem lowerEffect_wellTyped (hΓ : Γ.StandsAlone fields) {t : Ast} {type : Ty}
    (h : (infer Γ.context t).Gives (some type)) :
    Succeeds (lowerEffect Γ t) (WellTyped fields result) := by
  induction t using Tree.induction generalizing type with
  | node n ts ih =>
    obtain ⟨_, heq, htypes⟩ := infer_cases h
    cases Option.some.inj heq
    rw [Tree.label, Tree.children] at htypes
    rw [lowerEffect.eq_def]
    cases hkind : n.kind with
    | parenthesis =>
      cases htypes with
      | parenthesis hk ht =>
        simp only [hkind]
        exact ih _ List.mem_cons_self ht
      | _ => simp_all
    | invocation method =>
      cases htypes with
      | invocation hk ht hargs hcall =>
        rw [hkind] at hk
        cases hk
        simp only [hkind]
        refine .bind (lowerCall_wellTyped hΓ (lowerExpr_wellTyped hΓ ht none) (fun u hu expected => ?_)
          (infer_knows hΓ.table hΓ.types ht) hcall) fun r hr => ?_
        · obtain ⟨type, htype⟩ := inferArgs_gives hargs u hu
          exact (lowerExpr_wellTyped hΓ htype expected).mono fun v hv => hv.code
        · exact .pure ((hr.1 result).snoc trivial)
      | _ => simp_all
    | _ =>
      simp only [hkind]
      exact .bind (lowerExpr_wellTyped hΓ h _) fun v hv => .pure ((hv.code result).snoc trivial)

/-! ## Statements -/

theorem lowerStatements_wellTyped_of {ts : List Ast}
    (h : ∀ t ∈ ts, Succeeds (lowerStatement Γ t) (WellTyped fields result)) :
    Succeeds (lowerStatements Γ ts) (WellTyped fields result) := by
  induction ts with
  | nil =>
    rw [lowerStatements]
    exact .pure .nil
  | cons t ts ih =>
    rw [lowerStatements]
    refine .bind (h t List.mem_cons_self) fun first hfirst => ?_
    refine .bind (ih fun u hu => h u (List.mem_cons_of_mem t hu)) fun rest hrest => ?_
    exact .pure (hfirst.append hrest)

theorem conditionalCode_wellTyped (k : Nat) {cond : Lowered} {thenCode elseCode : List Instr}
    (hcond : WellTyped fields result cond.code) (hbool : cond.value.type = .bool)
    (hthen : WellTyped fields result thenCode) (helse : WellTyped fields result elseCode) :
    WellTyped fields result (conditionalCode k cond thenCode elseCode) := by
  have hlabels : WellTyped fields result [.jump s!"EndIf_{k}", .label s!"Else_{k}"] :=
    .cons trivial (.cons trivial .nil)
  have hend : WellTyped fields result [.label s!"EndIf_{k}"] := .cons trivial .nil
  have hbranch : WellTyped fields result [.branch cond.value true s!"Else_{k}"] := .cons hbool .nil
  exact ((((hcond.append hbranch).append hthen).append hlabels).append helse).append hend

theorem loopCode_wellTyped (k : Nat) {first again : Lowered} {body : List Instr}
    (hfirst : WellTyped fields result first.code) (hbool : first.value.type = .bool)
    (hbody : WellTyped fields result body) (hagain : WellTyped fields result again.code)
    (hbool' : again.value.type = .bool) :
    WellTyped fields result (loopCode k first body again) := by
  have hstart : WellTyped fields result
      [.branch first.value true s!"EndLoop_{k}", .label s!"Loop_{k}"] :=
    .cons hbool (.cons trivial .nil)
  have hend : WellTyped fields result
      [.branch again.value false s!"Loop_{k}", .label s!"EndLoop_{k}"] :=
    .cons hbool' (.cons trivial .nil)
  exact (((hfirst.append hstart).append hbody).append hagain).append hend

/-- The array that an element is assigned to, read from its field if it is one. -/
theorem lowerArray_wellTyped {scope : Scope} {array : Var}
    (hfield : scope = .field → array ∈ fields) :
    Succeeds (lowerArray Γ scope array) fun r =>
      (∀ result, WellTyped fields result r.1) ∧ r.2.type = array.type := by
  cases scope with
  | field => exact fun _ => ⟨_, _, rfl, fun _ => .cons ⟨rfl, hfield rfl⟩ .nil, rfl⟩
  | «local» | parameter => exact .pure ⟨fun _ => .nil, rfl⟩

/-- **The code of an accepted statement is well typed.** -/
theorem lowerStatement_wellTyped (hΓ : Γ.StandsAlone fields) (hlisted : Γ.IsListed)
    (hreturn : ValueType.ofType Γ.info.returnType = .ok result) {t : Ast}
    (hcheck : (checkStatement Γ.context t).Gives ()) :
    Succeeds (lowerStatement Γ t) (WellTyped fields result) := by
  have hknows {u : Ast} {type : Ty} (h : (infer Γ.context u).Gives (some type)) :
      Γ.table.Knows type := infer_knows hΓ.table hΓ.types h
  induction t using Tree.induction with
  | node n ts ih =>
    rw [lowerStatement.eq_def]
    cases checkStatement_cases hcheck with
    | declaration hk _ =>
      cases hkind : n.kind <;> simp only [hkind, Kind.writtenType?, reduceCtorEq] at hk ⊢
      all_goals exact .pure .nil
    | sequence hk h =>
      rcases hk with hk | hk | hk <;> simp only [hk]
      all_goals exact lowerStatements_wellTyped_of fun t ht => ih t ht (h t ht)
    | @conditional c t rest hk hc ht he =>
      simp only [hk]
      refine .bind .label fun k _ => .bind (lowerCondition_wellTyped hΓ hc) fun cond hcond => ?_
      refine .bind (ih t (by simp) ht) fun thenCode hthen => ?_
      cases rest with
      | nil =>
        refine .bind (P := WellTyped fields result) (.pure .nil) fun elseCode helse => .pure ?_
        exact conditionalCode_wellTyped k (hcond.1 result) hcond.2 hthen helse
      | cons e rest =>
        refine .bind (ih e (by simp) (he e rfl)) fun elseCode helse => .pure ?_
        exact conditionalCode_wellTyped k (hcond.1 result) hcond.2 hthen helse
    | loop hk hc hb =>
      simp only [hk]
      refine .bind .label fun k _ => .bind (lowerCondition_wellTyped hΓ hc) fun first hfirst => ?_
      refine .bind (lowerStatements_wellTyped_of fun t ht =>
        ih t (List.mem_cons_of_mem _ ht) (hb t ht)) fun body hbody => ?_
      refine .bind (lowerCondition_wellTyped hΓ hc) fun again hagain => .pure ?_
      exact loopCode_wellTyped k (hfirst.1 result) hfirst.2 hbody (hagain.1 result) hagain.2
    | condition hk h =>
      simp only [hk]
      exact .bind (lowerCondition_wellTyped hΓ h) fun v hv => .pure ((hv.1 result).snoc trivial)
    | expression hk h =>
      simp only [hk]
      exact lowerEffect_wellTyped hΓ h
    | @assignment name scope symbol v rest value hk hres _ h hassign =>
      have hres' : Γ.table.resolve? Γ.info.name name = some (scope, symbol) := hres
      obtain ⟨type, htype⟩ := hΓ.mappable.resolve? hres'
      -- The value has the type of the variable.
      have hvalue : ValueType.ofType value = .ok type := by
        rw [← htype, ← assignable_ofType (hΓ.types.resolve? hres') (hknows h)
          (show Γ.context.assignable symbol.type value (isCall v) = true by
            rw [← hΓ.table.tagOrigin symbol.type]
            exact hassign)]
      simp only [hk, lowerAssignment]
      refine .bind (.lift (target_eq_ok_of hres' htype)) fun _ heq => ?_
      cases heq
      refine .bind (lowerExpr_wellTyped hΓ h _) fun given hgiven => ?_
      have hdest : given.value.type = type := hgiven.value.eq_expected hvalue
      cases scope with
      | field => exact .pure ((hgiven.code result).snoc ⟨hΓ.mem_fields hres' htype, hdest⟩)
      | «local» | parameter => exact .pure (Lowered.storeIn_wellTyped (hgiven.code result) hdest)
    | @element name scope symbol i v rest index value hk hres _ hi hv harray hindex hvalue =>
      have hres' : Γ.table.resolve? Γ.info.name name = some (scope, symbol) := hres
      obtain ⟨type, htype⟩ := hΓ.mappable.resolve? hres'
      have harray' : symbol.type.isIntArray = true := by
        rw [← hΓ.table.tagOrigin symbol.type]
        exact harray
      have hfits : Fits none symbol.type type := .inl htype
      have hintArray : type = .intArray := hfits.intArray harray'
      simp only [hk, lowerArrayAssignment]
      refine .bind (.lift (target_eq_ok_of hres' htype)) fun _ heq => ?_
      cases heq
      have hfield : scope = .field → ⟨name, type⟩ ∈ fields := by
        rintro rfl
        exact hΓ.mem_fields hres' htype
      refine .bind (lowerArray_wellTyped hfield) fun r hr => ?_
      refine .bind (lowerExpr_wellTyped hΓ hi _) fun a ha => ?_
      refine .bind (lowerExpr_wellTyped hΓ hv _) fun b hb => .pure ?_
      refine (((hr.1 result).append (ha.code result)).append (hb.code result)).snoc ?_
      exact ⟨hr.2.trans hintArray, ha.value.int hindex, hb.value.int hvalue⟩
    | returnOutside _ hm => cases hm
    | returnNone hk hm hvoid =>
      cases Option.some.inj hm
      have hvoid' : Γ.info.returnType.isVoid = true := by
        rw [← hΓ.table.tagOrigin Γ.info.returnType]
        exact hvoid
      simp only [hk]
      exact .pure (.cons ((ValueType.ofType_eq_void hreturn).mpr hvoid') .nil)
    | @returnSome m v rest value hk hm hvoid h hassign =>
      cases Option.some.inj hm
      have hmem := hΓ.types.methods Γ.info (ClassTable.method?_mem hlisted) _ List.mem_cons_self
      have hvalue : ValueType.ofType value = .ok result := by
        rw [← hreturn, ← assignable_ofType hmem (hknows h)
          (show Γ.context.assignable Γ.info.returnType value (isCall v) = true by
            rw [← hΓ.table.tagOrigin Γ.info.returnType]
            exact hassign)]
      simp only [hk, lowerReturn]
      refine .bind (.lift hreturn) fun type heq => ?_
      cases heq
      refine .bind (lowerExpr_wellTyped hΓ h _) fun given hgiven => .pure ?_
      exact (hgiven.code result).snoc (hgiven.value.eq_expected hvalue)
    | effect hk h =>
      cases hkind : n.kind <;> simp only [hkind, Kind.isStatement, reduceCtorEq] at hk ⊢
      all_goals exact lowerEffect_wellTyped hΓ h

/-! ## Methods and classes -/

theorem closeBody_wellTyped (h : WellTyped fields result code) :
    WellTyped fields result (closeBody result code) := by
  rcases Meaning.closeBody_cases result code with ⟨-, hclose⟩ | ⟨hvoid, hclose⟩ | ⟨-, hclose, -⟩
  · rw [hclose]
    exact h
  · rw [hclose]
    exact h.snoc hvoid
  · rw [hclose]
    exact h

/-- **Every instruction of an accepted class that stands alone is well typed.** -/
theorem lowerClass_wellTyped {T : ClassTable} (hT : T.StandsAlone) {t : Ast}
    (htable : (ClassTable.ofTree t).Gives T) (hcheck : (checkClass T t).Gives ())
    {c : ClassCode} (hlower : lowerClass T t = .ok c) {m : Method} (hm : m ∈ c.methods) :
    WellTyped c.fields m.result m.code := by
  have hmappable := ClassTable.mappable_of_accepted htable hcheck
  have hknows := hT.allTypes htable hcheck
  obtain ⟨tree, htree, hlower⟩ := Meaning.except_bind_eq_ok.mp hlower
  obtain ⟨fields, hfields, hlower⟩ := Meaning.except_bind_eq_ok.mp hlower
  obtain ⟨ms, hms, hlower⟩ := Meaning.except_bind_eq_ok.mp hlower
  rw [← Except.ok.inj hlower] at hm ⊢
  obtain ⟨member, hmember, name, info, hname, hinfo, hmethod⟩ := mem_lowerMethods hms hm
  obtain rfl := ClassTable.name_of_method? hinfo
  obtain ⟨code, f, hcode, hresult, -, -, -, -, hclose⟩ := lowerMethod_eq_ok hmethod
  -- The body of the method was accepted.
  obtain ⟨tree', htree', hcheck⟩ := bind_gives.mp hcheck
  obtain rfl : tree = tree' := Except.ok.inj (htree.symm.trans (ofExcept_gives.mp htree'))
  obtain ⟨_, -, hmethods⟩ := bind_gives.mp hcheck
  have hbody := checkStatements_gives (checkMethods_gives hmethods hmember hname hinfo)
  have hΓ : (⟨T, info⟩ : Site).StandsAlone fields := ⟨hT, hknows, hmappable, hfields⟩
  have hsucceeds := lowerStatements_wellTyped_of fun u hu =>
    lowerStatement_wellTyped hΓ hinfo hresult (hbody u hu)
  rw [hclose]
  exact closeBody_wellTyped (hsucceeds.of_eq_ok hcode)

end ThreeAddress
end ClassCompiler
