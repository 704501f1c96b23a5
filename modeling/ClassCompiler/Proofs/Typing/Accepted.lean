import ClassCompiler.Typing.Statement
import ClassCompiler.Proofs.Tree.Everywhere

/-!
# What is accepted

A computation that reports is *accepted* if it comes to a value and reports no error.  The parts of
an accepted computation are accepted, so acceptance can be taken apart along the way a tree is
checked, and nothing of what the checker says when it refuses is needed.

An accepted expression always has a type: none is given only after something was reported.  The
cases of `Types` are the accepted expressions, those of `Checks` the accepted statements.

* `Checked.Gives`: a computation that is accepted, with its value.
* `infer_cases`: accepted expressions.
* `checkStatement_cases`: accepted statements.
* `everywhere_of_accepted`: a property of every node that is read.
-/

namespace ClassCompiler

/-! ## Accepted computations -/

namespace Checked

variable {α β : Type}

/-- A computation comes to a value, and reports no error. -/
def Gives (x : Checked α) (a : α) : Prop :=
  Diagnostic.accepted x.diagnostics = true ∧ x.outcome = .ok a

theorem accepted_append (ds ds' : List Diagnostic) :
    Diagnostic.accepted (ds ++ ds') = (Diagnostic.accepted ds && Diagnostic.accepted ds') := by
  unfold Diagnostic.accepted
  rw [List.any_append, Bool.not_or]

theorem bind_gives {x : Checked α} {g : α → Checked β} {b : β} :
    (x >>= g).Gives b ↔ ∃ a, x.Gives a ∧ (g a).Gives b := by
  obtain ⟨ds, outcome⟩ := x
  cases outcome with
  | error e => exact ⟨fun h => (nomatch h.2), fun ⟨_, h, _⟩ => (nomatch h.2)⟩
  | ok a =>
    constructor
    · intro ⟨hds, hb⟩
      change Diagnostic.accepted (ds ++ (g a).diagnostics) = true at hds
      rw [accepted_append, Bool.and_eq_true] at hds
      exact ⟨a, ⟨hds.1, rfl⟩, hds.2, hb⟩
    · intro ⟨a', ⟨hds, ha⟩, hds', hb⟩
      cases Except.ok.inj ha
      refine ⟨?_, hb⟩
      change Diagnostic.accepted (ds ++ (g a).diagnostics) = true
      rw [accepted_append, hds, hds']
      rfl

theorem pure_gives {a b : α} : (pure a : Checked α).Gives b ↔ a = b :=
  ⟨fun h => Except.ok.inj h.2, fun h => ⟨rfl, congrArg Except.ok h⟩⟩

theorem not_fail_gives {e : Error} {a : α} : ¬ (fail e : Checked α).Gives a :=
  fun h => nomatch h.2

/-- What is reported as an error is not accepted. -/
theorem not_report_gives {n : Numbered} {p : Problem} (hp : p.severity = .error) {u : Unit} :
    ¬ (report n p).Gives u := by
  intro h
  have hds := h.1
  simp [report, Diagnostic.accepted, Diagnostic.isError, hp] at hds

theorem not_report_bind_gives {n : Numbered} {p : Problem} (hp : p.severity = .error)
    {g : Unit → Checked α} {a : α} : ¬ (report n p >>= g).Gives a := by
  intro h
  obtain ⟨_, hreport, -⟩ := bind_gives.mp h
  exact not_report_gives hp hreport

theorem ofExcept_gives {x : Except Error α} {a : α} : (ofExcept x).Gives a ↔ x = .ok a :=
  ⟨fun h => h.2, fun h => ⟨rfl, h⟩⟩

end Checked

/-! ## Names -/

namespace Typing

open Checked

variable {Γ : Context} {n : Numbered} {name : String} {result : Option Ty}

theorem variableType?_gives (h : (Γ.variableType? n name).Gives result) :
    (Γ.table.resolve? Γ.methodName name = none ∧ result = none) ∨
      ∃ scope symbol, Γ.table.resolve? Γ.methodName name = some (scope, symbol) ∧
        (scope = .field → Γ.inStaticMethod = false) ∧
        result = some (Γ.table.tagOrigin symbol.type) := by
  unfold Context.variableType? at h
  split at h
  · exact .inl ⟨‹_›, (pure_gives.mp h).symm⟩
  · split at h
    · exact absurd h (not_report_bind_gives rfl)
    · rename_i hres hstatic
      refine .inr ⟨_, _, hres, fun hscope => ?_, (pure_gives.mp h).symm⟩
      simpa [hscope] using hstatic

/-- A name that may be read. -/
theorem identifier?_gives (h : (Γ.identifier? n name).Gives result) :
    (∃ scope symbol, Γ.table.resolve? Γ.methodName name = some (scope, symbol) ∧
      (scope = .field → Γ.inStaticMethod = false) ∧
      result = some (Γ.table.tagOrigin symbol.type)) ∨
    (Γ.table.resolve? Γ.methodName name = none ∧
      ∃ type, Γ.table.classReference? name = some type ∧ result = some type) := by
  obtain ⟨found, hfound, h⟩ := bind_gives.mp h
  rcases variableType?_gives hfound with ⟨hres, rfl⟩ | ⟨scope, symbol, hres, hstatic, rfl⟩
  · refine .inr ⟨hres, ?_⟩
    dsimp only at h
    split at h
    · exact ⟨_, ‹_›, (pure_gives.mp h).symm⟩
    · exact absurd h (not_report_bind_gives rfl)
  · exact .inl ⟨scope, symbol, hres, hstatic, (pure_gives.mp h).symm⟩

/-- A name that may be assigned. -/
theorem target?_gives (h : (Γ.target? n name).Gives result) :
    ∃ scope symbol, Γ.table.resolve? Γ.methodName name = some (scope, symbol) ∧
      (scope = .field → Γ.inStaticMethod = false) ∧
      result = some (Γ.table.tagOrigin symbol.type) := by
  obtain ⟨found, hfound, h⟩ := bind_gives.mp h
  rcases variableType?_gives hfound with ⟨hres, rfl⟩ | ⟨scope, symbol, hres, hstatic, rfl⟩
  · dsimp only at h
    split at h
    · -- A field would have been found.
      rename_i hfield
      obtain ⟨s, hs⟩ := Option.isSome_iff_exists.mp hfield.2
      unfold ClassTable.resolve? at hres
      dsimp only at hres
      split at hres
      · cases hres
      · simp [hs] at hres
    · exact absurd h (not_report_bind_gives rfl)
  · exact ⟨scope, symbol, hres, hstatic, (pure_gives.mp h).symm⟩

/-! ## Expressions -/

/-- The operands that an operator takes. -/
def takesOperands (op : BinaryOp) (left right : Ty) : Bool :=
  if op.isLogical then left.isBoolean && right.isBoolean else left.isInt && right.isInt

/-- The type that an operator gives. -/
def resultOf (op : BinaryOp) : Ty :=
  if op.isArithmetic then .int else .boolean

/-- The accepted expressions with their types. -/
inductive Types (Γ : Context) (n : Numbered) : List Ast → Ty → Prop
  | integer {value ts} (hk : n.kind = .integer value) : Types Γ n ts .int
  | boolean {value ts} (hk : n.kind = .boolean value) : Types Γ n ts .boolean
  | string {value ts} (hk : n.kind = .string value) : Types Γ n ts .string
  | this {ts} (hk : n.kind = .this) (hstatic : Γ.inStaticMethod = false) :
    Types Γ n ts (.this Γ.table.className)
  | className {name type ts} (hk : n.kind = .className name)
    (hclass : Γ.table.classReference? name = some type) : Types Γ n ts type
  | newObject {name type ts} (hk : n.kind = .newObject name)
    (hclass : Γ.table.classReference? name = some type) : Types Γ n ts type
  | variable {name scope symbol ts} (hk : n.kind = .identifier name)
    (hres : Γ.table.resolve? Γ.methodName name = some (scope, symbol))
    (hstatic : scope = .field → Γ.inStaticMethod = false) :
    Types Γ n ts (Γ.table.tagOrigin symbol.type)
  | classRef {name type ts} (hk : n.kind = .identifier name)
    (hres : Γ.table.resolve? Γ.methodName name = none)
    (hclass : Γ.table.classReference? name = some type) : Types Γ n ts type
  | parenthesis {t ts type} (hk : n.kind = .parenthesis) (h : (infer Γ t).Gives (some type)) :
    Types Γ n (t :: ts) type
  | binary {op l r ts left right} (hk : n.kind = .binary op)
    (hl : (infer Γ l).Gives (some left)) (hr : (infer Γ r).Gives (some right))
    (hfits : takesOperands op left right) : Types Γ n (l :: r :: ts) (resultOf op)
  | negation {t ts type} (hk : n.kind = .negation) (h : (infer Γ t).Gives (some type))
    (hfits : type.isBoolean) : Types Γ n (t :: ts) .boolean
  | arrayAccess {a i ts base index} (hk : n.kind = .arrayAccess)
    (ha : (infer Γ a).Gives (some base)) (hi : (infer Γ i).Gives (some index))
    (hbase : base.isIntArray) (hindex : index.isInt) : Types Γ n (a :: i :: ts) .int
  | arrayLength {t ts type} (hk : n.kind = .arrayLength) (h : (infer Γ t).Gives (some type))
    (hfits : type.isArray) : Types Γ n (t :: ts) .int
  | newArray {t ts type} (hk : n.kind = .newArray) (h : (infer Γ t).Gives (some type))
    (hfits : type.isInt) : Types Γ n (t :: ts) .intArray
  | invocation {method t args target type} (hk : n.kind = .invocation method)
    (ht : (infer Γ t).Gives (some target)) (hargs : (inferArgs Γ args).Gives ())
    (hcall : (inferCall Γ n method target (namesOwnClass Γ t) args.length).Gives (some type)) :
    Types Γ n (t :: args) type

theorem inferBinary_gives {op : BinaryOp} {left right : Ty}
    (h : (inferBinary n op (some left) (some right)).Gives result) :
    result = some (resultOf op) ∧ takesOperands op left right = true := by
  change Gives (if takesOperands op left right then pure (some (resultOf op)) else _) result at h
  split at h
  · exact ⟨(pure_gives.mp h).symm, ‹_›⟩
  · exact absurd h (not_report_bind_gives rfl)

theorem inferUnary_gives {fits : Ty → Bool} {type given : Ty} {problem : Ty → Problem}
    (hproblem : ∀ t, (problem t).severity = .error)
    (h : (inferUnary n fits given problem (some type)).Gives result) :
    result = some given ∧ fits type = true := by
  unfold inferUnary at h
  dsimp only at h
  split at h
  · exact ⟨(pure_gives.mp h).symm, ‹_›⟩
  · exact absurd h (not_report_bind_gives (hproblem type))

theorem inferAccess_gives {base index : Ty}
    (h : (inferAccess n (some base) (some index)).Gives result) :
    result = some .int ∧ base.isIntArray = true ∧ index.isInt = true := by
  unfold inferAccess at h
  dsimp only at h
  split at h
  · exact absurd h (not_report_bind_gives rfl)
  · rename_i hbase
    split at h
    · exact ⟨(pure_gives.mp h).symm, by simpa using hbase, ‹_›⟩
    · exact absurd h (not_report_bind_gives rfl)

theorem inferClass_gives {problem : Problem} (hproblem : problem.severity = .error)
    (h : (inferClass Γ n name problem).Gives result) :
    ∃ type, Γ.table.classReference? name = some type ∧ result = some type := by
  unfold inferClass at h
  split at h
  · exact ⟨_, ‹_›, (pure_gives.mp h).symm⟩
  · exact absurd h (not_report_bind_gives hproblem)

/-- The call of a method of the class, or of one that only the superclass can have. -/
theorem inferOwnCall_gives {method : String} {throughName : Bool} {argCount : Nat}
    (h : (inferOwnCall Γ n method throughName argCount).Gives result) :
    (∃ info, Γ.table.method? method = some info ∧ (throughName = true → info.isStatic = true) ∧
      info.parameters.length = argCount ∧
      result = some { info.returnType with origin := .method }) ∨
    (Γ.table.method? method = none ∧ ∃ superclass, Γ.table.superclass = some superclass ∧
      result = some ⟨superclass, false, .extension⟩) := by
  unfold inferOwnCall at h
  split at h
  · rename_i info hinfo
    dsimp only at h
    split at h
    · exact absurd h (not_report_bind_gives rfl)
    · rename_i hname
      split at h
      · exact absurd h (not_report_bind_gives rfl)
      · rename_i hcount
        refine .inl ⟨info, hinfo, fun hthrough => ?_, Decidable.not_not.mp hcount,
          (pure_gives.mp h).symm⟩
        simpa [hthrough] using hname
  · split at h
    · exact .inr ⟨‹_›, _, ‹_›, (pure_gives.mp h).symm⟩
    · exact absurd h (not_report_bind_gives rfl)

/-- Calls on an object of the class itself, or on its name. -/
def Context.isOwnTarget (Γ : Context) (target : Ty) : Prop :=
  target.origin = .this ∨ (!target.isArray ∧ target.name = Γ.table.className)

/-- A call that is accepted has a type: the one that a method of the class declares, that of the
superclass, or that of the target. -/
theorem inferCall_gives {method : String} {target : Ty} {throughName : Bool} {argCount : Nat}
    (h : (inferCall Γ n method target throughName argCount).Gives result) :
    (Γ.isOwnTarget target ∧ ∃ info, Γ.table.method? method = some info ∧
      (throughName = true → info.isStatic = true) ∧ info.parameters.length = argCount ∧
      result = some { info.returnType with origin := .method }) ∨
    (Γ.isOwnTarget target ∧ Γ.table.method? method = none ∧
      ∃ superclass, Γ.table.superclass = some superclass ∧
        result = some ⟨superclass, false, .extension⟩) ∨
    (¬ Γ.isOwnTarget target ∧ target.isArray = false ∧
      target.name ∉ ["int", "boolean", "void"] ∧ result = some target) := by
  unfold inferCall at h
  split at h
  · rename_i hown
    rcases inferOwnCall_gives h with hknown | ⟨hnone, hsuper⟩
    · exact .inl ⟨hown, hknown⟩
    · exact .inr (.inl ⟨hown, hnone, hsuper⟩)
  · rename_i hown
    split at h
    · exact absurd h (not_report_bind_gives rfl)
    · rename_i hinvocable
      simp only [not_or, Bool.not_eq_true] at hinvocable
      obtain ⟨harray, hint, hboolean, hvoid⟩ := hinvocable
      exact .inr (.inr ⟨hown, harray, by simp [hint, hboolean, hvoid], (pure_gives.mp h).symm⟩)

theorem inferLeaf_gives {kind : Kind} (hk : n.kind = kind) (h : (inferLeaf Γ n kind).Gives result)
    {ts : List Ast} : ∃ type, result = some type ∧ Types Γ n ts type := by
  cases kind with
  | integer _ => exact ⟨_, (pure_gives.mp h).symm, .integer hk⟩
  | boolean _ => exact ⟨_, (pure_gives.mp h).symm, .boolean hk⟩
  | string _ => exact ⟨_, (pure_gives.mp h).symm, .string hk⟩
  | identifier name =>
    rcases identifier?_gives h with
      ⟨scope, symbol, hres, hstatic, rfl⟩ | ⟨hres, type, hclass, rfl⟩
    · exact ⟨_, rfl, .variable hk hres hstatic⟩
    · exact ⟨type, rfl, .classRef hk hres hclass⟩
  | className name =>
    obtain ⟨type, hclass, rfl⟩ := inferClass_gives rfl h
    exact ⟨type, rfl, .className hk hclass⟩
  | this =>
    unfold inferLeaf at h
    dsimp only at h
    split at h
    · exact absurd h (not_report_bind_gives rfl)
    · exact ⟨_, (pure_gives.mp h).symm, .this hk (Bool.eq_false_iff.mpr ‹_›)⟩
  | newObject name =>
    obtain ⟨type, hclass, rfl⟩ := inferClass_gives rfl h
    exact ⟨type, rfl, .newObject hk hclass⟩
  | _ => exact absurd h (not_report_bind_gives rfl)

/-- **An expression that is accepted has a type.** -/
theorem infer_cases {t : Ast} (h : (infer Γ t).Gives result) :
    ∃ type, result = some type ∧ Types Γ t.label t.children type := by
  induction t using Tree.induction generalizing result with
  | node n ts ih =>
    have hunary {t : Ast} {fits : Ty → Bool} {given : Ty} {problem : Ty → Problem}
        {result : Option Ty} (ht : t ∈ ts) (hproblem : ∀ t, (problem t).severity = .error)
        (h : (infer Γ t >>= inferUnary n fits given problem).Gives result) :
        ∃ type, (infer Γ t).Gives (some type) ∧ result = some given ∧ fits type = true := by
      obtain ⟨found, hfound, h⟩ := bind_gives.mp h
      obtain ⟨type, rfl, -⟩ := ih t ht hfound
      exact ⟨type, hfound, inferUnary_gives hproblem h⟩
    rw [Tree.label, Tree.children]
    rw [infer.eq_def] at h
    cases hk : n.kind <;> simp only [hk] at h
    case parenthesis =>
      cases ts with
      | nil => exact absurd h not_fail_gives
      | cons t ts =>
        obtain ⟨type, rfl, -⟩ := ih t List.mem_cons_self h
        exact ⟨type, rfl, .parenthesis hk h⟩
    case binary op =>
      match ts, h with
      | [], h => exact absurd h not_fail_gives
      | [l], h =>
        obtain ⟨_, -, h⟩ := bind_gives.mp h
        exact absurd h not_fail_gives
      | l :: r :: rest, h =>
        obtain ⟨left, hl, h⟩ := bind_gives.mp h
        obtain ⟨right, hr, h⟩ := bind_gives.mp h
        obtain ⟨left, rfl, -⟩ := ih l List.mem_cons_self hl
        obtain ⟨right, rfl, -⟩ := ih r (by simp) hr
        obtain ⟨rfl, hfits⟩ := inferBinary_gives h
        exact ⟨_, rfl, .binary hk hl hr hfits⟩
    case arrayAccess =>
      match ts, h with
      | [], h => exact absurd h not_fail_gives
      | [a], h =>
        obtain ⟨_, -, h⟩ := bind_gives.mp h
        exact absurd h not_fail_gives
      | a :: i :: rest, h =>
        obtain ⟨base, ha, h⟩ := bind_gives.mp h
        obtain ⟨index, hi, h⟩ := bind_gives.mp h
        obtain ⟨base, rfl, -⟩ := ih a List.mem_cons_self ha
        obtain ⟨index, rfl, -⟩ := ih i (by simp) hi
        obtain ⟨rfl, hbase, hindex⟩ := inferAccess_gives h
        exact ⟨_, rfl, .arrayAccess hk ha hi hbase hindex⟩
    case negation =>
      cases ts with
      | nil => exact absurd h not_fail_gives
      | cons t ts =>
        obtain ⟨type, ht, rfl, hfits⟩ := hunary List.mem_cons_self (fun _ => rfl) h
        exact ⟨_, rfl, .negation hk ht hfits⟩
    case arrayLength =>
      cases ts with
      | nil => exact absurd h not_fail_gives
      | cons t ts =>
        obtain ⟨type, ht, rfl, hfits⟩ := hunary List.mem_cons_self (fun _ => rfl) h
        exact ⟨_, rfl, .arrayLength hk ht hfits⟩
    case newArray =>
      cases ts with
      | nil => exact absurd h not_fail_gives
      | cons t ts =>
        obtain ⟨type, ht, rfl, hfits⟩ := hunary List.mem_cons_self (fun _ => rfl) h
        exact ⟨_, rfl, .newArray hk ht hfits⟩
    case invocation method =>
      cases ts with
      | nil => exact absurd h not_fail_gives
      | cons t args =>
        obtain ⟨found, ht, h⟩ := bind_gives.mp h
        obtain ⟨target, rfl, -⟩ := ih t List.mem_cons_self ht
        obtain ⟨_, hargs, h⟩ := bind_gives.mp h
        obtain ⟨type, rfl⟩ : ∃ type, result = some type := by
          rcases inferCall_gives h with ⟨-, info, -, -, -, rfl⟩ | ⟨-, -, superclass, -, rfl⟩ |
            ⟨-, -, -, rfl⟩
          · exact ⟨_, rfl⟩
          · exact ⟨_, rfl⟩
          · exact ⟨target, rfl⟩
        exact ⟨type, rfl, .invocation hk ht hargs h⟩
    all_goals exact inferLeaf_gives hk h

theorem inferArgs_gives {ts : List Ast} (h : (inferArgs Γ ts).Gives ()) :
    ∀ t ∈ ts, ∃ type, (infer Γ t).Gives (some type) := by
  induction ts with
  | nil => exact fun _ ht => absurd ht List.not_mem_nil
  | cons t ts ih =>
    rw [inferArgs] at h
    obtain ⟨found, ht, hts⟩ := bind_gives.mp h
    obtain ⟨type, rfl, -⟩ := infer_cases ht
    intro u hu
    rcases List.mem_cons.mp hu with rfl | hu
    · exact ⟨type, ht⟩
    · exact ih hts u hu

/-! ## Statements -/

theorem checkGuard_gives {t : Ast} (h : (checkGuard Γ t).Gives ()) :
    ∃ type, (infer Γ t).Gives (some type) ∧ type.isBoolean = true := by
  obtain ⟨found, ht, h⟩ := bind_gives.mp h
  obtain ⟨type, rfl, -⟩ := infer_cases ht
  dsimp only at h
  split at h
  · exact ⟨type, ht, ‹_›⟩
  · exact absurd h (not_report_gives rfl)

/-- A condition that is accepted, or an expression in its place. -/
theorem checkCondition_gives {ts : List Ast} (h : (checkCondition Γ (.node n ts)).Gives ()) :
    (n.kind = .condition ∧ ∃ t rest type, ts = t :: rest ∧ (infer Γ t).Gives (some type) ∧
      type.isBoolean = true) ∨
    (n.kind ≠ .condition ∧ ∃ type, (infer Γ (.node n ts)).Gives (some type) ∧
      type.isBoolean = true) := by
  unfold checkCondition at h
  dsimp only at h
  split at h
  · rename_i hk
    cases ts with
    | nil => exact absurd h not_fail_gives
    | cons t rest =>
      obtain ⟨type, ht, hbool⟩ := checkGuard_gives h
      exact .inl ⟨hk, t, rest, type, rfl, ht, hbool⟩
  · exact .inr ⟨‹_›, checkGuard_gives h⟩

/-- The accepted statements. -/
inductive Checks (Γ : Context) (n : Numbered) : List Ast → Prop
  | declaration {type ts} (hk : n.kind.writtenType? = some type)
    (h : (Γ.checkDeclared n type).Gives ()) : Checks Γ n ts
  | sequence {ts} (hk : n.kind = .block ∨ n.kind = .thenBranch ∨ n.kind = .elseBranch)
    (h : ∀ t ∈ ts, (checkStatement Γ t).Gives ()) : Checks Γ n ts
  | conditional {c t rest} (hk : n.kind = .conditional) (hc : (checkCondition Γ c).Gives ())
    (ht : (checkStatement Γ t).Gives ()) (he : ∀ e ∈ rest.head?, (checkStatement Γ e).Gives ()) :
    Checks Γ n (c :: t :: rest)
  | loop {c body} (hk : n.kind = .loop) (hc : (checkCondition Γ c).Gives ())
    (hb : ∀ t ∈ body, (checkStatement Γ t).Gives ()) : Checks Γ n (c :: body)
  | condition {ts} (hk : n.kind = .condition) (h : (checkCondition Γ (.node n ts)).Gives ()) :
    Checks Γ n ts
  | expression {e rest type} (hk : n.kind = .expression) (h : (infer Γ e).Gives (some type)) :
    Checks Γ n (e :: rest)
  | assignment {name scope symbol v rest value} (hk : n.kind = .assignment name)
    (hres : Γ.table.resolve? Γ.methodName name = some (scope, symbol))
    (hstatic : scope = .field → Γ.inStaticMethod = false)
    (h : (infer Γ v).Gives (some value))
    (hassign : Γ.assignable (Γ.table.tagOrigin symbol.type) value (isCall v) = true) :
    Checks Γ n (v :: rest)
  | element {name scope symbol i v rest index value} (hk : n.kind = .arrayAssignment name)
    (hres : Γ.table.resolve? Γ.methodName name = some (scope, symbol))
    (hstatic : scope = .field → Γ.inStaticMethod = false)
    (hi : (infer Γ i).Gives (some index)) (hv : (infer Γ v).Gives (some value))
    (harray : (Γ.table.tagOrigin symbol.type).isIntArray = true) (hindex : index.isInt = true)
    (hvalue : value.isInt = true) : Checks Γ n (i :: v :: rest)
  | returnOutside {ts} (hk : n.kind = .ret) (hm : Γ.method = none) : Checks Γ n ts
  | returnNone {m} (hk : n.kind = .ret) (hm : Γ.method = some m)
    (hvoid : m.returnType.isVoid = true) : Checks Γ n []
  | returnSome {m v rest value} (hk : n.kind = .ret) (hm : Γ.method = some m)
    (hvoid : m.returnType.isVoid = false) (h : (infer Γ v).Gives (some value))
    (hassign : Γ.assignable m.returnType value (isCall v) = true) : Checks Γ n (v :: rest)
  | effect {ts type} (hk : n.kind.isStatement = false)
    (h : (infer Γ (.node n ts)).Gives (some type)) : Checks Γ n ts

theorem checkStatements_gives {ts : List Ast} (h : (checkStatements Γ ts).Gives ()) :
    ∀ t ∈ ts, (checkStatement Γ t).Gives () := by
  induction ts with
  | nil => exact fun _ ht => absurd ht List.not_mem_nil
  | cons t ts ih =>
    rw [checkStatements] at h
    obtain ⟨_, ht, hts⟩ := bind_gives.mp h
    intro u hu
    rcases List.mem_cons.mp hu with rfl | hu
    · exact ht
    · exact ih hts u hu

theorem checkAssignment_gives (hk : n.kind = .assignment name) {ts : List Ast}
    (h : (checkAssignment Γ n name ts).Gives ()) : Checks Γ n ts := by
  cases ts with
  | nil => exact absurd h not_fail_gives
  | cons v rest =>
    obtain ⟨found, hv, h⟩ := bind_gives.mp h
    obtain ⟨value, rfl, -⟩ := infer_cases hv
    obtain ⟨target, htarget, h⟩ := bind_gives.mp h
    obtain ⟨scope, symbol, hres, hstatic, rfl⟩ := target?_gives htarget
    dsimp only at h
    split at h
    · exact .assignment hk hres hstatic hv ‹_›
    · exact absurd h (not_report_gives rfl)

theorem checkInt_gives {problem : Ty → Problem} (hproblem : ∀ t, (problem t).severity = .error)
    {type : Ty} (h : (checkInt n problem (some type)).Gives ()) : type.isInt = true := by
  unfold checkInt at h
  dsimp only at h
  split at h
  · rename_i hint
    exact hint
  · exact absurd h (not_report_gives (hproblem type))

theorem checkArrayAssignment_gives (hk : n.kind = .arrayAssignment name) {ts : List Ast}
    (h : (checkArrayAssignment Γ n name ts).Gives ()) : Checks Γ n ts := by
  match ts, h with
  | [], h => exact absurd h not_fail_gives
  | [i], h =>
    obtain ⟨_, -, h⟩ := bind_gives.mp h
    exact absurd h not_fail_gives
  | i :: v :: rest, h =>
    obtain ⟨found, hi, h⟩ := bind_gives.mp h
    obtain ⟨index, rfl, -⟩ := infer_cases hi
    obtain ⟨found, hv, h⟩ := bind_gives.mp h
    obtain ⟨value, rfl, -⟩ := infer_cases hv
    obtain ⟨target, htarget, h⟩ := bind_gives.mp h
    obtain ⟨scope, symbol, hres, hstatic, rfl⟩ := target?_gives htarget
    dsimp only at h
    split at h
    · exact absurd h (not_report_bind_gives rfl)
    · rename_i harray
      obtain ⟨_, hindex, hvalue⟩ := bind_gives.mp h
      exact .element hk hres hstatic hi hv (by simpa using harray)
        (checkInt_gives (fun _ => rfl) hindex) (checkInt_gives (fun _ => rfl) hvalue)

theorem checkReturn_gives (hk : n.kind = .ret) {ts : List Ast}
    (h : (checkReturn Γ n ts).Gives ()) : Checks Γ n ts := by
  unfold checkReturn at h
  split at h
  · exact .returnOutside hk ‹_›
  · rename_i m hm
    cases ts with
    | nil =>
      dsimp only at h
      split at h
      · exact .returnNone hk hm ‹_›
      · exact absurd h (not_report_gives rfl)
    | cons v rest =>
      obtain ⟨found, hv, h⟩ := bind_gives.mp h
      obtain ⟨value, rfl, -⟩ := infer_cases hv
      dsimp only at h
      split at h
      · exact absurd h (not_report_gives rfl)
      · rename_i hvoid
        split at h
        · exact .returnSome hk hm (Bool.eq_false_iff.mpr hvoid) hv ‹_›
        · exact absurd h (not_report_gives rfl)

/-- **What a statement that is accepted is made of.** -/
theorem checkStatement_cases {ts : List Ast} (h : (checkStatement Γ (.node n ts)).Gives ()) :
    Checks Γ n ts := by
  rw [checkStatement.eq_def] at h
  cases hk : n.kind <;> simp only [hk] at h
  case returnType | argument | localVar => exact .declaration (by rw [hk, Kind.writtenType?]) h
  case block => exact .sequence (.inl hk) (checkStatements_gives h)
  case thenBranch => exact .sequence (.inr (.inl hk)) (checkStatements_gives h)
  case elseBranch => exact .sequence (.inr (.inr hk)) (checkStatements_gives h)
  case conditional =>
    match ts, h with
    | [], h => exact absurd h not_fail_gives
    | [c], h =>
      obtain ⟨_, -, h⟩ := bind_gives.mp h
      exact absurd h not_fail_gives
    | [c, t], h =>
      obtain ⟨_, hc, h⟩ := bind_gives.mp h
      obtain ⟨_, ht, -⟩ := bind_gives.mp h
      exact .conditional hk hc ht fun _ he => nomatch he
    | c :: t :: e :: rest, h =>
      obtain ⟨_, hc, h⟩ := bind_gives.mp h
      obtain ⟨_, ht, he⟩ := bind_gives.mp h
      refine .conditional hk hc ht fun e' he' => ?_
      rw [← Option.some.inj (Option.mem_def.mp he')]
      exact he
  case loop =>
    cases ts with
    | nil => exact absurd h not_fail_gives
    | cons c body =>
      obtain ⟨_, hc, hb⟩ := bind_gives.mp h
      exact .loop hk hc (checkStatements_gives hb)
  case condition => exact .condition hk h
  case expression =>
    cases ts with
    | nil => exact absurd h not_fail_gives
    | cons e rest =>
      obtain ⟨found, he, -⟩ := bind_gives.mp h
      obtain ⟨type, rfl, -⟩ := infer_cases he
      exact .expression hk he
  case assignment name => exact checkAssignment_gives hk h
  case arrayAssignment name => exact checkArrayAssignment_gives hk h
  case ret => exact checkReturn_gives hk h
  all_goals
    obtain ⟨found, he, -⟩ := bind_gives.mp h
    obtain ⟨type, rfl, -⟩ := infer_cases he
    exact .effect (by rw [hk]; rfl) he

/-- A type that a method writes has been checked. -/
theorem checkStatement_written {t : Ast} (h : (checkStatement Γ t).Gives ()) {type : TypeName}
    (hwritten : t.kind.writtenType? = some type) : (Γ.checkDeclared t.label type).Gives () := by
  obtain ⟨n, ts⟩ := t
  rw [Tree.kind, Tree.label] at hwritten
  rw [checkStatement.eq_def] at h
  cases hk : n.kind <;> simp only [hk, Kind.writtenType?, reduceCtorEq] at h hwritten
  case returnType | argument | localVar =>
    cases hwritten
    exact h

/-! ## Every node that is read -/

/-- What holds of every accepted expression holds at every node of one. -/
theorem everywhere_of_infer {p : Ast → Bool}
    (hp : ∀ t type, (infer Γ t).Gives (some type) → p t = true) {t : Ast} {type : Ty}
    (h : (infer Γ t).Gives (some type)) : t.everywhere p = true := by
  induction t using Tree.induction generalizing type with
  | node n ts ih =>
    refine Tree.everywhere_node.mpr ⟨hp _ type h, fun u hu => ?_⟩
    have hmem := Kind.mem_of_mem_used hu
    obtain ⟨_, heq, htyped⟩ := infer_cases h
    cases Option.some.inj heq
    change Types Γ n ts type at htyped
    cases htyped with
    | integer hk | boolean hk | string hk | this hk | className hk | newObject hk
    | «variable» hk | classRef hk =>
      rw [hk] at hu
      exact absurd hu List.not_mem_nil
    | parenthesis hk ht | negation hk ht | arrayLength hk ht | newArray hk ht =>
      rw [hk] at hu
      cases List.mem_singleton.mp hu
      exact ih _ hmem ht
    | binary hk hl hr | arrayAccess hk hl hr =>
      rw [hk] at hu
      rcases List.mem_cons.mp hu with rfl | hu
      · exact ih _ hmem hl
      · cases List.mem_singleton.mp hu
        exact ih _ hmem hr
    | invocation hk ht hargs =>
      rw [hk] at hu
      rcases List.mem_cons.mp hu with rfl | hu
      · exact ih _ hmem ht
      · obtain ⟨type, hu⟩ := inferArgs_gives hargs u hu
        exact ih u hmem hu

theorem checkStatement_condition {ts : List Ast} (hk : n.kind = .condition) :
    checkStatement Γ (.node n ts) = checkCondition Γ (.node n ts) := by
  rw [checkStatement.eq_def]
  simp only [hk]

/-- **What holds of every accepted expression and statement holds at every node** of an accepted
statement that is read. -/
theorem everywhere_of_accepted {m : MethodContext} (hm : Γ.method = some m) {p : Ast → Bool}
    (hexpr : ∀ t type, (infer Γ t).Gives (some type) → p t = true)
    (hstatement : ∀ t, (checkStatement Γ t).Gives () → p t = true) {t : Ast}
    (h : (checkStatement Γ t).Gives ()) : t.everywhere p = true := by
  have hvalue {u : Ast} {type : Ty} (hu : (infer Γ u).Gives (some type)) :
      u.everywhere p = true := everywhere_of_infer hexpr hu
  have hcondition {c : Ast} (hc : (checkCondition Γ c).Gives ()) : c.everywhere p = true := by
    obtain ⟨k, us⟩ := c
    rcases checkCondition_gives hc with ⟨hk, e, rest, type, rfl, he, -⟩ | ⟨-, type, he, -⟩
    · rw [← checkStatement_condition hk] at hc
      refine Tree.everywhere_node.mpr ⟨hstatement _ hc, fun u hu => ?_⟩
      rw [hk] at hu
      cases List.mem_singleton.mp hu
      exact hvalue he
    · exact hvalue he
  induction t using Tree.induction with
  | node n ts ih =>
    have hroot := hstatement _ h
    cases checkStatement_cases h with
    | condition hk hc => exact hcondition hc
    | effect hk he => exact hvalue he
    | returnOutside hk hnone =>
      rw [hm] at hnone
      cases hnone
    | declaration hk =>
      refine Tree.everywhere_node.mpr ⟨hroot, fun u hu => ?_⟩
      cases hkind : n.kind <;> rw [hkind] at hk hu <;>
        simp only [Kind.writtenType?, reduceCtorEq] at hk
      all_goals exact absurd hu List.not_mem_nil
    | sequence hk hts =>
      refine Tree.everywhere_node.mpr ⟨hroot, fun u hu => ?_⟩
      have hmem := Kind.mem_of_mem_used hu
      exact ih u hmem (hts u hmem)
    | @conditional c t rest hk hc ht he =>
      refine Tree.everywhere_node.mpr ⟨hroot, fun u hu => ?_⟩
      have hmem := Kind.mem_of_mem_used hu
      rw [hk] at hu
      rcases List.mem_cons.mp hu with rfl | hu
      · exact hcondition hc
      · rcases List.mem_cons.mp hu with rfl | hu
        · exact ih _ hmem ht
        · cases rest with
          | nil => exact absurd hu List.not_mem_nil
          | cons e rest =>
            cases List.mem_singleton.mp hu
            exact ih _ hmem (he _ rfl)
    | loop hk hc hb =>
      refine Tree.everywhere_node.mpr ⟨hroot, fun u hu => ?_⟩
      rw [hk] at hu
      rcases List.mem_cons.mp hu with rfl | hu
      · exact hcondition hc
      · exact ih u (List.mem_cons_of_mem _ hu) (hb u hu)
    | expression hk hv | assignment hk _ _ hv | returnSome hk _ _ hv =>
      refine Tree.everywhere_node.mpr ⟨hroot, fun u hu => ?_⟩
      rw [hk] at hu
      cases List.mem_singleton.mp hu
      exact hvalue hv
    | element hk _ _ hi hv =>
      refine Tree.everywhere_node.mpr ⟨hroot, fun u hu => ?_⟩
      rw [hk] at hu
      rcases List.mem_cons.mp hu with rfl | hu
      · exact hvalue hi
      · cases List.mem_singleton.mp hu
        exact hvalue hv
    | returnNone hk =>
      refine Tree.everywhere_node.mpr ⟨hroot, fun u hu => ?_⟩
      exact absurd (Kind.mem_of_mem_used hu) List.not_mem_nil

end Typing
end ClassCompiler
