import Mathlib.Data.List.Induction
import ClassCompiler.Constant.Loop
import ClassCompiler.Proofs.Class.Declared
import ClassCompiler.Proofs.Class.FirstDeclarations

/-!
# What checking visits, and what it reports there

An expression without a type makes no noise of its own: most of the rules that could complain about
it stay quiet, on the promise that the complaint is there already.  The promise is kept, since an
expression that is accepted always has a type.

Checking a class is a *task*.  It comes down to other tasks, in a fixed order: statements, guards,
expressions, and the parts of each.  A task is visited if all that stands before it came to an end.
What a visited task reports is then a piece of what the whole reports, between what was reported
before it and what is reported after it.  So if the whole is accepted, every visited task is, and
the rule for its node holds.

* `Checked.Within`: a computation that is run as a part of another.
* `Task`, `Task.parts`, `Visits`: what is checked, in which order, and how far checking gets.
* `Visits.within`: a visited task is run as a part.
* `Task.Satisfied`: the rule for the node of a task.
* `failed_inference_reported`: the promise, and what follows from it.
-/

namespace ClassCompiler

/-! ## Parts of computations -/

namespace Checked

variable {α β γ : Type}

/-- A computation without its value. -/
def done (x : Checked α) : Checked Unit :=
  ⟨x.diagnostics, x.outcome.map fun _ => ()⟩

theorem done_unit (x : Checked Unit) : x.done = x := by
  obtain ⟨ds, e | u⟩ := x
  · rfl
  · rfl

/-- A computation comes to a value. -/
def Ends (x : Checked α) : Prop :=
  ∃ a, x.outcome = .ok a

theorem ends_done {x : Checked α} : x.done.Ends ↔ x.Ends := by
  obtain ⟨ds, e | a⟩ := x
  · constructor
    · rintro ⟨_, h⟩
      cases h
    · rintro ⟨_, h⟩
      cases h
  · exact ⟨fun _ => ⟨a, rfl⟩, fun _ => ⟨(), rfl⟩⟩

/-- One computation is run as a part of another: its reports are among those of the other, in one
piece, and the other ends only if it does. -/
structure Within (y : Checked β) (x : Checked α) : Prop where
  reports : y.diagnostics <:+: x.diagnostics
  ends : x.Ends → y.Ends

namespace Within

variable {x : Checked α} {y : Checked β} {z : Checked γ}

theorem refl (x : Checked α) : Within x x :=
  ⟨List.infix_refl _, id⟩

theorem trans (h : Within z y) (h' : Within y x) : Within z x :=
  ⟨h.reports.trans h'.reports, fun hx => h.ends (h'.ends hx)⟩

theorem of_done (x : Checked α) : Within x.done x :=
  ⟨List.infix_refl _, ends_done.mpr⟩

theorem to_done (x : Checked α) : Within x x.done :=
  ⟨List.infix_refl _, ends_done.mp⟩

/-- The first of two computations. -/
theorem bind_left (x : Checked α) (f : α → Checked β) : Within x (x >>= f) := by
  obtain ⟨ds, e | a⟩ := x
  · refine ⟨List.infix_refl _, ?_⟩
    rintro ⟨_, h⟩
    cases h
  · exact ⟨(List.prefix_append ds _).isInfix, fun _ => ⟨a, rfl⟩⟩

/-- The second of two computations, after the first came to a value. -/
theorem bind_right {f : α → Checked β} {a : α} (hx : x.outcome = .ok a) :
    Within (f a) (x >>= f) := by
  rw [bind_of_ok hx]
  exact ⟨(List.suffix_append x.diagnostics _).isInfix, id⟩

/-- A part of what is accepted is accepted. -/
theorem gives (h : Within y x) {a : α} (hx : x.Gives a) : ∃ b, y.Gives b := by
  obtain ⟨haccepted, hvalue⟩ := hx
  obtain ⟨b, hb⟩ := h.ends ⟨a, hvalue⟩
  obtain ⟨before, after, hds⟩ := h.reports
  rw [← hds, accepted_append, accepted_append, Bool.and_eq_true, Bool.and_eq_true] at haccepted
  exact ⟨b, haccepted.1.2, hb⟩

end Within

end Checked

namespace Typing

open Checked (Within)

/-! ## Tasks -/

/-- What is checked: an expression, a guard or a statement in its context, or a class. -/
inductive Task where
  | expression (Γ : Context) (e : Ast)
  | guard (Γ : Context) (c : Ast)
  | statement (Γ : Context) (s : Ast)
  | ofClass (T : ClassTable) (t : Ast)

namespace Task

/-- Checks what the task is about. -/
def run : Task → Checked Unit
  | expression Γ e => (infer Γ e).done
  | guard Γ c => checkCondition Γ c
  | statement Γ s => checkStatement Γ s
  | ofClass T t => checkClass T t

/-- The statements of a member that are checked, if it is a method of the table. -/
def ofMember (T : ClassTable) (member : Ast) : List Task :=
  match member.kind.methodName? with
  | none => []
  | some name =>
    match T.method? name with
    | none => []
    | some info => member.children.map (statement (contextOf T name info))

/-- The tasks that a task comes down to, in their order. -/
def parts : Task → List Task
  | expression Γ (.node n ts) =>
    match n.kind with
    | .invocation _ => ts.map (expression Γ)
    | .binary _ | .arrayAccess => (ts.take 2).map (expression Γ)
    | .parenthesis | .negation | .arrayLength | .newArray => (ts.take 1).map (expression Γ)
    | _ => []
  | guard Γ c => (Constant.guardOf? c).toList.map (expression Γ)
  | statement Γ (.node n ts) =>
    match n.kind with
    | .returnType _ | .argument _ _ | .localVar _ _ => []
    | .block | .thenBranch | .elseBranch => ts.map (statement Γ)
    | .conditional => (ts.take 1).map (guard Γ) ++ ((ts.drop 1).take 2).map (statement Γ)
    | .loop => (ts.take 1).map (guard Γ) ++ (ts.drop 1).map (statement Γ)
    | .condition => [guard Γ (.node n ts)]
    | .expression | .assignment _ => (ts.take 1).map (expression Γ)
    | .arrayAssignment _ => (ts.take 2).map (expression Γ)
    | .ret => if Γ.method.isSome then (ts.take 1).map (expression Γ) else []
    | _ => [expression Γ (.node n ts)]
  | ofClass T t =>
    match t.classTree with
    | .ok c => c.children.flatMap (ofMember T)
    | .error _ => []

end Task

/-- Checking one task visits another: it is the same, or a part of one that is visited, and all
parts before it came to an end. -/
inductive Visits (x : Task) : Task → Prop
  | start : Visits x x
  | part {y z : Task} {before after : List Task} (h : Visits x y)
    (hparts : y.parts = before ++ z :: after) (hbefore : ∀ b ∈ before, b.run.Ends) : Visits x z

/-! ## Tasks in a row -/

/-- A computation runs tasks one after another, each as a part of it. -/
def InTurn {α : Type} (x : Checked α) (tasks : List Task) : Prop :=
  ∀ before z after, tasks = before ++ z :: after → (∀ b ∈ before, b.run.Ends) → Within z.run x

namespace InTurn

variable {α β : Type} {x : Checked α} {y : Checked β} {tasks tasks' : List Task} {z : Task}

theorem nil (x : Checked α) : InTurn x [] := by
  intro before z after h
  simp at h

theorem within (h : InTurn y tasks) (hy : Within y x) : InTurn x tasks :=
  fun before z after htasks hbefore => (h before z after htasks hbefore).trans hy

theorem single (h : z.run = y.done) : InTurn y [z] := by
  intro before u after htasks _
  cases before with
  | nil =>
    cases htasks
    rw [h]
    exact .of_done y
  | cons b before => simp at htasks

/-- Tasks that a computation runs, and then those of another if the first ends. -/
theorem append {f : β → Checked α} (h : InTurn y tasks)
    (hends : (∀ b ∈ tasks, b.run.Ends) → y.Ends)
    (hrest : ∀ b, y.outcome = .ok b → InTurn (f b) tasks') :
    InTurn (y >>= f) (tasks ++ tasks') := by
  intro before z after htasks hbefore
  rcases List.append_eq_append_iff.mp htasks with ⟨mid, rfl, hmid⟩ | ⟨mid, hmid, hafter⟩
  · -- all tasks of the first came before
    obtain ⟨b, hb⟩ := hends fun c hc => hbefore c (List.mem_append_left mid hc)
    have hlater := hrest b hb mid z after hmid fun c hc => hbefore c (List.mem_append_right _ hc)
    exact hlater.trans (.bind_right hb)
  · cases mid with
    | nil =>
      rw [List.append_nil] at hmid
      obtain ⟨b, hb⟩ := hends fun c hc => hbefore c (hmid ▸ hc)
      have hlater := hrest b hb [] z after hafter.symm fun c hc => absurd hc List.not_mem_nil
      exact hlater.trans (.bind_right hb)
    | cons m mid =>
      obtain ⟨rfl, -⟩ := List.cons.inj hafter
      exact (h before z mid hmid hbefore).trans (.bind_left y f)

/-- A task, and then others if it ends. -/
theorem cons {f : β → Checked α} (h : z.run = y.done)
    (hrest : ∀ b, y.outcome = .ok b → InTurn (f b) tasks) : InTurn (y >>= f) (z :: tasks) := by
  have hfirst : InTurn y [z] := single h
  refine hfirst.append (fun hends => ?_) hrest
  rw [← Checked.ends_done, ← h]
  exact hends z List.mem_cons_self

/-- If the whole ends, so does every task. -/
theorem all_end (h : InTurn x tasks) (hx : x.Ends) : ∀ z ∈ tasks, z.run.Ends := by
  have hbefore : ∀ before after, tasks = before ++ after → ∀ b ∈ before, b.run.Ends := by
    intro before
    induction before using List.reverseRecOn with
    | nil => exact fun _ _ b hb => absurd hb List.not_mem_nil
    | append_singleton before z ih =>
      intro after htasks b hb
      rw [List.append_assoc, List.singleton_append] at htasks
      have hearlier := ih (z :: after) htasks
      rcases List.mem_append.mp hb with hb | hb
      · exact hearlier b hb
      · rw [List.mem_singleton.mp hb]
        exact (h before z after htasks hearlier).ends hx
  exact hbefore tasks [] (List.append_nil _).symm

end InTurn

variable {Γ : Context} {n : Numbered} {ts : List Ast}

theorem inferArgs_inTurn (ts : List Ast) : InTurn (inferArgs Γ ts) (ts.map (.expression Γ)) := by
  induction ts with
  | nil => exact .nil _
  | cons t ts ih =>
    rw [inferArgs]
    exact .cons rfl fun _ _ => ih

theorem infer_inTurn (e : Ast) : InTurn (infer Γ e) (Task.expression Γ e).parts := by
  obtain ⟨n, ts⟩ := e
  rw [infer.eq_def, Task.parts]
  cases hk : n.kind <;> simp only [hk]
  case invocation method =>
    cases ts with
    | nil => exact .nil _
    | cons t args =>
      exact .cons rfl fun _ _ => (inferArgs_inTurn args).within (.bind_left _ _)
  case binary op =>
    rcases ts with _ | ⟨l, _ | ⟨r, rest⟩⟩
    · exact .nil _
    · exact .cons rfl fun _ _ => .nil _
    · exact .cons rfl fun _ _ => .cons rfl fun _ _ => .nil _
  case arrayAccess =>
    rcases ts with _ | ⟨a, _ | ⟨i, rest⟩⟩
    · exact .nil _
    · exact .cons rfl fun _ _ => .nil _
    · exact .cons rfl fun _ _ => .cons rfl fun _ _ => .nil _
  case parenthesis =>
    cases ts with
    | nil => exact .nil _
    | cons t ts => exact .single rfl
  case negation | arrayLength | newArray =>
    cases ts with
    | nil => exact .nil _
    | cons t ts => exact .cons rfl fun _ _ => .nil _
  all_goals exact .nil _

theorem checkCondition_inTurn (c : Ast) : InTurn (checkCondition Γ c) (Task.guard Γ c).parts := by
  have hguard (t : Ast) : InTurn (checkGuard Γ t) [.expression Γ t] :=
    .cons rfl fun _ _ => .nil _
  obtain ⟨n, ts⟩ := c
  unfold checkCondition Task.parts Constant.guardOf?
  dsimp only
  cases n.kind with
  | condition =>
    cases ts with
    | nil => exact .nil _
    | cons t ts => exact hguard t
  | _ => exact hguard _

theorem checkStatements_ends (h : ∀ t ∈ ts, (checkStatement Γ t).Ends) :
    (checkStatements Γ ts).Ends := by
  induction ts with
  | nil => exact ⟨(), rfl⟩
  | cons t ts ih =>
    obtain ⟨_, ht⟩ := h t List.mem_cons_self
    obtain ⟨u, hts⟩ := ih fun u hu => h u (List.mem_cons_of_mem t hu)
    rw [checkStatements, Checked.bind_of_ok ht]
    exact ⟨u, hts⟩

theorem checkStatements_inTurn (ts : List Ast) :
    InTurn (checkStatements Γ ts) (ts.map (.statement Γ)) := by
  induction ts with
  | nil => exact .nil _
  | cons t ts ih =>
    rw [checkStatements]
    exact .cons (Checked.done_unit _).symm fun _ _ => ih

theorem checkReturn_inTurn (n : Numbered) (ts : List Ast) : InTurn (checkReturn Γ n ts)
    (if Γ.method.isSome then (ts.take 1).map (.expression Γ) else []) := by
  unfold checkReturn
  cases Γ.method with
  | none => exact .nil _
  | some m =>
    cases ts with
    | nil => exact .nil _
    | cons v rest => exact .cons rfl fun _ _ => .nil _

theorem checkStatement_inTurn (s : Ast) :
    InTurn (checkStatement Γ s) (Task.statement Γ s).parts := by
  obtain ⟨n, ts⟩ := s
  rw [checkStatement.eq_def, Task.parts]
  cases hk : n.kind <;> simp only [hk]
  case returnType | argument | localVar => exact .nil _
  case block | thenBranch | elseBranch => exact checkStatements_inTurn ts
  case conditional =>
    rcases ts with _ | ⟨c, _ | ⟨t, _ | ⟨e, rest⟩⟩⟩
    · exact .nil _
    · exact .cons (Checked.done_unit _).symm fun _ _ => .nil _
    · refine .cons (Checked.done_unit _).symm fun _ _ => ?_
      exact .cons (Checked.done_unit _).symm fun _ _ => .nil _
    · refine .cons (Checked.done_unit _).symm fun _ _ => ?_
      exact .cons (Checked.done_unit _).symm fun _ _ => .single (Checked.done_unit _).symm
  case loop =>
    cases ts with
    | nil => exact .nil _
    | cons c body =>
      exact .cons (Checked.done_unit _).symm fun _ _ => checkStatements_inTurn body
  case condition => exact .single (Checked.done_unit _).symm
  case expression =>
    cases ts with
    | nil => exact .nil _
    | cons e rest => exact .cons rfl fun _ _ => .nil _
  case assignment name =>
    cases ts with
    | nil => exact .nil _
    | cons v rest => exact .cons rfl fun _ _ => .nil _
  case arrayAssignment name =>
    rcases ts with _ | ⟨i, _ | ⟨v, rest⟩⟩
    · exact .nil _
    · exact .cons rfl fun _ _ => .nil _
    · exact .cons rfl fun _ _ => .cons rfl fun _ _ => .nil _
  case ret => exact checkReturn_inTurn n ts
  all_goals exact .cons rfl fun _ _ => .nil _

/-! ## The class -/

variable {T : ClassTable}

theorem checkDeclared_ends (Γ : Context) (n : Numbered) (type : TypeName) :
    (Γ.checkDeclared n type).Ends := by
  unfold Context.checkDeclared
  split_ifs
  all_goals exact ⟨(), rfl⟩

theorem checkFields_ends (T : ClassTable) (members : List Ast) : (checkFields T members).Ends := by
  induction members with
  | nil => exact ⟨(), rfl⟩
  | cons m members ih =>
    rw [checkFields]
    split
    · obtain ⟨_, hdeclared⟩ := checkDeclared_ends { table := T } m.label _
      rw [Checked.bind_of_ok hdeclared]
      exact ih
    · exact ih

theorem checkMethods_inTurn (members : List Ast) :
    InTurn (checkMethods T members) (members.flatMap (Task.ofMember T)) := by
  induction members with
  | nil => exact .nil _
  | cons m members ih =>
    rw [checkMethods, List.flatMap_cons, Task.ofMember]
    cases m.kind.methodName? with
    | none => exact ih
    | some name =>
      dsimp only
      cases T.method? name with
      | none => exact ih
      | some info =>
        refine (checkStatements_inTurn m.children).append (fun hends => ?_) fun _ _ => ih
        refine checkStatements_ends fun t ht => ?_
        exact hends _ (List.mem_map_of_mem ht)

theorem checkClass_inTurn (t : Ast) : InTurn (checkClass T t) (Task.ofClass T t).parts := by
  rw [checkClass, Task.parts]
  cases hc : t.classTree with
  | error e => exact .nil _
  | ok c =>
    obtain ⟨_, hfields⟩ := checkFields_ends T c.children
    change InTurn (checkFields T c.children >>= fun _ => checkMethods T c.children) _
    exact (checkMethods_inTurn c.children).within
      (.bind_right (f := fun _ => checkMethods T c.children) hfields)

/-- **A task runs its parts in turn.** -/
theorem Task.run_inTurn (x : Task) : InTurn x.run x.parts := by
  cases x with
  | expression Γ e => exact (infer_inTurn e).within (.to_done _)
  | guard Γ c => exact checkCondition_inTurn c
  | statement Γ s => exact checkStatement_inTurn s
  | ofClass T t => exact checkClass_inTurn t

/-! ## Visits -/

variable {x y z : Task}

/-- **What is visited is run as a part of the whole.** -/
theorem Visits.within (h : Visits x y) : Within y.run x.run := by
  induction h with
  | start => exact .refl _
  | part _ hparts hbefore ih => exact (Task.run_inTurn _ _ _ _ hparts hbefore).trans ih

/-- What is visited in the course of something accepted is accepted. -/
theorem Visits.gives (h : Visits x y) (hx : x.run.Gives ()) : y.run.Gives () := by
  obtain ⟨_, hy⟩ := h.within.gives hx
  exact hy

/-- All that a task comes down to is visited if it is accepted. -/
theorem Visits.part_of_mem (h : Visits x y) (hx : x.run.Gives ()) (hz : z ∈ y.parts) :
    Visits x z := by
  obtain ⟨before, after, hparts⟩ := List.append_of_mem hz
  have hends := y.run_inTurn.all_end ⟨(), (h.gives hx).2⟩
  refine .part h hparts fun b hb => hends b ?_
  rw [hparts]
  exact List.mem_append_left _ hb

/-- The rule for the node of a task.  An expression has a type, and its operands have the types that
it asks for; a guard is a truth value; a value goes where it can be assigned. -/
def Task.Satisfied : Task → Prop
  | .expression Γ e => ∃ type, (infer Γ e).Gives (some type) ∧ Types Γ e.label e.children type
  | .guard Γ c => ∃ e type, Constant.guardOf? c = some e ∧ (infer Γ e).Gives (some type) ∧
      type.isBoolean = true
  | .statement Γ s => Checks Γ s.label s.children
  | .ofClass _ _ => True

theorem Task.satisfied_of_gives (h : x.run.Gives ()) : x.Satisfied := by
  cases x with
  | expression Γ e =>
    obtain ⟨found, hfound⟩ := (Within.to_done (infer Γ e)).gives h
    obtain ⟨type, rfl, htypes⟩ := infer_cases hfound
    exact ⟨type, hfound, htypes⟩
  | guard Γ c =>
    obtain ⟨n, ts⟩ := c
    rcases checkCondition_gives h with ⟨hk, e, rest, type, rfl, he, hbool⟩ | ⟨hk, type, he, hbool⟩
    · exact ⟨e, type, by simp only [Constant.guardOf?, hk, List.head?_cons], he, hbool⟩
    · refine ⟨.node n ts, type, ?_, he, hbool⟩
      unfold Constant.guardOf?
      dsimp only
      split
      · exact absurd ‹_› hk
      · rfl
  | statement Γ s =>
    obtain ⟨n, ts⟩ := s
    exact checkStatement_cases h
  | ofClass T t => trivial

/-- An expression without a type has been reported. -/
theorem error_of_infer_none {Γ : Context} {e : Ast} (h : (infer Γ e).outcome = .ok none) :
    ∃ d ∈ (infer Γ e).diagnostics, d.isError = true := by
  by_contra hnone
  have haccepted : Diagnostic.accepted (infer Γ e).diagnostics = true := by
    rw [Diagnostic.accepted, Bool.not_eq_true', Bool.eq_false_iff]
    exact fun hany => hnone (List.any_eq_true.mp hany)
  obtain ⟨type, heq, -⟩ := infer_cases ⟨haccepted, h⟩
  cases heq

/-- **A failed inference is always reported.**  No expression is without a type unless an error was
reported for it.  Reports are only ever added: those of a visited task are a piece of those of the
whole, whether or not an error ends it.  So if a class is checked to the end and no error is
reported, everything below it is visited and everything visited satisfies its rule. -/
theorem failed_inference_reported :
    (∀ Γ e, (infer Γ e).outcome = .ok none → ∃ d ∈ (infer Γ e).diagnostics, d.isError = true) ∧
      (∀ x y, Visits x y → y.run.diagnostics <:+: x.run.diagnostics) ∧
      ∀ T t, (checkClass T t).Gives () → ∀ x, Visits (.ofClass T t) x →
        x.Satisfied ∧ ∀ y ∈ x.parts, Visits (.ofClass T t) y := by
  refine ⟨fun Γ e => error_of_infer_none, fun x y h => h.within.reports, fun T t ht x hx => ?_⟩
  have hclass : (Task.ofClass T t).run.Gives () := ht
  exact ⟨Task.satisfied_of_gives (hx.gives hclass), fun y hy => hx.part_of_mem hclass hy⟩

/-- A class whose method compares an element of an array with a field. -/
def belowClass : Ast :=
  Tree.number 0 <| .classOf "Below" none [
    .field .int "limit",
    .method .boolean "below" [.argument .intArray "a"] [
      .returnValue (.binary .lt (.element (.identifier "a") (.int 0)) (.identifier "limit"))],
    .entry []]

def belowTable : ClassTable :=
  ⟨"Below", none, [], [⟨"limit", .ofDeclared .int⟩],
    [⟨"below", .ofDeclared .boolean, [⟨"a", .ofDeclared .intArray⟩], [], false⟩,
      ⟨"main", .void, [⟨"args", .stringArray⟩], [], true⟩]⟩

/-- The entry method may not read the field, also in parentheses; the other method may, and the
element that it compares is visited. -/
theorem belowClass_reported :
    let Γ : Context := { table := belowTable, method := some ⟨"main", true, .void⟩ }
    let read : Ast := Tree.number 0 (.parenthesis (.identifier "limit"))
    ((infer Γ read).outcome = .ok none ∧ ∃ d ∈ (infer Γ read).diagnostics, d.isError = true) ∧
      (checkClass belowTable belowClass).Gives () ∧
      ∃ Γ e, Visits (.ofClass belowTable belowClass) (.expression Γ e) ∧
        Tree.kind e = .arrayAccess ∧ Task.Satisfied (.expression Γ e) := by
  intro Γ read
  obtain ⟨hreported, -, hclass⟩ := failed_inference_reported
  have haccepted : (checkClass belowTable belowClass).Gives () := ⟨by decide, rfl⟩
  specialize hclass belowTable belowClass haccepted
  have hreturn := (hclass _ .start).2 _ (.tail _ (.tail _ (.head _)))
  have hcompare := (hclass _ hreturn).2 _ (.head _)
  have helement := (hclass _ hcompare).2 _ (.head _)
  exact ⟨⟨rfl, hreported Γ read rfl⟩, haccepted, _, _, helement, rfl, (hclass _ helement).1⟩

end Typing
end ClassCompiler
