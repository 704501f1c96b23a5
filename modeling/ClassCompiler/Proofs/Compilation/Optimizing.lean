import ClassCompiler.Proofs.Compilation.Emission
import ClassCompiler.Proofs.Machine.Edited

/-!
# Optimizing an accepted program

Optimizing puts literals in the place of expressions of their types, so an accepted program stays
one that can be accepted.  It stays one that can be emitted as well, unless a variable holds what is
not of its type.  A variable of the type of a superclass may hold an integer, and where a method is
called on the variable, optimizing would call it on the integer.

* `accepted_optimize_checks`: the optimized tree passes the checker.
* `optimize_compiles_iff`: the optimized tree can be emitted.
-/

namespace ClassCompiler

open Checked Constant Machine Typing
open Meaning (except_bind_eq_ok)

/-- Optimizing an accepted class that is strict about its constants comes to an end, and edits
it. -/
theorem optimize_edited_of_strict {T : ClassTable} {t : Ast} (hT : T.StrictScalars)
    (htable : (ClassTable.ofTree t).Gives T) (hcheck : (checkClass T t).Gives ()) (next : Nat) :
    EditedTree (.types T) t (Constant.optimize T next t).tree ∧
      ∃ count, (Constant.optimize T next t).outcome = .ok count := by
  have htypes := ClassTable.allTypes_isDeclared htable hcheck
  obtain ⟨c, hc, -⟩ := ClassTable.ofTree_gives htable
  have hwalk : WalkableClass T (Domain.types T) c := by
    refine walkableClass_of_accepted htable hcheck hc (p := fun _ _ => true) ?_ ?_
    · rintro Γ n name v rest rfl hk - h
      exact storesWell_of_accepted hT htypes hk h
    · exact Tree.everyBody_eq_true.mpr fun _ _ _ _ _ _ => Tree.everywhere_of_forall (fun _ => rfl) _
  obtain ⟨⟨c', hc', hedit⟩, houtcome⟩ := optimize_edited hc hwalk next
  refine ⟨fun d hd => ?_, houtcome⟩
  cases Except.ok.inj (hc.symm.trans hd)
  exact ⟨c', hc', hedit⟩

/-- A class in which there is much to compute: constants that reach a conditional, a loop and a
call, and a variable that holds an object of an imported class. -/
def budgetClass : Program :=
  .ofSource <| .program [.leaf (.importDeclaration ["io", "Ledger"])] <|
    .classOf "Budget" none [
      .field .int "total",
      .method .int "spend" [.argument .int "n", .argument (.ofClass "Ledger") "ledger"] [
        .localVar .int "limit",
        .localVar .boolean "open",
        .localVar .int "i",
        .assign "limit" (.binary .add (.binary .mul (.int 2) (.int 3)) (.parenthesis (.int 4))),
        .assign "open" (.negation (.binary .lt (.identifier "limit") (.int 7))),
        .ifElse (.binary .and (.identifier "open") (.boolean true))
          [.assign "total" (.binary .sub (.identifier "limit") (.identifier "n"))]
          [.expression (.invoke (.identifier "ledger") "close" [.identifier "limit"])],
        .assign "i" (.int 0),
        .loop (.binary .lt (.identifier "i") (.int 2))
          [.assign "i" (.binary .add (.identifier "i") (.int 1))],
        .expression (.invoke .this "spend" [.identifier "i", .identifier "ledger"]),
        .returnValue (.binary .div (.identifier "limit") (.identifier "i"))]]

/-- **An optimized program passes the checker.**  If an accepted program declares no superclass, and
neither its class nor an import is called `int` or `boolean`, then optimizing comes to an end, and
to check what it leaves against the same table succeeds without a diagnostic. -/
theorem accepted_optimize_checks {p : Program} {settings : Settings} {a : Analysis}
    (h : p.analyze settings = .ok a) (haccepted : a.accepted = true)
    (hT : a.table.StrictScalars) :
    (∃ count, (Constant.optimize a.table p.next p.tree).outcome = .ok count) ∧
      (checkClass a.table (Constant.optimize a.table p.next p.tree).tree).diagnostics = [] ∧
      (checkClass a.table (Constant.optimize a.table p.next p.tree).tree).outcome = .ok () := by
  obtain ⟨-, htable, hcheck⟩ := Program.analyze_gives h haccepted
  obtain ⟨hedit, houtcome⟩ := optimize_edited_of_strict hT htable hcheck p.next
  have hpure := checkClass_edited hT (ClassTable.allTypes_isDeclared htable hcheck) hcheck hedit
  rw [hpure]
  exact ⟨houtcome, rfl, rfl⟩

theorem budgetClass_optimize_checks :
    ∃ a, budgetClass.analyze {} = .ok a ∧ a.accepted = true ∧ a.table.StrictScalars ∧
      (Constant.optimize a.table budgetClass.next budgetClass.tree).outcome.toOption = some 14 ∧
      (checkClass a.table
        (Constant.optimize a.table budgetClass.next budgetClass.tree).tree).diagnostics = [] := by
  have hname : "Budget" ∉ ["int", "boolean"] := by decide
  have himports : ∀ path ∈ ["io.Ledger"], ClassTable.lastSegment path ∉ ["int", "boolean"] := by
    decide
  refine ⟨_, rfl, rfl, ⟨rfl, hname, himports⟩, by decide +kernel, ?_⟩
  exact (accepted_optimize_checks (p := budgetClass) rfl rfl ⟨rfl, hname, himports⟩).2.1

/-! ## Emitting what was optimized -/

namespace Constant

/-- An integer or a truth value goes to no local and no parameter of another type. -/
def keepsTypes (T : ClassTable) (method : String) : Ast → Bool
  | .node n ts =>
    match n.kind, ts with
    | .assignment name, v :: _ =>
      ((Domain.types T method).eval? v).all fun τ =>
        !isTracked T method name || variableScalar? T method name == some τ
    | _, _ => true

theorem storesWell_of_keepsTypes {T : ClassTable} {method name : String} {n : Numbered} {v : Ast}
    {rest : List Ast} (hk : n.kind = .assignment name)
    (h : keepsTypes T method (.node n (v :: rest)) = true) :
    StoresWell (isTracked T method) (.types T method) name v := by
  intro τ hτ htracked
  simp only [keepsTypes, hk, hτ, Option.all_some, htracked, Bool.not_true, Bool.false_or] at h
  exact beq_iff_eq.mp h

end Constant

section

variable {T : ClassTable} {t c : Ast}

/-- Optimizing an accepted class comes to an end, and edits it, whatever its variables hold. -/
theorem optimize_edited_of_accepted (htable : (ClassTable.ofTree t).Gives T)
    (hcheck : (checkClass T t).Gives ()) (hc : t.classTree = .ok c) (next : Nat) :
    (∃ c', (Constant.optimize T next t).tree.classTree = .ok c' ∧
      EditedClass (.untyped T) c c') ∧
      ∃ count, (Constant.optimize T next t).outcome = .ok count := by
  have hwalk : WalkableClass T (Domain.untyped T) c := by
    refine walkableClass_of_accepted htable hcheck hc (p := fun _ _ => true) ?_ ?_
    · rintro Γ n name v rest rfl - - - x - htracked
      exact Domain.untyped_ofName?.mpr htracked
    · exact Tree.everyBody_eq_true.mpr fun _ _ _ _ _ _ => Tree.everywhere_of_forall (fun _ => rfl) _
  exact optimize_edited hc hwalk next

/-- Optimizing a class leaves it intact if the variables of its methods hold what is of their
types. -/
theorem optimize_intact (htable : (ClassTable.ofTree t).Gives T)
    (hcheck : (checkClass T t).Gives ()) (hc : t.classTree = .ok c)
    (hemits : c.everyBody (emits T) = true) (hkeeps : c.everyBody (keepsTypes T) = true)
    (next : Nat) {c' : Ast} (hc' : (Constant.optimize T next t).tree.classTree = .ok c') :
    c'.everyBody (fun _ => isIntact) = true := by
  have hwalk : WalkableClass T (Domain.types T) c := by
    refine walkableClass_of_accepted htable hcheck hc ?_ hkeeps
    rintro Γ n name v rest rfl hk hkeep -
    exact storesWell_of_keepsTypes hk hkeep
  obtain ⟨⟨c'', hc'', hedit⟩, -⟩ := optimize_edited hc hwalk next
  cases Except.ok.inj (hc'.symm.trans hc'')
  exact everyBody_intact_of_edited hedit (spares_of_accepted htable hcheck hc hemits)

end

/-- What optimizing changes, if it comes to an end. -/
theorem Analysis.optimize_eq_ok {a : Analysis} {count : Nat}
    (hsettings : a.settings.optimize = true)
    (hcount : (Constant.optimize a.table a.program.next a.program.tree).outcome = .ok count) :
    ∃ a', a.optimize = .ok (a', count) ∧ a'.table = a.table ∧ a'.settings = a.settings ∧
      a'.program.tree = (Constant.optimize a.table a.program.next a.program.tree).tree := by
  unfold Analysis.optimize
  rw [if_pos hsettings]
  exact ⟨_, except_bind_eq_ok.mpr ⟨count, hcount, rfl⟩, rfl, rfl, rfl⟩

namespace Program

/-- An analysis looks at the settings only to keep them. -/
theorem analyze_with {p : Program} {settings : Settings} {a : Analysis}
    (h : p.analyze settings = .ok a) (settings' : Settings) :
    p.analyze settings' = .ok { a with settings := settings' } := by
  obtain ⟨table, htable, h⟩ := except_bind_eq_ok.mp h
  cases Except.ok.inj h
  exact except_bind_eq_ok.mpr ⟨table, htable, rfl⟩

/-- With optimizing, an accepted program compiles if the code of the optimized tree can be
emitted. -/
theorem compiles_optimized_iff {p : Program} {settings : Settings} {a : Analysis}
    (h : p.analyze settings = .ok a) (haccepted : a.accepted = true) {count : Nat}
    (hcount : (Constant.optimize a.table p.next p.tree).outcome = .ok count) :
    p.Compiles { settings with optimize := true } ↔
      ∃ code, ThreeAddress.lowerClass a.table (Constant.optimize a.table p.next p.tree).tree =
        .ok code ∧ IsOk (classText a.table settings.budget code) := by
  obtain ⟨rfl, -⟩ := analyze_gives h haccepted
  have ha := analyze_with h { settings with optimize := true }
  obtain ⟨a', hoptimize, htable, hsettings, htree⟩ := Analysis.optimize_eq_ok
    (a := { a with settings := { settings with optimize := true } }) rfl hcount
  have hlower {l : Lowered} : a'.lower = .ok l ↔
      ThreeAddress.lowerClass a.table
        (Constant.optimize a.table a.program.next a.program.tree).tree = .ok l.code ∧
      l.settings = { settings with optimize := true } := by
    rw [Analysis.lower_eq_ok, htable, htree, hsettings]
  rw [compiles_iff]
  constructor
  · rintro ⟨a₁, ha₁, -, a₂, k, hoptimize', l, hl, hok⟩
    cases Except.ok.inj (ha.symm.trans ha₁)
    cases Except.ok.inj (hoptimize.symm.trans hoptimize')
    obtain ⟨hcode, hl⟩ := hlower.mp hl
    rw [Lowered.assemble_isOk, htable, hl] at hok
    exact ⟨l.code, hcode, hok⟩
  · rintro ⟨code, hcode, hok⟩
    refine ⟨_, ha, haccepted, a', count, hoptimize, ⟨code, _⟩, hlower.mpr ⟨hcode, rfl⟩, ?_⟩
    rw [Lowered.assemble_isOk, htable]
    exact hok

/-- Each method of the optimized class is intact. -/
def optimizesIntact (p : Program) (T : ClassTable) : Bool :=
  match (Constant.optimize T p.next p.tree).tree.classTree with
  | .ok c => c.everyBody fun _ => isIntact
  | .error _ => true

/-- The variables of the methods hold what is of their types. -/
def keepsTypes (p : Program) (T : ClassTable) : Bool :=
  match p.tree.classTree with
  | .ok c => c.everyBody (Constant.keepsTypes T)
  | .error _ => true

end Program

/-- A class with a variable of the type of its superclass.  It is given an integer, and then a
method is called on it. -/
def gaugeClass : Program :=
  .ofSource <| .classOf "Meter" (some "Gauge") [
    .method .int "read" [] [
      .localVar (.ofClass "Gauge") "gauge",
      .assign "gauge" (.int 1),
      .returnValue (.invoke (.identifier "gauge") "level" [])]]

end ClassCompiler
