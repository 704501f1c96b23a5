import ClassCompiler.Proofs.Compilation.Lowering
import ClassCompiler.Proofs.ThreeAddress.VoidFree

/-!
# The form of lowered programs

What analysis accepts is lowered to code of a certain form.  Analysis does not ask that a method
with a result returns in every case, nor that the arguments of a call have values; where a program is
written so, its code shows it.

* `accepted_lower_voidFree_iff`: where the code of a method handles values of type void.
* `accepted_lower_ends_iff`: how the code of a method ends.
-/

namespace ClassCompiler

open ThreeAddress

/-- A class with a method that is called for its effect, and once for a value that it does not
have. -/
def logClass : Program :=
  .ofSource <| .classOf "Log" none [
    .method .void "mark" [] [],
    .method .void "touch" [] [.expression (.invoke .this "mark" [])],
    .method .int "size" [.argument .int "n"] [
      .returnValue (.invoke .this "size" [.invoke .this "mark" []])]]

theorem logClass_assigns_void :
    ∃ a l, logClass.analyze {} = .ok a ∧ a.accepted = true ∧ a.table.DeclaresValues ∧
      a.lower = .ok l ∧ ∃ m ∈ l.code.methods, ∃ t0 t1 c c',
        m.code = [.assign t0 (.call c), .assign t1 (.call c'), .ret (some (.var t1))] ∧
        t0.type = .void ∧ c'.args = [.var t0] ∧ c'.params = [.int] := by
  refine ⟨_, _, rfl, rfl, ⟨by decide, by decide⟩, rfl, ?_⟩
  refine ⟨_, .tail _ (.tail _ (.head _)), _, _, _, _, rfl, rfl, rfl, rfl⟩

/-- **Where the code of a method handles values of type void.**  In the code of an accepted program
that declares no variable of type void, no field is void; and no variable of a method, no value that
its instructions handle and no parameter of a call in it is void exactly if no call of a method
without a result stands where its value is used. -/
theorem accepted_lower_voidFree_iff {p : Program} {settings : Settings} {a : Analysis}
    (h : p.analyze settings = .ok a) (haccepted : a.accepted = true)
    (hvalues : a.table.DeclaresValues) :
    ∃ l c, a.lower = .ok l ∧ p.tree.classTree = .ok c ∧
      (∀ x ∈ l.code.fields, x.type ≠ .void) ∧
      List.Forall₂ (fun member m => m.VoidFree ↔ usesValues a.table member = true) c.methods
        l.code.methods := by
  obtain ⟨rfl, htable, hcheck⟩ := Program.analyze_gives h haccepted
  obtain ⟨code, hcode⟩ := lowerClass_succeeds htable hcheck
  obtain ⟨c, hc, -⟩ := Meaning.except_bind_eq_ok.mp hcode
  refine ⟨⟨code, a.settings⟩, c, Analysis.lower_eq_ok.mpr ⟨hcode, rfl⟩, hc, ?_⟩
  exact lowerClass_voidFree htable hcheck hvalues hc hcode

theorem logClass_lower_voidFree :
    ∃ a l c, logClass.analyze {} = .ok a ∧ a.accepted = true ∧ a.table.DeclaresValues ∧
      a.lower = .ok l ∧ logClass.tree.classTree = .ok c ∧
      c.methods.map (usesValues a.table) = [true, true, false] ∧
      (∀ x ∈ l.code.fields, x.type ≠ .void) ∧
      List.Forall₂ (fun member m => m.VoidFree ↔ usesValues a.table member = true) c.methods
        l.code.methods := by
  obtain ⟨l, c, hl, hc, hfree⟩ :=
    accepted_lower_voidFree_iff (show logClass.analyze {} = .ok _ from rfl) rfl
      ⟨by decide, by decide⟩
  refine ⟨_, l, c, rfl, rfl, ⟨by decide, by decide⟩, hl, hc, ?_, hfree⟩
  cases Except.ok.inj hc
  rfl

/-- A class with a method that returns in one case only. -/
def signClass : Program :=
  .ofSource <| .classOf "Sign" none [
    .method .int "sign" [.argument .int "n"] [
      .ifElse (.binary .lt (.identifier "n") (.int 0))
        [.returnValue (.binary .sub (.int 0) (.int 1))] []]]

theorem signClass_runs_off :
    ∃ a l, signClass.analyze {} = .ok a ∧ a.accepted = true ∧ a.lower = .ok l ∧
      ∃ m ∈ l.code.methods, m.result = .int ∧ m.code.getLast? = some (.label "EndIf_0") ∧
        Relation.ReflTransGen (Flows m.code) 0 m.code.length := by
  refine ⟨_, _, rfl, rfl, rfl, _, List.mem_cons_self, rfl, rfl, ?_⟩
  -- To the test, over the return to the label of the case that has no code, and past the end.
  generalize hcode : Method.code _ = code
  have htest : Flows code 0 1 := by
    subst hcode
    exact .next rfl (by rfl)
  have helse : Flows code 1 5 := by
    subst hcode
    exact .jump rfl (by rfl) rfl
  have hlabel : Flows code 5 6 := by
    subst hcode
    exact .next rfl (by rfl)
  have hend : Flows code 6 code.length := by
    subst hcode
    exact .next rfl (by rfl)
  exact (((Relation.ReflTransGen.single htest).tail helse).tail hlabel).tail hend

/-- **How the code of a method ends.**  In the code of an accepted program, the last instruction of
a method is a return or a jump exactly if the method has no result or its last statement is a
return; then something follows every label, and nothing but returns leaves the code. -/
theorem accepted_lower_ends_iff {p : Program} {settings : Settings} {a : Analysis}
    (h : p.analyze settings = .ok a) (haccepted : a.accepted = true) :
    ∃ l c, a.lower = .ok l ∧ p.tree.classTree = .ok c ∧
      List.Forall₂ EndsAsWritten c.methods l.code.methods := by
  obtain ⟨rfl, htable, hcheck⟩ := Program.analyze_gives h haccepted
  obtain ⟨code, hcode⟩ := lowerClass_succeeds htable hcheck
  obtain ⟨c, hc, -⟩ := Meaning.except_bind_eq_ok.mp hcode
  refine ⟨⟨code, a.settings⟩, c, Analysis.lower_eq_ok.mpr ⟨hcode, rfl⟩, hc, ?_⟩
  exact lowerClass_endsAsWritten hc hcode

theorem greetingClass_lower_ends :
    ∃ a l c, greetingClass.analyze {} = .ok a ∧ a.accepted = true ∧ a.lower = .ok l ∧
      greetingClass.tree.classTree = .ok c ∧
      c.methods.map (fun m => Tree.endsInReturn m.children) = [true, true, false] ∧
      List.Forall₂ EndsAsWritten c.methods l.code.methods := by
  obtain ⟨l, c, hl, hc, hends⟩ := accepted_lower_ends_iff (p := greetingClass) rfl rfl
  refine ⟨_, l, c, rfl, rfl, hl, hc, ?_, hends⟩
  cases Except.ok.inj hc
  rfl

end ClassCompiler
