import ClassCompiler.Compilation
import ClassCompiler.Tree.Construct
import ClassCompiler.Proofs.ThreeAddress.Method
import ClassCompiler.Proofs.ThreeAddress.WellTyped

/-!
# Lowering an accepted program

What analysis accepts, lowering takes, and the code that comes out does what the tree does.

* `accepted_lower_succeeds`: lowering an accepted program does not fail.
* `accepted_lower_implements`: each method of its code behaves like its tree.
* `accepted_lower_wellTyped`: its instructions agree with the types of their operands.
-/

namespace ClassCompiler

open Checked Meaning

/-- An accepted analysis, with what was found acceptable. -/
theorem Program.analyze_gives {p : Program} {settings : Settings} {a : Analysis}
    (h : p.analyze settings = .ok a) (haccepted : a.accepted = true) :
    a.program = p ∧ (ClassTable.ofTree p.tree).Gives a.table ∧
      (Typing.checkClass a.table p.tree).Gives () := by
  obtain ⟨table, htable, h⟩ := except_bind_eq_ok.mp h
  cases Except.ok.inj h
  obtain ⟨T, hT, hrest⟩ := bind_gives.mp (show p.check.Gives table from ⟨haccepted, htable⟩)
  obtain ⟨_, hcheck, hpure⟩ := bind_gives.mp hrest
  cases pure_gives.mp hpure
  exact ⟨rfl, hT, hcheck⟩

theorem Analysis.lower_eq_ok {a : Analysis} {l : Lowered} :
    a.lower = .ok l ↔
      ThreeAddress.lowerClass a.table a.program.tree = .ok l.code ∧ l.settings = a.settings := by
  unfold Analysis.lower
  rw [except_bind_eq_ok]
  constructor
  · rintro ⟨code, hcode, h⟩
    cases Except.ok.inj h
    exact ⟨hcode, rfl⟩
  · rintro ⟨hcode, hsettings⟩
    obtain ⟨code, settings⟩ := l
    cases hsettings
    exact ⟨code, hcode, rfl⟩

/-- A class that fills an array: a field, a loop, a call, and an element that is assigned. -/
def fillClass : Program :=
  .ofSource <| .classOf "Fill" none [
    .field .intArray "cells",
    .method .int "size" [] [.returnValue (.length (.identifier "cells"))],
    .method .int "fill" [.argument .int "n"] [
      .localVar .int "i",
      .assign "cells" (.newArray (.identifier "n")),
      .assign "i" (.int 0),
      .loop (.binary .lt (.identifier "i") (.invoke .this "size" [])) [
        .ifElse (.binary .and (.binary .lt (.identifier "i") (.int 3)) (.boolean true))
          [.assignElement "cells" (.identifier "i") (.binary .mul (.identifier "i") (.int 7))]
          [.assignElement "cells" (.identifier "i") (.identifier "n")],
        .assign "i" (.binary .add (.identifier "i") (.int 1))],
      .returnValue (.identifier "i")]]

/-- **Lowering an accepted program succeeds**: analysis without an error leaves no tree that
lowering refuses and no type that has no values. -/
theorem accepted_lower_succeeds {p : Program} {settings : Settings} {a : Analysis}
    (h : p.analyze settings = .ok a) (haccepted : a.accepted = true) : ∃ l, a.lower = .ok l := by
  obtain ⟨rfl, htable, hcheck⟩ := Program.analyze_gives h haccepted
  obtain ⟨code, hcode⟩ := ThreeAddress.lowerClass_succeeds htable hcheck
  exact ⟨⟨code, a.settings⟩, Analysis.lower_eq_ok.mpr ⟨hcode, rfl⟩⟩

theorem fillClass_lower_succeeds :
    ∃ a, fillClass.analyze {} = .ok a ∧ a.accepted = true ∧ ∃ l, a.lower = .ok l := by
  exact ⟨_, rfl, rfl, accepted_lower_succeeds (p := fillClass) rfl rfl⟩

/-- **Lowering preserves meaning.**  The code of an accepted program has the methods of the tree, in
their order, and each behaves like its tree in any world, on any object and from any values of its
parameters and locals: the same outcome, with the same fault or result and the same values left in
parameters and locals, after the same exchanges with the world, or no end for both. -/
theorem accepted_lower_implements {p : Program} {settings : Settings} {a : Analysis}
    (h : p.analyze settings = .ok a) (haccepted : a.accepted = true) :
    ∃ l, a.lower = .ok l ∧
      List.Forall₂ (Implements a.table) (meanings a.table a.program.tree) l.code.methods := by
  obtain ⟨rfl, htable, hcheck⟩ := Program.analyze_gives h haccepted
  obtain ⟨code, hcode⟩ := ThreeAddress.lowerClass_succeeds htable hcheck
  exact ⟨⟨code, a.settings⟩, Analysis.lower_eq_ok.mpr ⟨hcode, rfl⟩, lowerClass_implements hcode⟩

theorem fillClass_lower_implements :
    ∃ a, fillClass.analyze {} = .ok a ∧ a.accepted = true ∧
      (meanings a.table a.program.tree).map Prod.fst = ["size", "fill"] ∧
      ∃ l, a.lower = .ok l ∧
        List.Forall₂ (Implements a.table) (meanings a.table a.program.tree) l.code.methods := by
  exact ⟨_, rfl, rfl, rfl, accepted_lower_implements (p := fillClass) rfl rfl⟩

/-- A class with strings, whose methods are typed by their place: assigned to a variable and to a
field, returned, and run for their effect. -/
def greetingClass : Program :=
  .ofSource <| .classOf "Greeting" none [
    .field (.ofClass "String") "last",
    .field .intArray "counts",
    .method (.ofClass "String") "greet" [.argument (.ofClass "String") "name", .argument .int "k"] [
      .localVar (.ofClass "String") "text",
      .assign "text" (.parenthesis (.invoke (.identifier "name") "trim" [])),
      .assign "last" (.invoke (.invoke (.identifier "text") "concat" [.string "!"]) "trim" []),
      .assignElement "counts" (.identifier "k") (.invoke .this "count" [.identifier "counts"]),
      .expression (.invoke (.identifier "last") "notify" []),
      .returnValue (.invoke (.identifier "last") "toUpperCase" [.identifier "k"])],
    .method .int "count" [.argument .intArray "values"] [
      .ifElse (.binary .and (.binary .gt (.length (.identifier "values")) (.int 0))
          (.negation (.boolean false)))
        [.returnValue (.element (.identifier "values") (.int 0))] [],
      .returnValue (.int 0)],
    .entry [
      .localVar (.ofClass "Greeting") "g",
      .assign "g" (.newObject "Greeting"),
      .loop (.binary .lt (.length (.identifier "args")) (.int 3))
        [.expression (.invoke (.identifier "g") "greet" [.string "you", .int 1])]]]

/-- **Lowering preserves types.**  In the code of an accepted program that declares no import and no
superclass, and whose class is not called like a built-in type, every instruction agrees with the
types of its operands, but for the targets and the arguments of calls. -/
theorem accepted_lower_wellTyped {p : Program} {settings : Settings} {a : Analysis}
    (h : p.analyze settings = .ok a) (haccepted : a.accepted = true) (hT : a.table.StandsAlone) :
    ∃ l, a.lower = .ok l ∧
      ∀ m ∈ l.code.methods, ∀ i ∈ m.code, i.WellTyped l.code.fields m.result := by
  obtain ⟨rfl, htable, hcheck⟩ := Program.analyze_gives h haccepted
  obtain ⟨code, hcode⟩ := ThreeAddress.lowerClass_succeeds htable hcheck
  refine ⟨⟨code, a.settings⟩, Analysis.lower_eq_ok.mpr ⟨hcode, rfl⟩, ?_⟩
  intro m hm
  exact ThreeAddress.lowerClass_wellTyped hT htable hcheck hcode hm

theorem greetingClass_lower_wellTyped :
    ∃ a, greetingClass.analyze {} = .ok a ∧ a.accepted = true ∧ a.table.StandsAlone ∧
      ∃ l, a.lower = .ok l ∧
        ∀ m ∈ l.code.methods, ∀ i ∈ m.code, i.WellTyped l.code.fields m.result := by
  have hname : "Greeting" ∉ ["int", "boolean", "void", "String"] := by decide
  refine ⟨_, rfl, rfl, ⟨rfl, rfl, hname⟩, ?_⟩
  exact accepted_lower_wellTyped (p := greetingClass) rfl rfl ⟨rfl, rfl, hname⟩

end ClassCompiler
