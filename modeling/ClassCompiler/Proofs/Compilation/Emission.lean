import ClassCompiler.Proofs.Compilation.Lowering
import ClassCompiler.Proofs.Machine.Emittable

/-!
# Emitting an accepted program

That a program is accepted does not mean that it can be emitted.  A method may be called on what a
method of an imported class gives, and the machine has no members for that.  What can be emitted is
characterized by the tree: the name of a class stands only where a method is called on it, and
methods are called on objects.

* `Program.Compiles`: compilation ends with a text for the assembler.
* `Program.emits`: the condition on the tree.
* `accepted_assembles_iff`: accepted programs that can be emitted.
-/

namespace ClassCompiler

open Machine
open Meaning (except_bind_eq_ok)

theorem eq_ok_of_toOption {α : Type} {x : Except Error α} {a : α} (h : x.toOption = some a) :
    x = .ok a := by
  cases x with
  | error e => cases h
  | ok b =>
    cases h
    rfl

/-- Compilation succeeds, and there is a text for the assembler. -/
def Program.Compiles (p : Program) (settings : Settings) : Prop :=
  ∃ c, p.compile settings = .ok c ∧ c.assembly.isSome = true

/-- To compile can be decided by evaluation. -/
theorem Program.compiles_of_toOption {p : Program} {settings : Settings}
    (h : ((p.compile settings).toOption.map fun c => c.assembly.isSome) = some true) :
    p.Compiles settings := by
  obtain ⟨c, hc, hassembly⟩ := Option.map_eq_some_iff.mp h
  exact ⟨c, eq_ok_of_toOption hc, hassembly⟩

/-- What there is on the way to a text for the assembler. -/
theorem Program.compile_eq_ok {p : Program} {settings : Settings} {c : Compilation}
    {assembly : Assembly} (h : p.compile settings = .ok c) (hassembly : c.assembly = some assembly) :
    ∃ a count l, p.analyze settings = .ok a ∧ a.accepted = true ∧
      a.optimize = .ok (c.analysis, count) ∧ c.lowered = some l ∧ c.analysis.lower = .ok l ∧
        l.assemble c.analysis.table = .ok assembly := by
  unfold Program.compile at h
  obtain ⟨a, ha, h⟩ := except_bind_eq_ok.mp h
  split at h
  · rename_i haccepted
    obtain ⟨⟨a', count⟩, hoptimize, h⟩ := except_bind_eq_ok.mp h
    obtain ⟨l, hl, h⟩ := except_bind_eq_ok.mp h
    obtain ⟨assembly', hassembly', h⟩ := except_bind_eq_ok.mp h
    cases Except.ok.inj h
    cases Option.some.inj hassembly
    exact ⟨a, count, l, ha, haccepted, hoptimize, rfl, hl, hassembly'⟩
  · cases Except.ok.inj h
    cases hassembly

/-- The way to a text for the assembler. -/
theorem Program.compiles_iff {p : Program} {settings : Settings} :
    p.Compiles settings ↔ ∃ a, p.analyze settings = .ok a ∧ a.accepted = true ∧
      ∃ a' count, a.optimize = .ok (a', count) ∧
        ∃ l, a'.lower = .ok l ∧ IsOk (l.assemble a'.table) := by
  constructor
  · rintro ⟨c, hc, hassembly⟩
    obtain ⟨assembly, hassembly⟩ := Option.isSome_iff_exists.mp hassembly
    obtain ⟨a, count, l, ha, haccepted, hoptimize, -, hl, hassemble⟩ :=
      Program.compile_eq_ok hc hassembly
    exact ⟨a, ha, haccepted, c.analysis, count, hoptimize, l, hl, assembly, hassemble⟩
  · rintro ⟨a, ha, haccepted, a', count, hoptimize, l, hl, assembly, hassemble⟩
    refine ⟨⟨a', some l, some assembly⟩, except_bind_eq_ok.mpr ⟨a, ha, ?_⟩, rfl⟩
    rw [if_pos haccepted]
    refine except_bind_eq_ok.mpr ⟨(a', count), hoptimize, ?_⟩
    refine except_bind_eq_ok.mpr ⟨l, hl, ?_⟩
    exact except_bind_eq_ok.mpr ⟨assembly, hassemble, rfl⟩

theorem Program.analyze_settings {p : Program} {settings : Settings} {a : Analysis}
    (h : p.analyze settings = .ok a) : a.settings = settings := by
  obtain ⟨table, -, h⟩ := except_bind_eq_ok.mp h
  cases Except.ok.inj h
  rfl

/-- Without optimizing, an accepted program compiles if its code can be assembled. -/
theorem Program.compiles_iff_of_lower {p : Program} {settings : Settings} {a : Analysis}
    {l : Lowered} (h : p.analyze settings = .ok a) (haccepted : a.accepted = true)
    (hl : a.lower = .ok l) (hsettings : settings.optimize = false) :
    p.Compiles settings ↔ IsOk (l.assemble a.table) := by
  have hoptimize : a.optimize = .ok (a, 0) := by
    unfold Analysis.optimize
    rw [Program.analyze_settings h, hsettings]
    rfl
  rw [Program.compiles_iff]
  constructor
  · rintro ⟨a', ha', -, b, count, hb, l', hl', hok⟩
    cases Except.ok.inj (h.symm.trans ha')
    cases Except.ok.inj (hoptimize.symm.trans hb)
    cases Except.ok.inj (hl.symm.trans hl')
    exact hok
  · intro hok
    exact ⟨a, h, haccepted, a, 0, hoptimize, l, hl, hok⟩

theorem Lowered.assemble_isOk {l : Lowered} {T : ClassTable} :
    IsOk (l.assemble T) ↔ IsOk (classText T l.settings.budget l.code) :=
  isOk_bind_of fun _ => isOk_pure _

/-- In the methods of the class, the name of a class stands only where a method is called on it, and
methods are called on objects. -/
def Program.emits (p : Program) (T : ClassTable) : Bool :=
  match p.tree.classTree with
  | .ok c => c.everyBody (Machine.emits T)
  | .error _ => true

/-- A class that calls a method on what a method of an imported class gives. -/
def relayClass : Program :=
  .ofSource <| .program [.leaf (.importDeclaration ["io"])] <|
    .classOf "Relay" none [
      .method .void "send" [] [
        .expression (.invoke (.invoke (.identifier "io") "open" []) "close" [])]]

/-- Acceptance is not enough: the code of an accepted class that needs a few slots only cannot be
assembled, for want of a type that has members. -/
theorem relayClass_not_assembled :
    ∃ a l, relayClass.analyze {} = .ok a ∧ a.accepted = true ∧ a.lower = .ok l ∧
      (∀ m ∈ l.code.methods, slotsNeeded m ≤ 65534) ∧
      l.assemble a.table = .error (.unknownType "member access on.i32") ∧
      ¬ relayClass.Compiles {} := by
  refine ⟨_, _, rfl, rfl, rfl, by decide, rfl, ?_⟩
  rw [Program.compiles_iff_of_lower (p := relayClass) rfl rfl rfl rfl]
  exact not_isOk_error _

/-- **An accepted program can be emitted exactly if** the name of a class stands only where a method
is called on it, methods are called on objects only, and no method needs more slots than there are.
Its code is there in any case, and to compile it without optimizing is to assemble this code. -/
theorem accepted_assembles_iff {p : Program} {settings : Settings} {a : Analysis}
    (h : p.analyze settings = .ok a) (haccepted : a.accepted = true) :
    ∃ l, a.lower = .ok l ∧
      (IsOk (l.assemble a.table) ↔
        p.emits a.table = true ∧ ∀ m ∈ l.code.methods, slotsNeeded m ≤ maxSlots) ∧
      (settings.optimize = false → (p.Compiles settings ↔ IsOk (l.assemble a.table))) := by
  obtain ⟨rfl, htable, hcheck⟩ := Program.analyze_gives h haccepted
  obtain ⟨code, hcode⟩ := ThreeAddress.lowerClass_succeeds htable hcheck
  obtain ⟨c, hc, -⟩ := ClassTable.ofTree_gives htable
  have hl : a.lower = .ok ⟨code, a.settings⟩ := Analysis.lower_eq_ok.mpr ⟨hcode, rfl⟩
  refine ⟨⟨code, a.settings⟩, hl, ?_, Program.compiles_iff_of_lower h haccepted hl⟩
  have hemits : a.program.emits a.table = c.everyBody (Machine.emits a.table) := by
    unfold Program.emits
    rw [hc]
  rw [hemits, Lowered.assemble_isOk]
  exact classText_isOk_iff htable hcheck hc hcode _

theorem fillClass_assembles :
    ∃ a l, fillClass.analyze {} = .ok a ∧ a.accepted = true ∧ a.lower = .ok l ∧
      fillClass.emits a.table = true ∧ l.code.methods.map slotsNeeded = [3, 13] ∧
      IsOk (l.assemble a.table) ∧ fillClass.Compiles {} := by
  have hrun : ((fillClass.analyze {}).toOption.bind fun a => a.lower.toOption.map fun l =>
      (a.accepted, fillClass.emits a.table, l.code.methods.map slotsNeeded)) =
        some (true, true, [3, 13]) := by
    decide +kernel
  obtain ⟨a, ha, hrun⟩ := Option.bind_eq_some_iff.mp hrun
  obtain ⟨l', hl', hrun⟩ := Option.map_eq_some_iff.mp hrun
  simp only [Prod.mk.injEq] at hrun
  obtain ⟨haccepted, hemits, hslots⟩ := hrun
  have ha := eq_ok_of_toOption ha
  obtain ⟨l, hl, hassemble, hcompile⟩ := accepted_assembles_iff ha haccepted
  obtain rfl : l = l' := Except.ok.inj (hl.symm.trans (eq_ok_of_toOption hl'))
  have hlimit : ∀ m ∈ l.code.methods, slotsNeeded m ≤ maxSlots := by
    intro m hm
    have hmem : slotsNeeded m ∈ [3, 13] := hslots ▸ List.mem_map_of_mem hm
    have hall : ∀ k ∈ [3, 13], k ≤ maxSlots := by decide
    exact hall _ hmem
  have hok := hassemble.mpr ⟨hemits, hlimit⟩
  exact ⟨a, l, ha, haccepted, hl, hemits, hslots, hok, (hcompile rfl).mpr hok⟩

end ClassCompiler
