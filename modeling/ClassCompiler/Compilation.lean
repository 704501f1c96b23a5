import ClassCompiler.Constant.Optimize
import ClassCompiler.Machine.ClassText
import ClassCompiler.ThreeAddress.Lower
import ClassCompiler.Tree.Document
import ClassCompiler.Typing.Statement
import ClassCompiler.Settings

/-!
# Compilation

The way of a class from its tree to the text for the assembler, by what there is after each part of
the way:

* `Program`: a numbered tree.
* `Analysis`: the tree with its symbol table and what was reported about it, before or after
  optimizing.
* `Lowered`: three-address code.
* `Assembly`: the text for the assembler.

A program about which an error was reported has an analysis and no more.  The name of the input
travels with the settings.
-/

namespace ClassCompiler

open ThreeAddress (ClassCode)

/-- A numbered tree, with the number that a new node gets. -/
structure Program where
  tree : Ast
  next : Nat

/-- A tree that was checked. -/
structure Analysis where
  program : Program
  table : ClassTable
  diagnostics : List Diagnostic
  settings : Settings

/-- Three-address code of a class. -/
structure Lowered where
  code : ClassCode
  settings : Settings

/-- The text of a class for the assembler. -/
structure Assembly where
  className : String
  text : String
  settings : Settings

/-- What became of a class.  There is no code if the analysis reported an error. -/
structure Compilation where
  analysis : Analysis
  lowered : Option Lowered := none
  assembly : Option Assembly := none

/-- The program of a tree as it was written down. -/
def Program.ofSource (t : Source) : Program :=
  ⟨t.number 0, t.size⟩

/-- The tree of the program, without its numbers. -/
def Program.source (p : Program) : Source :=
  p.tree.source

/-- Collects the declarations and checks every method. -/
def Program.check (p : Program) : Checked ClassTable := do
  let table ← ClassTable.ofTree p.tree
  Typing.checkClass table p.tree
  return table

/-- The analysis of a program. -/
def Program.analyze (p : Program) (settings : Settings) : Except Error Analysis := do
  let checked := p.check
  let table ← checked.outcome
  return { program := p, table, diagnostics := checked.diagnostics, settings }

namespace Analysis

/-- Nothing that was reported is an error. -/
def accepted (a : Analysis) : Bool :=
  Diagnostic.accepted a.diagnostics

/-- Optimizes the tree if the settings ask for it; gives the number of replacements. -/
def optimize (a : Analysis) : Except Error (Analysis × Nat) :=
  if a.settings.optimize then do
    let result := Constant.optimize a.table a.program.next a.program.tree
    let count ← result.outcome
    return ({ a with
      program := ⟨result.tree, result.log.next⟩
      diagnostics := a.diagnostics ++ result.diagnostics }, count)
  else .ok (a, 0)

/-- Lowers the tree. -/
def lower (a : Analysis) : Except Error Lowered := do
  return { code := ← ThreeAddress.lowerClass a.table a.program.tree, settings := a.settings }

end Analysis

/-- The number of slots that methods announce. -/
def Settings.budget (s : Settings) : Nat :=
  match s.slotBudget with
  | some n => n.toNat
  | none => Machine.defaultBudget

/-- The text for the assembler. -/
def Lowered.assemble (l : Lowered) (T : ClassTable) : Except Error Assembly := do
  return {
    className := l.code.name
    text := ← Machine.classText T l.settings.budget l.code
    settings := l.settings }

namespace Compilation

/-- There is a text for the assembler, and no error. -/
def success (c : Compilation) : Bool :=
  c.analysis.accepted && c.assembly.isSome

def diagnostics (c : Compilation) : List Diagnostic :=
  c.analysis.diagnostics

end Compilation

/-- Compiles a program. -/
def Program.compile (p : Program) (settings : Settings) : Except Error Compilation := do
  let analysis ← p.analyze settings
  if analysis.accepted then
    let (analysis, _) ← analysis.optimize
    let lowered ← analysis.lower
    let assembly ← lowered.assemble analysis.table
    return { analysis, lowered := some lowered, assembly := some assembly }
  else return { analysis }

/-- Compiles a file by its content, if it could be read.  The input is named by the settings, else
by the path. -/
def compileFile (path : String) (content : Option ByteArray) (settings : Settings) :
    Except Error Compilation :=
  match content with
  | none => .error .unreadable
  | some bytes => do
    let source ← Document.readBytes bytes
    let input := settings.input.getD path
    (Program.ofSource source).compile { settings with input := some input }

end ClassCompiler
