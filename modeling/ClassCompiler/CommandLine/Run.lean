import ClassCompiler.CommandLine.Options
import ClassCompiler.Compilation
import ClassCompiler.Tree.Outline

/-!
# Running a command line

The files are reached through three operations, so that a run can be tried on a directory that is
not on any disk.  A run ends with a status and the lines that it has to say.
-/

namespace ClassCompiler
namespace CommandLine

/-- The operations on files that a run needs. -/
structure Files (m : Type → Type) where
  /-- The content of a file; none if there is no such file. -/
  read : String → m (Option ByteArray)
  /-- Makes a directory with all above it; tells whether it is there now. -/
  makeDirectory : String → m Bool
  /-- Writes a file; tells whether that was possible. -/
  write : String → String → m Bool

/-- How a run ended. -/
structure Report where
  status : UInt32
  lines : List String
  deriving DecidableEq, Repr

namespace Report

/-- The report of a line that asks for nothing that can be done. -/
def refused : Report :=
  ⟨2, ["usage: [OPTIONS] INPUT"]⟩

/-- A run that failed, after other lines were written. -/
def failed (before : List String) (message : String) : Report :=
  ⟨1, before ++ ["Error: " ++ message]⟩

end Report

/-- The settings that options ask for. -/
def Options.settings (o : Options) : Settings :=
  { input := some o.input, optimize := o.optimize, slotBudget := o.slotBudget, debug := o.debug }

/-- A path below a directory; a path from the root stands for itself. -/
def joinPath (directory path : String) : String :=
  match path.toList, directory.toList.getLast? with
  | '/' :: _, _ => path
  | _, none => path
  | _, some '/' => directory ++ path
  | _, _ => directory ++ "/" ++ path

/-- The files that a compilation gives, by the ending of their names. -/
def Options.results (o : Options) (c : Compilation) : List (String × String) :=
  let part (p : Emit) (ending : String) (text : Option String) : List (String × String) :=
    match text with
    | some t => if o.emit.includes p then [(ending, t)] else []
    | none => []
  part .ast "ast" (some (c.analysis.program.source.outline true))
    ++ part .ir "ollir" (c.lowered.map fun l => l.code.text)
    ++ part .jasmin "j" (c.assembly.map Assembly.text)

section

variable {m : Type → Type} [Monad m] (files : Files m)

/-- Writes files to a directory; gives the path of the first that cannot be written. -/
def writeAll (directory className : String) : List (String × String) → m (Option String)
  | [] => pure none
  | (ending, text) :: rest => do
    let path := joinPath directory (className ++ "." ++ ending)
    if ← files.write path text then writeAll directory className rest else pure (some path)

/-- Writes what a compilation gives. -/
def writeResults (o : Options) (said : List String) (c : Compilation) : m Report := do
  if ← files.makeDirectory o.output then
    match ← writeAll files o.output c.analysis.table.className (o.results c) with
    | some path => pure (.failed said ("cannot write " ++ path))
    | none => pure ⟨0, said⟩
  else pure (.failed said ("cannot create " ++ o.output))

/-- Does what options ask for. -/
def Options.run (o : Options) : m Report := do
  match ← files.read o.input with
  | none => pure (.failed [] s!"input file {o.input} does not exist")
  | some content =>
    match compileFile o.input (some content) o.settings with
    | .error e =>
      let report := Report.failed [] ("failed to compile " ++ o.input)
      pure { report with lines := report.lines ++ ["", "Caused by:", "    " ++ e.message] }
    | .ok c =>
      let said := c.diagnostics.map Diagnostic.text
      if c.analysis.accepted then writeResults files o said c
      else
        let count := (c.diagnostics.filter Diagnostic.isError).length
        pure (.failed said s!"{count} error(s) in {o.input}")

/-- Does what a command line asks for. -/
def run (args : List String) : m Report :=
  match Options.ofArguments args with
  | none => pure .refused
  | some o => o.run files

end

end CommandLine
end ClassCompiler
