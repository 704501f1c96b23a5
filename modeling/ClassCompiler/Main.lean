import ClassCompiler.CommandLine.Run

/-!
# The command line

Runs the arguments on the files of the system.
-/

namespace ClassCompiler
namespace CommandLine

/-- Whether an action went through. -/
def succeeds (action : IO Unit) : IO Bool := do
  try
    action
    return true
  catch _ => return false

/-- The files of the system. -/
def systemFiles : Files IO where
  read path := do
    try
      return some (← IO.FS.readBinFile path)
    catch _ => return none
  makeDirectory path := succeeds (IO.FS.createDirAll path)
  write path text := succeeds (IO.FS.writeFile path text)

end CommandLine
end ClassCompiler

open ClassCompiler in
def main (args : List String) : IO UInt32 := do
  let report ← CommandLine.run CommandLine.systemFiles args
  for line in report.lines do
    IO.eprintln line
  return report.status
