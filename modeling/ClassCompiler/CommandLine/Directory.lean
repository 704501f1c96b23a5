import ClassCompiler.CommandLine.Run

/-!
# A directory in memory

Files and directories by their paths, for running a command line without a disk.  Paths are followed
from the directory itself.  Nothing is known outside it, so a path from the root or one that leaves
the directory leads nowhere.
-/

namespace ClassCompiler
namespace CommandLine

/-- A path without its slashes; no segment is empty, a point or two points. -/
abbrev Segments := List String

/-- The files and the directories below one directory. -/
structure Directory where
  files : List (Segments × ByteArray) := []
  directories : List Segments := []

/-- Why a path leads nowhere. -/
inductive Obstacle where
  /-- Something on the way is not there. -/
  | missing
  /-- Something on the way is there and no directory, or cannot be. -/
  | blocked
  deriving DecidableEq, Repr

namespace Directory

/-! ## Paths -/

/-- The longest name of a file, in bytes. -/
def nameLimit : Nat := 255

/-- The longest path, in bytes. -/
def pathLimit : Nat := 4095

/-- No character is the one that ends names. -/
def isWhole (text : String) : Bool :=
  !text.toList.contains (Char.ofNat 0)

/-- The parts of a path between its slashes.  A path from the root leads nowhere. -/
def partsOf (path : String) : Except Obstacle (List String) :=
  match path.splitOn "/" with
  | "" :: _ => .error .blocked
  | parts =>
    if path.utf8ByteSize ≤ pathLimit ∧ isWhole path then .ok parts else .error .blocked

/-- A part that leads somewhere else. -/
def moves (part : String) : Bool :=
  part != "" && part != "."

/-- The parts of a path that count: those that lead somewhere else, and a point at the start. -/
def components : List String → List String
  | "." :: parts => "." :: parts.filter moves
  | parts => parts.filter moves

/-- The paths above a path, the longest first. -/
def above (parts : List String) : List (List String) :=
  let cs := components parts
  (List.range cs.length).reverse.filterMap fun k => if k = 0 then none else some (cs.take k)

/-- One step along a path from a directory. -/
def step (here : Segments) (part : String) : Except Obstacle Segments :=
  if !moves part then .ok here
  else if part = ".." then (if here.isEmpty then .error .blocked else .ok here.dropLast)
  else if part.utf8ByteSize ≤ nameLimit then .ok (here ++ [part])
  else .error .blocked

/-! ## Reading and writing -/

def isDirectory (d : Directory) (path : Segments) : Bool :=
  path.isEmpty || d.directories.contains path

def file? (d : Directory) (path : Segments) : Option ByteArray :=
  (d.files.find? fun f => f.1 == path).map Prod.snd

/-- Where a path leads.  All that it goes through are directories. -/
def follow (d : Directory) (here : Segments) : List String → Except Obstacle Segments
  | [] => .ok here
  | part :: parts =>
    if d.isDirectory here then do d.follow (← step here part) parts
    else if (d.file? here).isSome then .error .blocked
    else .error .missing

/-- The content of a file. -/
def read (d : Directory) (path : String) : Option ByteArray := do
  let parts ← (partsOf path).toOption
  d.file? (← (d.follow [] parts).toOption)

/-- Makes one directory, unless it is there.  Slashes at the end of its path do not count, but a
point there asks for a directory that is there already. -/
def make (d : Directory) (parts : List String) : Except Obstacle Directory := do
  let place ← d.follow [] (parts.reverse.dropWhile (· == "")).reverse
  if d.isDirectory place then return d
  else if (d.file? place).isSome then throw .blocked
  else return { d with directories := d.directories ++ [place] }

/-- Makes the directory of the first path.  If something above it is missing, makes the directories
of the paths after it before. -/
def makeAll (d : Directory) : List (List String) → Except Obstacle Directory
  | [] => .ok d
  | parts :: rest =>
    match d.make parts with
    | .error .missing => do (← d.makeAll rest).make parts
    | result => result

/-- Makes a directory with all above it. -/
def makeDirectory (d : Directory) (path : String) : Except Obstacle Directory := do
  let parts ← partsOf path
  d.makeAll (parts :: above parts)

/-- Writes a file in a directory that is there. -/
def write (d : Directory) (path text : String) : Except Obstacle Directory := do
  let place ← d.follow [] (← partsOf path)
  if d.isDirectory place then throw .blocked
  else return { d with
    files := d.files.filter (fun f => f.1 != place) ++ [(place, text.toUTF8)] }

/-! ## Running -/

/-- A change that may not be possible. -/
def change (f : Directory → Except Obstacle Directory) : StateM Directory Bool := fun d =>
  match f d with
  | .ok d => (true, d)
  | .error _ => (false, d)

/-- The operations of a run on a directory in memory. -/
def access : Files (StateM Directory) where
  read path := fun d => (d.read path, d)
  makeDirectory path := change fun d => d.makeDirectory path
  write path text := change fun d => d.write path text

/-- The directory with a file and the directories that its path goes through. -/
def addFile (d : Directory) (path text : String) : Except Obstacle Directory := do
  let parts ← partsOf path
  let d ← d.makeAll (above parts)
  d.write path text

/-- A directory with files by their paths. -/
def ofFiles (files : List (String × String)) : Directory :=
  files.foldl (fun d f => (d.addFile f.1 f.2).toOption.getD d) {}

end Directory

/-- Runs a command line in a directory in memory. -/
def runIn (d : Directory) (args : List String) : Report × Directory :=
  (run Directory.access args).run d

end CommandLine
end ClassCompiler
