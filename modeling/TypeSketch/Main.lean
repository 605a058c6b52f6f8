import TypeSketch.CommandLine.Run

/-!
# The program

The outer layer of the command. It surveys the files that the arguments name, reads the standard
input if the document comes from there, runs the command on what it found, and hands on what comes
out.
-/

namespace TypeSketch.CommandLine

/-- The paths that a run may look at. -/
def mentioned (a : Arguments) : List Text :=
  a.name?.toList ++ a.config?.toList ++ [a.path] ++ a.output?.toList

/-- The locations on the way from the root to a location, itself included. -/
def wayTo (l : Location) : List Location := (List.range (l.length + 1)).map fun n => l.take n

/-- Enters what stands at a location into a workspace. -/
def survey (w : Workspace) (l : Location) : IO Workspace := do
  let path := (← IO.currentDir) / (Workspace.pathOf l).legible
  if ← path.isDir then pure { w with directories := Workspace.settle l :: w.directories }
  else if ← path.pathExists then
    let bytes ← IO.FS.readBinFile path
    pure (w.put l bytes.data.toList)
  else pure w

/-- The workspace that the arguments of a run speak of. -/
def surveyAll (a : Arguments) : IO Workspace := do
  let here := Path.parts (Text.ofString (toString (← IO.currentDir)))
  let w : Workspace := { here }
  let locations := (mentioned a).flatMap fun path => wayTo (w.locate path)
  locations.foldlM survey w

partial def readAll (stream : IO.FS.Stream) (bytes : List UInt8) : IO (List UInt8) := do
  let chunk ← stream.read 65536
  if chunk.isEmpty then pure bytes else readAll stream (bytes ++ chunk.data.toList)

/-- The standard input, if the document comes from there. -/
def inputFor (a : Arguments) : IO (List UInt8) := do
  if a.path = RootName.standardInput && !a.sample && !a.help then readAll (← IO.getStdin) []
  else pure []

/-- Writes the output of a run, if the run has changed the files. -/
def writeOutput (before after : Workspace) (path : Text) : IO Unit := do
  if after ≠ before then
    let target := Workspace.pathOf (after.locate path)
    IO.FS.writeBinFile target.legible (ByteArray.mk (bytesAt after target).toArray)

/-- Hands on what a run leaves behind, and gives the exit code. -/
def handOn (before : Workspace) (a : Arguments) (outcome : Outcome) : IO UInt32 := do
  IO.print outcome.stdout
  IO.eprint outcome.stderr
  a.output?.forM (writeOutput before outcome.workspace)
  match outcome.ending with
  | .escaped e =>
    IO.eprintln e.message
    pure 1
  | .exit code => pure code.toUInt32

/-- Runs the command in the working directory. -/
def execute (words : List String) : IO UInt32 := do
  let args := words.map Text.ofString
  match readArguments {} args with
  | .ok a =>
    let w ← surveyAll a
    let input ← inputFor a
    handOn w a (run .usual w input args)
  | .error _ => handOn { here := [] } {} (run .usual { here := [] } [] args)

end TypeSketch.CommandLine

def main (args : List String) : IO UInt32 := TypeSketch.CommandLine.execute args
