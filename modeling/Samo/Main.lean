import Samo.CommandLine

/-!
# The command

Connects the command line with the machine it runs on: reads the files that the arguments name into
a tree, passes standard input on, and prints what a run shows. An interactive run goes line by line.
-/

namespace Samo

/-- The bytes that are left in a stream. -/
partial def readRest (input : IO.FS.Stream) (soFar : ByteArray) : IO Bytes := do
  let more ← input.read 65536
  if more.isEmpty then return soFar.toList
  else readRest input (soFar ++ more)

/-- The bytes of a file, or none if it cannot be read. -/
def readBytes (path : String) : IO Bytes := do
  match ← (IO.FS.readBinFile path).toBaseIO with
  | .ok content => return content.toList
  | .error _ => return []

/-- Prints what is shown, on both channels. -/
def printShown (shown : Shown) : IO Unit := do
  let out ← IO.getStdout
  out.putStr shown.out
  out.flush
  let err ← IO.getStderr
  err.putStr shown.err
  err.flush

/-! ## Files -/

/-- Reads what stands at a place into the tree, but not what stands below a directory there. -/
def loadPlace (files : Files) (location : Location) : IO Files := do
  match ← (IO.FS.realPath location.text).toBaseIO with
  | .error _ => return files
  | .ok path =>
    if ← path.isDir then return files.makeDirectory location.text
    else return files.write location.text (← readBytes location.text)

/-- Reads the entries of a directory into the tree. -/
def loadEntries (files : Files) (location : Location) : IO Files := do
  match ← (IO.FS.realPath location.text).toBaseIO with
  | .error _ => return files
  | .ok path =>
    if ← path.isDir then
      let entries ← path.readDir
      entries.foldlM (fun files e => loadPlace files (location.step e.fileName)) files
    else return files

/-- Reads what a name stands for into the tree: the places on the way, and the entries there. -/
def loadName (files : Files) (name : String) : IO Files := do
  let location := files.locate name
  let lengths := List.range (location.parts.length + 1)
  let files ← lengths.foldlM (fun files n => loadPlace files ⟨location.parts.take n⟩) files
  loadEntries files location

/-- The files that a plan needs. -/
def loadFiles : Plan → IO Files
  | .sources _ _ names => do
    let directory ← IO.currentDir
    names.foldlM loadName (Files.empty (Location.root.resolve directory.toString))
  | _ => return Files.empty .root

/-! ## Interactive runs -/

def historyPath : IO String := return (← IO.getEnv "HOME").getD "" ++ "/.samoc_history"

/-- How many bytes of a line are read at once. -/
def lineCapacity : Nat := Text.usualCapacity + 2

/-- The next line, given the bytes that were read behind the last one. -/
partial def readLine (input : IO.FS.Stream) (ahead : Bytes) : IO (Option (Bytes × Bytes)) := do
  if ahead.contains Text.lineFeed || lineCapacity ≤ ahead.length then
    let (piece, rest) := Text.firstPiece lineCapacity ahead
    return some (piece.bytes, rest)
  else
    let more ← input.read 4096
    if !more.isEmpty then readLine input (ahead ++ more.toList)
    else if ahead.isEmpty then return none
    else return some (ahead, [])

/-- Takes lines until the last one or the end. -/
partial def interact (input : IO.FS.Stream) (r : Repl) (ahead : Bytes) : IO Repl := do
  printShown ⟨r.prompt, ""⟩
  match ← readLine input ahead with
  | none =>
    printShown ⟨"\n", ""⟩
    return r
  | some (line, ahead) =>
    let (ends, shown, r) := r.feed line
    printShown shown
    if ends then return r else interact input r ahead

/-- An interactive run. -/
def runInteractive (o : Options) : IO Unit := do
  let path ← historyPath
  printShown ⟨Repl.banner, ""⟩
  let (logged, r) := (Repl.create o (History.ofBytes (← readBytes path))).flushLog
  printShown logged
  let r ← interact (← IO.getStdin) r []
  let _ ← (IO.FS.writeBinFile path ⟨r.history.bytes.toArray⟩).toBaseIO

/-! ## Runs -/

/-- Does what the arguments ask for, and gives the exit code. -/
def runCommand (arguments : List String) : IO UInt32 := do
  let plan := Plan.ofArguments arguments
  match plan with
  | .interactive o =>
    runInteractive o
    return 0
  | _ =>
    let files ← loadFiles plan
    let input ← match plan with
      | .input .. => readRest (← IO.getStdin) .empty
      | _ => pure []
    let (report, _) := plan.run files input none
    printShown report.shown
    return UInt32.ofNat report.code

end Samo

/-- The command: checks what the arguments name. -/
def main (arguments : List String) : IO UInt32 := Samo.runCommand arguments
