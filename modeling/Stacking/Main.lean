import Stacking.Command.Run

/-!
# The program

Reads the files that the command line names, runs the command on them, prints what it prints and
writes back the files that it changed. A watch goes on until the program is stopped from outside.
-/

namespace Stacking.Main

/-- The path as the host writes it. -/
def hostName (p : Path) : String := "/" ++ "/".intercalate p

/-- Adds what the host has at a path to a tree. -/
def addPath (tree : FileTree) (p : Path) : IO FileTree := do
  let host := (← IO.currentDir) / hostName p
  if ← host.isDir then return { tree with directories := p :: tree.directories }
  if !(← host.pathExists) then return tree.remove p
  let modified := (← host.metadata).modified
  let bytes ← IO.FS.readBinFile host
  let content : Content :=
    match String.fromUTF8? bytes with
    | some s => .text s.toList
    | none => .binary
  return tree.write p ⟨content, modified.sec * 1000000000 + modified.nsec.toNat⟩

/-- The files and directories that the words of a command line may name. -/
def gather (base : Path) (words : List String) : IO FileTree := do
  let mut tree : FileTree := { base }
  for word in words do
    for path in tree.way word ++ [tree.locate word] do
      tree ← addPath tree path
  return tree

/-- Prints a transcript. -/
def print (t : Transcript) : IO Unit := do
  let out ← IO.getStdout
  let err ← IO.getStderr
  for (stream, text) in t do
    match stream with
    | .out => out.putStr text
    | .err => err.putStr text
  out.flush
  err.flush

/-- Writes back the files that differ between two trees. -/
def writeBack (before after : FileTree) : IO Unit := do
  for (path, entry) in after.files.entries do
    match entry.content with
    | .text t =>
      if before.files.get? path ≠ some entry then
        IO.FS.writeFile (hostName path) (String.ofList t)
    | .binary => pure ()

/-- Prints how a command ended, where that calls for a message. -/
def printEnding : Ending → IO Unit
  | .misused (some fault) => print fault.report
  | .misused none => print (.err Command.helpLine)
  | .aborted cause => print (.err ("Error: " ++ cause.message))
  | .exit _ => pure ()

/-- Carries an outcome out on the host. -/
def finish (before : FileTree) (outcome : Outcome) : IO UInt32 := do
  print outcome.transcript
  printEnding outcome.ending
  writeBack before outcome.tree
  return outcome.ending.code.toUInt32

/-- Looks at files again and again. -/
partial def watchForever (interval : Float) (tree : FileTree) (w : Watch Float) : IO UInt32 := do
  print w.transcript
  IO.sleep (interval * 1000.0).toUInt32
  let mut tree := tree
  for file in w.files do
    tree ← addPath tree file.path
  let rested := { w with transcript := [] }.pause Command.wholeMillis interval
  match rested.lookAll Command.wholeMillis tree with
  | (w, some cause) => finish tree ⟨w.transcript, .aborted cause, tree⟩
  | (w, none) => watchForever interval tree w

/-- Runs a command line. -/
def run (words : List String) : IO UInt32 := do
  let base := Path.descend [] (Path.names (← IO.currentDir).toString)
  let tree ← gather base words
  match Command.plan tree "0.0" words with
  | .settled outcome => finish tree outcome
  | .call logging (.watch files settings interval false) =>
    match Watch.start logging settings Command.wholeMillis tree files with
    | (w, some cause) => finish tree ⟨w.transcript, .aborted cause, tree⟩
    | (w, none) => watchForever interval tree w
  | .call logging call => finish tree (Command.carryOut logging tree [] call)

end Stacking.Main

/-- The entry point. -/
def main (words : List String) : IO UInt32 := Stacking.Main.run words
