import ResponsiveImage.Command.Run
import ResponsiveImage.Picture.HeaderCodec

/-!
# The program

Reads the files below the working directory, runs the command that the command line gives, and writes
what it changed. Its codec is the one without pixels.
-/

namespace ResponsiveImage

namespace Command

open scoped HeaderCodec

/-- The names of the directories on the way to a directory, from the root. -/
def namesOf (directory : String) : List String := (Path.ofString directory).parts

/-- Reads the entries of a directory and what is below them, the names on the way to the directory
being `names`. -/
partial def readEntries (names : List String) (t : Tree) (items : List IO.FS.DirEntry) : IO Tree := do
  let mut tree := t
  for item in items do
    let place := names ++ [item.fileName]
    if ← item.path.isDir then
      let below ← item.path.readDir
      tree ← readEntries place (tree.put place .directory) below.toList
    else
      let data ← IO.FS.readBinFile item.path
      tree := tree.put place (.file (.bytes data.toList))
  return tree

/-- All beginnings of a list but the empty one. -/
def beginnings (names : List String) : List (List String) :=
  (List.range names.length).map fun n ↦ names.take (n + 1)

/-- Whether an entry is in a tree already, unchanged. -/
def isKept (before : Tree) (place : List String) : Entry → Bool
  | .directory => before.isDirectory place
  | .file c =>
    match before.content? place with
    | some old => old == c
    | none => false

/-- Writes the entries in which a tree differs from the one before. -/
def writeTree (before after : Tree) : IO Unit := do
  for (place, entry) in after.entries do
    if !isKept before place entry then
      let path := (Path.ofParts place).toString
      match entry with
      | .directory => IO.FS.createDirAll path
      | .file c => IO.FS.writeBinFile path ⟨c.data.toArray⟩
  for (place, entry) in before.entries do
    match entry, after.get? place with
    | .file _, none => IO.FS.removeFile (Path.ofParts place).toString
    | _, _ => pure ()

def levelText : Level → String
  | .info => "INFO"
  | .warning => "WARNING"
  | .error => "ERROR"

/-- The time since some milliseconds, in seconds with two places. -/
def durationSince (start : Nat) : IO String := do
  let hundredths := ((← IO.monoMsNow) - start) / 10
  let places := hundredths % 100
  let padding := if places < 10 then "0" else ""
  let seconds := hundredths / 100
  return s!"{seconds}.{padding}{places}s"

/-- Runs a command on the files below the working directory. -/
def runHere (i : Invocation) : IO UInt32 := do
  let start ← IO.monoMsNow
  let directory ← IO.currentDir
  let names := namesOf directory.toString
  let above := (beginnings names).foldl (fun t place ↦ t.put place .directory) ({} : Tree)
  let files ← match i with
    | .defaults => pure above
    | .rewrite _ => readEntries names above (← directory.readDir).toList
  let (result, w) := (run Placeholder.label i).run { cwd := names, files }
  writeTree files w.files
  let duration ← durationSince start
  for e in w.log do
    let level := levelText e.level
    let message := e.text.render duration
    IO.eprintln s!"[{level}] {message}"
  match result with
  | .ok r =>
    IO.print (String.ofList r.output)
    return r.code.toUInt32
  | .error f =>
    let message := f.message
    IO.eprintln s!"[ERROR] {message}"
    return 1

end Command

end ResponsiveImage

def main (arguments : List String) : IO UInt32 := do
  match ResponsiveImage.Command.parse arguments with
  | .ok i => ResponsiveImage.Command.runHere i
  | .error stop => return stop.code.toUInt32
