import ResponsiveImage.Fault

/-!
# The workspace

All that a run reads and changes: the file tree, what the remote hosts answer, the messages logged
and the requests made. A job runs on a workspace and may fail; what it did before it failed stays.
-/

namespace ResponsiveImage

inductive Level where
  | info
  | warning
  | error
deriving DecidableEq, Repr

/-- The part of the program that a message comes from. -/
inductive Channel where
  | rewriting
  | resolving
  | downloading
  | command
deriving DecidableEq, Repr

/-- The text of a message. Some messages tell how long a job took. -/
inductive LogText where
  | plain (text : String)
  | timed (before after : String)
deriving DecidableEq, Repr

/-- A message, where a job took as long as is said. -/
def LogText.render (duration : String) : LogText → String
  | .plain text => text
  | .timed before after => before ++ duration ++ after

structure LogEntry where
  level : Level
  channel : Channel
  text : LogText
deriving DecidableEq, Repr

/-- What a remote host answers: a status, a content type, and a body in pieces, after so many of
which the connection may break. -/
structure Response where
  status : Int := 200
  contentType : Option String := none
  chunks : List Content := []
  failAfter : Option Nat := none

/-- A call to a remote host. -/
inductive Request where
  | get (url : String) (timeout : Json.Value)
  | close

structure Workspace where
  /-- The working directory, as names from the root. -/
  cwd : List String
  files : Tree := {}
  remote : List (String × Response) := []
  log : List LogEntry := []
  requests : List Request := []

/-- A step of a run, which may fail. -/
abbrev Job := ExceptT Fault (StateM Workspace)

namespace Job

/-- A job run on a workspace, with what it leaves. -/
def run {α : Type} (t : Job α) (w : Workspace) : Except Fault α × Workspace := t w

def ofExcept {ε α : Type} (f : ε → Fault) : Except ε α → Job α
  | .ok a => pure a
  | .error e => throw (f e)

/-- The outcome of a job, which itself does not fail. -/
def attempt {α : Type} (t : Job α) : Job (Except Fault α) :=
  ExceptT.mk fun w ↦ match t.run w with
    | (r, w) => (.ok r, w)

def addLog (e : LogEntry) : Job Unit :=
  modify fun w ↦ { w with log := w.log ++ [e] }

def log (level : Level) (channel : Channel) (text : String) : Job Unit :=
  addLog ⟨level, channel, .plain text⟩

/-- Logs how long a job took, between two texts. -/
def logTimed (channel : Channel) (before after : String) : Job Unit :=
  addLog ⟨.info, channel, .timed before after⟩

def request (r : Request) : Job Unit :=
  modify fun w ↦ { w with requests := w.requests ++ [r] }

/-- A path from the root without double dots; a path with a NUL has none. -/
def resolve (p : Path) : Job Path := do
  if p.hasNul then throw .embeddedNul
  return p.resolve (← get).cwd

/-! ## Looking at files -/

/-- The place that a path leads to and what stands there, where missing entries and files in place of
directories are no error. -/
def find? (p : Path) : Job (Option (List String × Entry)) := do
  let w ← get
  if p.hasNul then return none
  match w.files.stat w.cwd p with
  | .ok found => return some found
  | .error .nameTooLong => throw (.file ⟨.nameTooLong, [p.toString]⟩)
  | .error _ => return none

/-- What stands at a path. -/
def standing? (p : Path) : Job (Option Entry) := return (← find? p).map (·.2)

/-- The place of what stands at a path. -/
def place? (p : Path) : Job (Option (List String)) := return (← find? p).map (·.1)

def exists? (p : Path) : Job Bool := return (← standing? p).isSome

def isFile (p : Path) : Job Bool := do
  match ← standing? p with
  | some (.file _) => return true
  | _ => return false

def isDirectory (p : Path) : Job Bool := do
  match ← standing? p with
  | some .directory => return true
  | _ => return false

/-- The place that a path leads to and what must stand there. -/
def stat (p : Path) : Job (List String × Entry) := do
  let w ← get
  if p.hasNul then throw .embeddedNul
  match w.files.stat w.cwd p with
  | .ok found => return found
  | .error kind => throw (.file ⟨kind, [p.toString]⟩)

/-- The place of what must stand at a path. -/
def place (p : Path) : Job (List String) := return (← stat p).1

/-- The size that a directory is told to have. -/
def directorySize : Nat := 4096

/-- The size of what stands at a path. -/
def fileSize (p : Path) : Job Nat := do
  match ← stat p with
  | (_, .file c) => return c.size
  | (_, .directory) => return directorySize

/-- The content of the file at a path. -/
def readFile (p : Path) : Job Content := do
  match ← stat p with
  | (_, .file c) => return c
  | (_, .directory) => throw (.file ⟨.isDirectory, [p.toString]⟩)

/-- The text in a file, its line ends turned to newlines. -/
def readText (p : Path) : Job (List Char) := do
  let data := (← readFile p).data
  match Text.Utf8.decode data with
  | .ok cs => return Text.Utf8.universalNewlines cs
  | .error e => throw (.undecodable data.length e)

/-! ## Changing files -/

def putEntry (place : List String) (e : Entry) : Job Unit :=
  modify fun w ↦ { w with files := w.files.put place e }

def removeEntry (place : List String) : Job Unit :=
  modify fun w ↦ { w with files := w.files.remove place }

/-- Makes one directory. -/
def makeDirectory (p : Path) : Job Unit := do
  let w ← get
  if p.hasNul then throw .embeddedNul
  match w.files.locate w.cwd p with
  | .error kind => throw (.file ⟨kind, [p.toString]⟩)
  | .ok place =>
    match w.files.get? place with
    | some _ => throw (.file ⟨.alreadyExists, [p.toString]⟩)
    | none => putEntry place .directory

/-- Makes a directory unless there is one. -/
def ensureDirectory (p : Path) : Job Unit := do
  match ← attempt (makeDirectory p) with
  | .ok () => return
  | .error (.file e) =>
    if e.kind = .notFound then throw (.file e)
    else if ← isDirectory p then return
    else throw (.file e)
  | .error f => throw f

/-- Makes a directory and, up to so many levels, the missing ones on the way to it. -/
def ensureDirectoriesTo : Nat → Path → Job Unit
  | 0, p => ensureDirectory p
  | n + 1, p => do
    match ← attempt (ensureDirectory p) with
    | .ok () => return
    | .error (.file e) =>
      if e.kind = .notFound && !p.parts.isEmpty then
        ensureDirectoriesTo n p.parent
        ensureDirectory p
      else throw (.file e)
    | .error f => throw f

/-- Makes a directory and the missing ones on the way to it. -/
def ensureDirectories (p : Path) : Job Unit := ensureDirectoriesTo p.parts.length p

/-- How many bytes a name gains when a file is first written under another name beside it. -/
def temporaryExtra : Nat := 10

/-- Writes a file at once: its content is written beside it and moved into place. -/
def writeFile (p : Path) (c : Content) : Job Unit := do
  ensureDirectories p.parent
  if p.hasNul then throw .embeddedNul
  let w ← get
  if Tree.greatestName < p.name.utf8ByteSize + temporaryExtra then
    throw (.file ⟨.nameTooLong, [p.toString]⟩)
  match w.files.locate w.cwd p with
  | .error kind => throw (.file ⟨kind, [p.toString]⟩)
  | .ok place =>
    if w.files.isDirectory place then throw (.file ⟨.isDirectory, [p.toString]⟩)
    else putEntry place (.file c)

/-- Writes over a file in place. -/
def overwrite (p : Path) (c : Content) : Job Unit := do
  let w ← get
  if p.hasNul then throw .embeddedNul
  match w.files.locate w.cwd p with
  | .error kind => throw (.file ⟨kind, [p.toString]⟩)
  | .ok place =>
    if w.files.isDirectory place then throw (.file ⟨.isDirectory, [p.toString]⟩)
    else putEntry place (.file c)

/-- Removes a file. -/
def unlink (p : Path) : Job Unit := do
  match ← stat p with
  | (place, .file _) => removeEntry place
  | (_, .directory) => throw (.file ⟨.isDirectory, [p.toString]⟩)

/-- Removes a file, if there is one. -/
def unlinkIfPresent (p : Path) : Job Unit := do
  match ← attempt (unlink p) with
  | .ok () => return
  | .error (.file e) => if e.kind = .notFound then return else throw (.file e)
  | .error f => throw f

/-- Moves a file to another path, over a file that is there. -/
def move (p q : Path) : Job Unit := do
  let (start, entry) ← stat p
  let w ← get
  if q.hasNul then throw .embeddedNul
  match w.files.locate w.cwd q with
  | .error kind => throw (.file ⟨kind, [p.toString, q.toString]⟩)
  | .ok place =>
    if w.files.isDirectory place then throw (.file ⟨.isDirectory, [p.toString, q.toString]⟩)
    else
      removeEntry start
      putEntry place entry

end Job

end ResponsiveImage
