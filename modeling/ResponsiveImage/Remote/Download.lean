import ResponsiveImage.Digest.Sha1
import ResponsiveImage.Picture.Signature
import ResponsiveImage.Remote.ContentType
import ResponsiveImage.Workspace

/-!
# Downloads

A remote image is kept in a folder under a name that begins with a digest of its URL. While it is
written it has another ending, so that a file without that ending is complete and is used again. What
turns out to be no image is not kept.
-/

namespace ResponsiveImage.Download

open Job
open Json (Value)

/-- How the names of unfinished downloads end. -/
def partialSuffix : String := ".part"

/-- How many bytes are read before the type of the content is told. -/
def sampleSize : Nat := 261

/-- The digest of a URL, with which the name of its download begins. -/
def key (url : String) : String := Sha1.hex (Text.Utf8.encode url.toList)

/-- Whether a file name begins with a key and a dot. -/
def hasKey (key name : String) : Bool := (key ++ ".").toList.isPrefixOf name.toList

/-- Whether a file name is that of an unfinished download. -/
def isPartial (name : String) : Bool := partialSuffix.toList.isSuffixOf name.toList

/-- Whether a file name is that of an unfinished download of a key. -/
def isPartialOf (key name : String) : Bool :=
  hasKey key name && partialSuffix.toList.isSuffixOf (name.toList.drop (key.length + 1))

/-- The names in a directory, in order. -/
def namesIn (folder : Path) : Job (List String) := do
  match ← find? folder with
  | some (place, .directory) =>
    return ((← get).files.names place).mergeSort fun a b ↦ decide (a ≤ b)
  | _ => return []

/-- The first of some paths at which there is a file. -/
def firstFile : List Path → Job (Option Path)
  | [] => return none
  | p :: ps => do if ← isFile p then return some p else firstFile ps

/-- The complete download of a key in a folder. -/
def cached? (folder : Path) (key : String) : Job (Option Path) := do
  let names ← namesIn folder
  firstFile ((names.filter fun n ↦ hasKey key n && !isPartial n).map fun n ↦
    folder / .ofString n)

/-- Removes the unfinished downloads of a key. -/
def clearPartials (folder : Path) (key : String) : Job Unit := do
  let names ← namesIn folder
  (names.filter (isPartialOf key)).forM fun n ↦ unlinkIfPresent (folder / .ofString n)

/-- The URL that is asked for: one without a scheme is given the safe one. -/
def fetchUrl (url : String) : String :=
  if ['/', '/'].isPrefixOf url.toList then "https:" ++ url else url

/-- A body that arrives in pieces and may break off. -/
structure Body where
  chunks : List Content
  breaks : Bool

/-- What arrives of the body of a response. -/
def Body.ofResponse (r : Response) : Body :=
  match r.failAfter with
  | some k => ⟨r.chunks.take k, true⟩
  | none => ⟨r.chunks, false⟩

/-- The pieces put together until they hold a sample, and the pieces that are left; none if the body
breaks off before. -/
def Body.head? (b : Body) : Content → List Content → Option (Content × List Content)
  | head, [] => if b.breaks then none else some (head, [])
  | head, c :: cs =>
    let head := head.append c
    if sampleSize ≤ head.size then some (head, cs) else b.head? head cs

/-- The extension of a picture, told by its content type or else by its first bytes. -/
def extension? (contentType : String) (head : Content) : Option String :=
  match ContentType.extension? contentType with
  | some extension => some extension
  | none =>
    if ContentType.isConclusive contentType then none
    else ContentType.extension? ((Signature.mimeType? head.data).getD "")

/-- What a host answers, unless that is an error. -/
def respond (url : String) (timeout : Value) : Job Response := do
  request (.get (fetchUrl url) timeout)
  match (← get).remote.lookup (fetchUrl url) with
  | none => throw (.fetch (.failed url "connection refused"))
  | some r =>
    let status := r.status
    if 400 ≤ status ∧ status < 600 then throw (.fetch (.failed url s!"{status} Error"))
    else return r

/-- Writes what is left of a body behind what is written, and moves the file into place. -/
def complete (url : String) (unfinished target : Path) (head : Content) (rest : List Content)
    (breaks : Bool) : Job Unit := do
  overwrite unfinished head
  if breaks then throw (.fetch (.interrupted url "connection reset"))
  overwrite unfinished (rest.foldl .append head)
  move unfinished target

/-- Keeps a body as a file. A download that fails leaves no unfinished file. -/
def keep (url : String) (unfinished target : Path) (head : Content) (rest : List Content)
    (breaks : Bool) : Job Unit := do
  match ← attempt (complete url unfinished target head rest breaks) with
  | .ok () => return
  | .error (.fetch reason) =>
    unlinkIfPresent unfinished
    throw (.fetch reason)
  | .error (.file e) =>
    unlinkIfPresent unfinished
    throw (.fetch (.unwritten target.toString e))
  | .error f => throw f

/-- Reads a response and keeps its body, if that is a picture. -/
def receive (url : String) (r : Response) (folder : Path) (key : String) :
    Job (Option Path) := do
  let body := Body.ofResponse r
  match body.head? (.bytes []) body.chunks with
  | none => throw (.fetch (.interrupted url "connection reset"))
  | some (head, rest) =>
    let contentType := r.contentType.getD ""
    match extension? contentType head with
    | none =>
      let shown := if contentType = "" then "unknown" else contentType
      log .warning .downloading s!"Skipping {url}: not an image (Content-Type={shown})"
      return none
    | some extension =>
      ensureDirectories folder
      clearPartials folder key
      let target := folder / .ofString (key ++ "." ++ extension)
      let unfinished := folder / .ofString (key ++ "." ++ extension ++ partialSuffix)
      keep url unfinished target head rest body.breaks
      return some target

/-- Fetches a remote image. -/
def fetch (url : String) (folder : Path) (key : String) (timeout : Value) :
    Job (Option Path) := do
  let r ← respond url timeout
  let outcome ← attempt (receive url r folder key)
  request .close
  match ← ofExcept id outcome with
  | none => return none
  | some target =>
    log .info .downloading s!"Downloaded {url} to {target}"
    return some target

/-- The local copy of a remote image, fetched unless it is there; none if it is no image. -/
def download (url : String) (folder : Path) (timeout : Value) : Job (Option Path) := do
  let key := key url
  match ← cached? folder key with
  | some p => return some p
  | none => fetch url folder key timeout

end ResponsiveImage.Download
