import ResponsiveImage.Eligibility
import ResponsiveImage.Picture.OutputPlan
import ResponsiveImage.Remote.Download

/-!
# Resolution

A source is resolved to an image file that can be read, of which a copy is put among the outputs, or
to the reason why it is skipped. The reasons are looked for in a fixed order and the first that
applies is told.
-/

namespace ResponsiveImage

open Json (Value)

inductive SkipReason where
  | notEligible
  | dynamicValue
  | blankValue
  | extensionRejected
  | externalDisabled
  | remoteFetchFailed
  | remoteNotAnImage
  | fileNotFound
  | inlineData
  | backendFailed
deriving DecidableEq, Repr

def SkipReason.text : SkipReason → String
  | .notEligible => "not eligible"
  | .dynamicValue => "dynamic value"
  | .blankValue => "blank src"
  | .extensionRejected => "extension not allowed"
  | .externalDisabled => "external, remote optimization disabled"
  | .remoteFetchFailed => "fetch failed"
  | .remoteNotAnImage => "not an image"
  | .fileNotFound => "file not found"
  | .inlineData => "already inlined"
  | .backendFailed => "backend processing failed"

/-- What is done with a source. -/
inductive Decision where
  | skip (reason : SkipReason) (detail : String)
  | process (plan : OutputPlan)
deriving DecidableEq, Repr

/-- A skip in words. -/
def SkipReason.describe (r : SkipReason) (detail : String) : String :=
  let reason := r.text
  if detail = "" then reason else s!"{reason}: {detail}"

namespace Resolution

open Job

/-- Whether there is a file at a path. What the file system refuses to look at is none. -/
def isReadable (p : Path) : Job Bool := do
  match ← attempt (isFile p) with
  | .ok b => return b
  | .error (.file _) => return false
  | .error f => throw f

/-- A source whose one leading slash, if it has one, is dropped. -/
def rooted (raw : List Char) : List Char :=
  match raw with
  | '/' :: '/' :: _ => raw
  | '/' :: cs => cs
  | _ => raw

/-- The file that a source names beside its document, or else below the source directory, which a
leading slash stands for. -/
def findLocal (raw : List Char) (parent sourceDirectory : Path) : Job (Option Path) := do
  let beside ← resolve (parent / .ofString (String.ofList raw))
  if ← isReadable beside then return some beside
  let below ← resolve (sourceDirectory / .ofString (String.ofList (rooted raw)))
  if ← isReadable below then return some below
  return none

def process (source : Path) (o : Options) : Job Decision :=
  return .process (← OutputPlan.staged source o)

/-- A way to fetch the image of a URL to a folder in a given time: it tells where the image is then, or
that there is none. -/
abbrev Downloader := String → Path → Value → Job (Option Path)

/-- What is done with a source on another host. -/
def ofExternal (raw : String) (o : Options) (download : Downloader := Download.download) :
    Job Decision := do
  if !o.optimizeRemote.truthy then return .skip .externalDisabled raw
  let folder ← OutputPlan.downloadDirectory o
  match ← attempt (download raw folder o.remoteTimeout) with
  | .error (.fetch reason) =>
    log .warning .resolving reason.message
    return .skip .remoteFetchFailed raw
  | .error f => throw f
  | .ok none => return .skip .remoteNotAnImage raw
  | .ok (some image) => process image o

/-- What is done with a source in the file tree. -/
def ofLocal (raw : List Char) (parent : Path) (o : Options) : Job Decision := do
  let sourceDirectory ← ofExcept id (Options.path o.sourceDir)
  match ← findLocal raw parent sourceDirectory with
  | none =>
    let missing := sourceDirectory / .ofString (String.ofList raw)
    return .skip .fileNotFound missing.toString
  | some image => process image o

/-- What is done with the literal text of a source. -/
def ofText (text : List Char) (parent : Path) (o : Options) (extensions : List Value)
    (download : Downloader := Download.download) : Job Decision := do
  let raw := Text.trim text
  let source := String.ofList raw
  if raw.isEmpty then return .skip .blankValue ""
  if "data:".toList.isPrefixOf (Text.lowerChars raw) then return .skip .inlineData ""
  if !(← ofExcept id (Eligibility.isAllowed source extensions)) then
    let listed := ", ".intercalate (extensions.map Value.text)
    return .skip .extensionRejected s!"{source} is not one of {listed}"
  if Url.isExternal raw then ofExternal source o download else ofLocal raw parent o

/-- What is done with the value of a source. -/
def ofValue (value : Option Markup.AttributeValue) (parent : Path) (o : Options)
    (extensions : List Value) (download : Downloader := Download.download) : Job Decision :=
  match value with
  | none => return .skip .blankValue "no src attribute"
  | some (.dynamic kind) => return .skip .dynamicValue kind.text
  | some (.static text _ _) => ofText text parent o extensions download

end Resolution

end ResponsiveImage
