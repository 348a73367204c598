import ResponsiveImage.Edit.Splice
import ResponsiveImage.Markup.Document
import ResponsiveImage.Rewrite.Progress

/-!
# Pages

A page is a document that is being rewritten, with the progress of each of its images. All pages go
through the same steps together: the images of the first page come before those of the second. That is
one of the orders in which the images can take their steps. A page without images, or out of the source
tree, keeps its text.
-/

namespace ResponsiveImage.Rewrite

open Job
open Json (Value)

structure Page where
  document : Document
  progress : List Progress := []
  /-- The text that the document is given, once that is known. -/
  result? : Option (List Char) := none

namespace Page

/-! ## Opening a page -/

/-- A page that keeps its text. -/
def unchanged (d : Document) : Page := ⟨d, [], some d.text⟩

/-- Whether a directory lies in the source directory and not among installed packages. -/
def inSourceTree (o : Options) (directory : Path) : Job Bool := do
  let root ← resolve (← ofExcept id (Options.path o.sourceDir))
  if !root.parts.isPrefixOf directory.parts then return false
  return !(directory.parts.drop root.parts.length).contains "node_modules"

/-- Why the images of a document are not known. -/
inductive Unreadable where
  | parse (e : Markup.ParseError)
  /-- Components are called by something that is no name. -/
  | nameless

/-- The images of a document, where components are called by a value. -/
def images (text : List Char) : Value → Except Unreadable (List Markup.Node)
  | .string tagName =>
    match Markup.parse text tagName.toList with
    | .ok root => .ok (Markup.candidates root tagName.toList)
    | .error e => .error (.parse e)
  | _ =>
    match Markup.outline text with
    | .ok _ => .error .nameless
    | .error r => .error (.parse (.rejected r))

/-- Logs why the images of a document are not known. -/
def logUnreadable (d : Document) (e : Unreadable) : Job Unit :=
  let directory := d.directory
  match e with
  | .parse e =>
    let reason := e.message
    log .error .rewriting s!"Error parsing component content in {directory}: {reason}"
  | .nameless =>
    log .error .rewriting s!"Unexpected error parsing component content in {directory}"

/-- The images of a document that are worked on, none if the document is left as it is. -/
def candidates (o : Options) (d : Document) : Job (List Markup.Node) := do
  if !Markup.hasMarkers d.text o.tagName.text.toList then return []
  if !(← inSourceTree o d.directory) then return []
  match images d.text o.tagName with
  | .ok nodes => return nodes
  | .error e =>
    logUnreadable d e
    return []

/-- A document and its images. -/
abbrev Opened := Document × List Markup.Node

def opened (o : Options) (d : Document) : Job Opened := return (d, ← candidates o d)

/-! ## Working on the images -/

/-- A page whose images have been started. -/
def start [Codec] (o : Options) (p : Opened) : Job Page := do
  if p.2.isEmpty then return unchanged p.1
  return ⟨p.1, ← p.2.mapM (Progress.start o p.1), none⟩

/-- A page with one more step done for each of its images. -/
def advance (step : Progress → Job Progress) (p : Page) : Job Page :=
  return { p with progress := ← p.progress.mapM step }

def isPending (p : Page) : Bool := p.progress.any (·.isPending)

/-- The first fault that escaped. -/
def fault? (p : Page) : Option Fault := p.progress.findSome? (·.fault?)

/-! ## Closing a page -/

/-- The edits of all images, in order. -/
def edits (p : Page) : List Edit := Edit.sort (p.progress.flatMap (·.edits))

/-- How many images are edited. -/
def editedCount (p : Page) : Nat := p.progress.countP fun s ↦ !s.edits.isEmpty

/-- The text of a document with the edits of its images made. -/
def finalText (p : Page) : Job (List Char) := do
  let d := p.document
  let directory := d.directory
  if p.edits.isEmpty then return d.text
  match Edit.applyAll d.text p.edits with
  | .error e =>
    let reason := e.message
    log .error .rewriting s!"Discarding edits for {directory}: {reason}"
    return d.text
  | .ok text =>
    let edited := p.editedCount
    let total := p.progress.length
    logTimed .rewriting s!"Rewrote {edited} of {total} image node(s) in {directory} (" ")"
    return text

/-- A page with its final text. -/
def close (p : Page) : Job Page := do
  match p.result? with
  | some _ => return p
  | none => return { p with result? := some (← p.finalText) }

/-- A page closed early, if nothing is left to do for its images and nothing went astray. -/
def closeEarly (p : Page) : Job Page :=
  if p.isPending || p.fault?.isSome then return p else p.close

end Page

/-- Documents rewritten together, image after image. -/
def documents [Codec] (o : Options) (placeholder : Placeholder) (ds : List Document) :
    Job (List (List Char)) := do
  let pages ← ds.mapM (Page.opened o)
  let started ← pages.mapM (Page.start o)
  let expanded ← started.mapM (Page.advance (Progress.expand o))
  let closed ← expanded.mapM Page.closeEarly
  let completed ← closed.mapM (Page.advance (Progress.complete o placeholder))
  match completed.findSome? (·.fault?) with
  | some f => throw f
  | none =>
    let pages ← completed.mapM Page.close
    return pages.map fun p ↦ p.result?.getD p.document.text

/-- The directory of the file of a document, the working directory if there is no file. -/
def directoryOf (file? : Option String) : Job Path :=
  match file? with
  | none | some "" => resolve (.ofString ".")
  | some file => resolve (Path.ofString file).parent

/-- A document rewritten alone. -/
def document [Codec] (o : Options) (placeholder : Placeholder) (text : List Char)
    (file? : Option String) : Job (List Char) := do
  let directory ← directoryOf file?
  let texts ← documents o placeholder [⟨text, directory⟩]
  return texts.head?.getD text

end ResponsiveImage.Rewrite
