import ResponsiveImage.Edit.Basic
import ResponsiveImage.Placeholder.Basic
import ResponsiveImage.Resolution
import ResponsiveImage.Srcset
import ResponsiveImage.Text.Line

/-!
# The progress of a node

A node of a document is worked on in steps. First its source is resolved, which puts a copy of its image
in place. Then the picture of an image tag is made, and that of a component looked at. After that the
variants of a component are made, and last its placeholder and its attributes. What fails at any step
is logged, and the node is left as it is. Between its steps other nodes may take theirs.
-/

namespace ResponsiveImage.Rewrite

open Job
open Json (Value)

/-- A document that is rewritten, and the directory of its file. -/
structure Document where
  text : List Char
  directory : Path
deriving DecidableEq, Repr

/-- A node as messages call it. -/
structure NodeLabel where
  name : String
  line : Nat
deriving DecidableEq, Repr

def NodeLabel.ofNode (d : Document) (n : Markup.Node) : NodeLabel :=
  ⟨String.ofList n.name, Text.lineOf d.text n.start⟩

/-- Where the source of a node stands: the span of its text, and the end of the attribute. -/
structure SourceSpan where
  start : Nat
  stop : Nat
  attributeStop : Nat
deriving DecidableEq, Repr

/-- A component whose variants are to be made, in some sizes of a picture. -/
structure Component where
  label : NodeLabel
  span : SourceSpan
  plan : OutputPlan
  header : Header
  sizes : List Number

/-- How far the work on a node has come. -/
inductive Progress where
  | finished (edits : List Edit)
  | awaiting (c : Component)
  | made (c : Component) (variants : Except Fault (List Variant))
  /-- A fault that nothing is made of. -/
  | escaped (f : Fault)

namespace Progress

def isPending : Progress → Bool
  | awaiting _ | made _ _ => true
  | _ => false

def edits : Progress → List Edit
  | finished es => es
  | _ => []

def fault? : Progress → Option Fault
  | escaped f => some f
  | _ => none

/-! ## Messages -/

/-- Logs that a node is left as it is. -/
def logSkip (label : NodeLabel) (reason : String) : Job Unit :=
  let name := label.name
  let line := label.line
  log .info .rewriting s!"Skipping <{name}> on line {line}: {reason}"

/-- Logs what went wrong with a node. -/
def logFault (label : NodeLabel) (f : Fault) : Job Unit :=
  let name := label.name
  let line := label.line
  match f with
  | .picture reason =>
    let skipped := SkipReason.backendFailed.text
    let message := reason.message
    log .warning .rewriting s!"Skipping <{name}> on line {line}: {skipped}: {message}"
  | _ => log .error .rewriting s!"Unexpected error processing <{name}> on line {line}"

/-- The progress that a job makes; if it fails, its fault is logged and the node finished. -/
def orLogged (label : NodeLabel) (t : Job Progress) : Job Progress := do
  match ← attempt t with
  | .ok p => return p
  | .error f =>
    logFault label f
    return finished []

/-! ## Resolving -/

/-- The span of the literal source of a node. -/
def spanOf (n : Markup.Node) : Except Fault SourceSpan :=
  match n.attribute? "src".toList with
  | some ⟨_, .static _ start stop, _, attributeStop⟩ => .ok ⟨start, stop, attributeStop⟩
  | _ => .error (.picture .dynamicSource)

/-- A node whose source has been resolved: a copy of its image is in place. -/
structure Task where
  label : NodeLabel
  role : Role
  span : SourceSpan
  plan : OutputPlan

/-- The source of a node that may be worked on, resolved; none if the node is skipped. -/
def locate (o : Options) (d : Document) (n : Markup.Node) (role : Role) (extensions : List Value) :
    Job (Option Task) := do
  let label := NodeLabel.ofNode d n
  let value := (n.attribute? "src".toList).map (·.value)
  match ← Resolution.ofValue value d.directory o extensions with
  | .skip reason detail =>
    logSkip label (reason.describe detail)
    return none
  | .process plan =>
    let span ← ofExcept id (spanOf n)
    return some ⟨label, role, span, plan⟩

/-- How far a node is after its first step. -/
inductive Begun where
  | located (t : Task)
  | reached (p : Progress)

/-- The first step of a node. -/
def begun (o : Options) (d : Document) (n : Markup.Node) : Job Begun := do
  let label := NodeLabel.ofNode d n
  match Eligibility.ofNode n o with
  | .error f => return .reached (escaped f)
  | .ok (.ineligible reason) =>
    logSkip label (SkipReason.notEligible.describe reason.message)
    return .reached (finished [])
  | .ok (.eligible role extensions) =>
    match ← attempt (locate o d n role extensions) with
    | .ok (some t) => return .located t
    | .ok none => return .reached (finished [])
    | .error f =>
      logFault label f
      return .reached (finished [])

/-! ## Pictures -/

/-- An image tag with its picture made. -/
def ofTag [Codec] (o : Options) (span : SourceSpan) (plan : OutputPlan) : Job Progress := do
  let uri ← plan.optimizeSingle o
  return finished [⟨span.start, span.stop, uri.toList⟩]

/-- A component whose picture has been looked at. -/
def ofComponent [Codec] (o : Options) (label : NodeLabel) (span : SourceSpan) (plan : OutputPlan) :
    Job Progress := do
  let h ← Picture.header plan.source
  let sizes := candidateSizes o.sizes (.int h.width)
  ensureDirectories plan.directory
  if sizes.isEmpty then throw (.picture (.noVariants plan.source.toString))
  return awaiting ⟨label, span, plan, h, sizes⟩

/-- The second step of a node whose source has been resolved. -/
def ofTask [Codec] (o : Options) (t : Task) : Job Progress :=
  match t.role with
  | .tag => ofTag o t.span t.plan
  | .component => ofComponent o t.label t.span t.plan

/-- The second step of a node. -/
def afterwards [Codec] (o : Options) : Begun → Job Progress
  | .located t => orLogged t.label (ofTask o t)
  | .reached p => return p

/-- The work on a node up to the making of variants. -/
def start [Codec] (o : Options) (d : Document) (n : Markup.Node) : Job Progress := do
  afterwards o (← begun o d n)

/-! ## Variants -/

/-- The making of variants. -/
def expand [Codec] (o : Options) : Progress → Job Progress
  | awaiting c => return made c (← attempt (Variant.ofSizes c.plan c.sizes c.header o))
  | p => return p

/-! ## Placeholders -/

/-- The extension that the second list of variants is for; empty if there is to be none. -/
def offeredExtension (o : Options) : Except Fault String :=
  if o.altFormat.truthy then o.altExtension else .ok ""

/-- The edits of a component: its source gives way to a placeholder, and the attributes that offer its
variants are put behind it. -/
def componentEdits (o : Options) (placeholder : Placeholder) (c : Component)
    (variants : List Variant) : Job (List Edit) := do
  if variants.isEmpty then throw (.picture (.noVariants c.plan.source.toString))
  let shown ← placeholder c.plan.source
  let extension ← ofExcept id (offeredExtension o)
  let extra ← ofExcept id (Srcset.attributes variants o.breakpoints extension)
  return [⟨c.span.start, c.span.stop, shown.toList⟩,
    ⟨c.span.attributeStop, c.span.attributeStop, extra.toList⟩]

/-- The work on a node after the making of variants. -/
def complete (o : Options) (placeholder : Placeholder) : Progress → Job Progress
  | made c outcome =>
    orLogged c.label do
      let variants ← ofExcept id outcome
      return finished (← componentEdits o placeholder c variants)
  | p => return p

end Progress

end ResponsiveImage.Rewrite
