import ResponsiveImage.Picture.Encoder
import ResponsiveImage.Picture.OutputPlan

/-!
# Variants

An image is made in several sizes, each a variant; one that is there already is used again. An image
tag instead gets one optimised copy, or the data of a small image itself.
-/

namespace ResponsiveImage

open Json (Value)

/-- One rendition of an image: the size asked for, its dimensions and its URL. -/
structure Variant where
  size : Number
  width : Int
  height : Int
  url : String
  altAvailable : Bool := false
deriving DecidableEq

namespace Variant

open Job

/-- Makes the alternate rendition of a size, if there is to be one and it is not there. -/
def ensureAlternate [Codec] (p : OutputPlan) (size : Number) (o : Options) : Job Bool := do
  if o.altFormat.truthy then
    if !(← exists? (p.sizedAlternatePath size)) then
      let settings ← ofExcept id o.altSettings
      Picture.encodeAlternate p.source size (p.sizedAlternatePath size) settings
    return true
  else return false

/-- Makes the rendition of a size, or finds the one that is there. -/
def ensureSized [Codec] (p : OutputPlan) (size : Number) (o : Options) : Job Header := do
  if ← exists? (p.sizedPath size) then Picture.header (p.sizedPath size)
  else Picture.derive p.source size (p.sizedPath size) o

/-- The variant of a size, unless that exceeds the picture. -/
def ofSize [Codec] (p : OutputPlan) (size : Number) (h : Header) (o : Options) :
    Job (Option Variant) := do
  if (Number.int h.width).lt size then return none
  let altAvailable ← ensureAlternate p size o
  let produced ← ensureSized p size o
  return some ⟨size, produced.width, produced.height, p.sizedUrl size, altAvailable⟩

/-- The first fault among outcomes, or all that came out. -/
def gather {α : Type} : List (Except Fault α) → Except Fault (List α)
  | [] => .ok []
  | .error f :: _ => .error f
  | .ok a :: rs => (gather rs).map (a :: ·)

/-- The variants of some sizes. All sizes are tried, even after one has failed. -/
def ofSizes [Codec] (p : OutputPlan) (sizes : List Number) (h : Header) (o : Options) :
    Job (List Variant) := do
  let outcomes ← sizes.mapM fun size ↦ attempt (ofSize p size h o)
  let variants ← ofExcept id (gather outcomes)
  return variants.filterMap id

/-- The variants of an image. -/
def generate [Codec] (p : OutputPlan) (o : Options) : Job (List Variant) := do
  let h ← Picture.header p.source
  let sizes := candidateSizes o.sizes (.int h.width)
  ensureDirectories p.directory
  ofSizes p sizes h o

end Variant

namespace OutputPlan

open Job

/-- Whether a file of some size goes into the document itself. -/
def isInlined (o : Options) (size : Nat) : Except Fault Bool := do
  if !o.inlineBelow.truthy then return false
  let limit ← Options.number o.inlineBelow
  return (Number.int size).lt limit

/-- What replaces the source of an image tag: the data of a small image, or the URL of an optimised
copy. -/
def optimizeSingle [Codec] (p : OutputPlan) (o : Options) : Job String := do
  let size ← fileSize p.source
  if ← ofExcept id (isInlined o size) then Picture.inlineData p.source
  else
    ensureDirectories p.directory
    Picture.writeOptimized p.source p.path o
    return p.url

end OutputPlan

end ResponsiveImage
