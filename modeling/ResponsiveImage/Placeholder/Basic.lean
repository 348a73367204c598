import ResponsiveImage.Options.Basic
import ResponsiveImage.Workspace

/-!
# Placeholders

While an image loads something else is shown in its place: whatever a placeholder makes of the file of
the image.
-/

namespace ResponsiveImage

/-- The URI that stands in for the image in a file. -/
abbrev Placeholder := Path → Job String

namespace Placeholder

/-- A placeholder that tells no more than its kind and the name of the file. -/
def label (kind : PlaceholderKind) : Placeholder := fun p ↦
  let kind := kind.text
  let name := p.name
  return s!"data:{kind},{name}"

/-- A placeholder that refuses the files of one name. -/
def refusing (name reason : String) (placeholder : Placeholder) : Placeholder := fun p ↦
  if p.name = name then throw (.picture (.refused reason)) else placeholder p

end Placeholder

end ResponsiveImage
