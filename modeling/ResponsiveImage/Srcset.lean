import ResponsiveImage.Path.Url
import ResponsiveImage.Picture.Variant

/-!
# Source sets

The attributes that offer the variants of an image: a list of their URLs with breakpoints, the ratio
of height to width, and a second list that names the variants in the alternate format.
-/

namespace ResponsiveImage.Srcset

open Json (Value)

/-- The URL of a variant, with slashes only. -/
def urlOf (v : Variant) : List Char := Url.forwardSlashes v.url.toList

/-- One entry: a URL and the breakpoint up to which it is shown. -/
def entry (url : List Char) (breakpoint : Value) : String :=
  let url := String.ofList url
  let breakpoint := breakpoint.text
  s!"{url} {breakpoint}w"

/-- The list of variants, each with the breakpoint at its place, where `link` makes the URLs. -/
def withUrls (link : Variant → List Char) (variants : List Variant) (breakpoints : List Value) :
    Except Fault String :=
  if breakpoints.length < variants.length then
    .error (.tooFewBreakpoints variants.length breakpoints.length)
  else .ok (",".intercalate (List.zipWith (fun v b ↦ entry (link v) b) variants breakpoints))

def text (variants : List Variant) (breakpoints : List Value) : Except Fault String :=
  withUrls urlOf variants breakpoints

/-- The list of the variants in the alternate format. -/
def alternate (variants : List Variant) (breakpoints : List Value) (extension : String) :
    Except Fault String :=
  withUrls (fun v ↦ Url.swapExtension (urlOf v) extension.toList) variants breakpoints

/-- The height in percent of the width. -/
def aspectRatio (width height : Number) : Except ArithmeticError Binary64 := do
  return (← height.divide width).mul (.ofInt 100)

/-- A ratio with a percent sign; a whole number has no fraction. -/
def formatRatio (x : Number) : Except ArithmeticError String := do
  match (← x.toFloat).integer? with
  | some _ => return toString (← x.toInt) ++ "%"
  | none => return x.text ++ "%"

/-- The name of the attribute for the alternate format. -/
def alternateName (extension : String) : String :=
  let cs := extension.toList
  "srcset" ++ String.ofList (Text.upperChars (cs.take 1) ++ Text.lowerChars (cs.drop 1))

/-- An attribute as it stands in a tag. -/
def attributeText (name value : String) : String := name ++ "=\"" ++ value ++ "\""

/-- The attributes that are put behind the source of a component. The list for the alternate format is
left out if its extension is empty. -/
def attributes (variants : List Variant) (breakpoints : List Value) (altExtension : String) :
    Except Fault String := do
  let srcset ← text variants breakpoints
  let ratio ← match variants with
    | [] => .error .noFirstVariant
    | v :: _ =>
      match aspectRatio (.int v.width) (.int v.height) >>= fun r ↦ formatRatio (.float r) with
      | .ok ratio => .ok ratio
      | .error e => .error (.arithmetic e)
  let always := [attributeText "srcset" srcset, attributeText "ratio" ratio]
  let parts ←
    if altExtension = "" then pure always
    else
      let second ← alternate variants breakpoints altExtension
      pure (always ++ [attributeText (alternateName altExtension) second])
  return " " ++ " ".intercalate parts

end ResponsiveImage.Srcset
