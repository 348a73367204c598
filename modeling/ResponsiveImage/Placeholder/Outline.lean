import ResponsiveImage.Options.Basic
import ResponsiveImage.Picture.Encoder
import ResponsiveImage.Placeholder.Raster

/-!
# Outlines

A placeholder may be the outline of a picture. Its shades are cut at a threshold, a tracer turns the
dark part into curves, and these are drawn in one colour on another.
-/

namespace ResponsiveImage

open Json (Value)

structure Point where
  x : Binary64
  y : Binary64

/-- A part of a curve: two lines that meet at a corner, or an arc with two control points. -/
inductive Segment where
  | corner (corner stop : Point)
  | arc (first second stop : Point)

structure Curve where
  start : Point
  segments : List Segment

/-- Why a tracer gives no curves. -/
inductive TracerFault where
  | broken (reason : String)
  | refused (reason : String)

/-- Turns the dark part of a picture, of which spots up to some size are left out, into curves. -/
abbrev Tracer := Shades → Value → Except TracerFault (List Curve)

namespace Outline

/-! ## Drawing -/

def pointText (p : Point) : String :=
  let x := p.x.text
  let y := p.y.text
  s!"{x},{y}"

def segmentText : Segment → String
  | .corner corner stop => "L" ++ pointText corner ++ "L" ++ pointText stop
  | .arc first second stop =>
    "C" ++ pointText first ++ " " ++ pointText second ++ " " ++ pointText stop

def curveText (c : Curve) : String :=
  "M" ++ pointText c.start ++ String.join (c.segments.map segmentText) ++ "z"

/-- Curves as the commands of a path. -/
def pathData (curves : List Curve) : String := String.join (curves.map curveText)

/-- The drawing of some curves. -/
def drawing (s : TraceSettings) (width height : Nat) (curves : List Curve) : String :=
  let background := s.background.text
  let colour := s.color.text
  let data := pathData curves
  s!"<svg xmlns=\"http://www.w3.org/2000/svg\" width=\"{width}\" height=\"{height}\" " ++
    s!"viewBox=\"0 0 {width} {height}\">" ++
    s!"<rect x=\"0\" y=\"0\" width=\"100%\" height=\"100%\" fill=\"{background}\"/>" ++
    s!"<path stroke=\"none\" fill=\"{colour}\" fill-rule=\"evenodd\" d=\"{data}\"/></svg>"

/-! ## Tracing -/

/-- How messages call the kind of a value that is no number. -/
def kindOf : Value → String
  | .null => "NoneType"
  | .string _ => "str"
  | .array _ => "list"
  | .object _ => "dict"
  | .bool _ => "bool"
  | .int _ => "int"
  | .float _ => "float"

/-- Shades cut at a threshold: darker ones are black and the others white. -/
def cut (threshold : Number) (s : Shades) : Shades :=
  let level (v : Nat) : Nat := if (Number.int v).lt threshold then 0 else 255
  ⟨s.width, s.height, s.pixels?.map (List.map level)⟩

/-- The black and white picture that is traced. The path is told in messages. -/
def bitmap (path : String) (s : TraceSettings) (r : Raster) : Except Fault Shades := do
  let gray ← r.grayscale (← Options.number s.size)
  match s.threshold.number? with
  | some threshold => return cut threshold gray
  | none =>
    let kind := kindOf s.threshold
    let reason := s!"'<' not supported between instances of 'int' and '{kind}'"
    .error (.picture (.untraceable path reason))

/-- The outline of a raster, drawn. -/
def draw (path : String) (s : TraceSettings) (tracer : Tracer) (r : Raster) :
    Except Fault String := do
  let b ← bitmap path s r
  match tracer b s.turdSize with
  | .ok curves => return drawing s b.width b.height curves
  | .error (.refused reason) => .error (.picture (.refused reason))
  | .error (.broken reason) => .error (.picture (.untraceable path reason))

/-- The media type of drawings. -/
def mimeType : String := "image/svg+xml"

/-- A drawing as a URI. -/
def uri (drawing : String) : String := Picture.dataUri mimeType (Text.Utf8.encode drawing.toList)

end Outline

end ResponsiveImage
