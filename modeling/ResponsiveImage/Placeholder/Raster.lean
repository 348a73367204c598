import ResponsiveImage.Picture.Size

/-!
# Rasters

A picture as rows of pixels, and its copy in shades of gray. Where a picture is transparent its copy
is white. When a picture is scaled only the dimensions of the result are known.
-/

namespace ResponsiveImage

inductive RasterMode where
  | bilevel
  | gray
  | grayAlpha
  | palette
  | rgb
  | rgba
  | cmyk
deriving DecidableEq, Repr

namespace RasterMode

def text : RasterMode → String
  | .bilevel => "1"
  | .gray => "L"
  | .grayAlpha => "LA"
  | .palette => "P"
  | .rgb => "RGB"
  | .rgba => "RGBA"
  | .cmyk => "CMYK"

def all : List RasterMode := [bilevel, gray, grayAlpha, palette, rgb, rgba, cmyk]

def ofText? (text : String) : Option RasterMode := all.find? fun m ↦ m.text == text

/-- The mode in which a picture of this mode is written where four inks are not known. -/
def screen : RasterMode → RasterMode
  | .cmyk => .rgba
  | m => m

end RasterMode

/-- Pixels row by row, each a list of its channels. -/
structure Raster where
  mode : RasterMode
  width : Nat
  height : Nat
  /-- The colours of a palette, three numbers each. -/
  colours : List Nat := []
  pixels : List (List Nat)
deriving Repr

/-- A picture in shades of gray, or in two, whose pixels are known unless it was scaled. -/
structure Shades where
  width : Nat
  height : Nat
  pixels? : Option (List Nat)
deriving DecidableEq, Repr

namespace Raster

/-- The product of two parts of 255, as a part of 255. -/
def product (a b : Nat) : Nat :=
  let t := a * b + 128
  (t / 256 + t) / 256

/-- The shade of a colour. -/
def luma (r g b : Nat) : Nat := (r * 19595 + g * 38470 + b * 7471 + 0x8000) / 65536

/-- A channel with some opacity, laid over white. -/
def overWhite (alpha s : Nat) : Nat :=
  if alpha = 0 then 255
  else
    let whole := alpha * 255 + 255 * (255 - alpha)
    let c := alpha * 255 * 255 * 128 / whole
    let t := s * c + 255 * (255 * 128 - c) + 128 * 128
    (t / 256 + t) / 256 / 128

/-- The shade of a colour with some opacity. -/
def lumaOverWhite (r g b alpha : Nat) : Nat :=
  luma (overWhite alpha r) (overWhite alpha g) (overWhite alpha b)

/-- The shade of a mixture of inks. -/
def lumaOfInks (c m y k : Nat) : Nat :=
  let light := 255 - k
  luma (light - product c light) (light - product m light) (light - product y light)

/-- The shade of a pixel. -/
def shade (r : Raster) (pixel : List Nat) : Nat :=
  match r.mode, pixel with
  | .bilevel, [v] => if v = 0 then 0 else 255
  | .gray, [v] => v
  | .grayAlpha, [v, alpha] => lumaOverWhite v v v alpha
  | .palette, [i] =>
    let colour (k : Nat) : Nat := r.colours.getD (3 * i + k) 0
    lumaOverWhite (colour 0) (colour 1) (colour 2) 255
  | .rgb, [red, green, blue] => luma red green blue
  | .rgba, [red, green, blue, alpha] => lumaOverWhite red green blue alpha
  | .cmyk, [c, m, y, k] => lumaOfInks c m y k
  | _, _ => 0

def header (r : Raster) : Header := ⟨"", r.width, r.height⟩

/-- A raster scaled to a width, in shades of gray. -/
def grayscale (r : Raster) (width : Number) : Except Fault Shades := do
  let (w, h) ← resizedSize r.header width
  let pixels? := if width.eq (.int r.width) then some (r.pixels.map r.shade) else none
  return ⟨w, h, pixels?⟩

/-- The lesser of two numbers, and on a tie the first. -/
def lesser (a b : Number) : Number := if b.lt a then b else a

/-- The mode and the dimensions of the small copy of a raster that is shown blurred; it is no wider
than the raster. -/
def blurred (r : Raster) (width : Number) : Except Fault (RasterMode × Nat × Nat) := do
  let (w, h) ← resizedSize r.header (lesser width (.int r.width))
  return (r.mode.screen, w, h)

end Raster

end ResponsiveImage
