import ResponsiveImage.Picture.Codec

/-!
# Sizes

A picture is scaled to a width; its height follows, rounded to the nearest integer and on a tie to
the even one, and neither is less than one. Of the configured sizes a picture gets those that do not
exceed it.
-/

namespace ResponsiveImage

/-- The dimensions of a picture scaled to a width. -/
def scaledSize (naturalWidth naturalHeight width : Number) : Except ArithmeticError (Int × Int) := do
  let scale ← (← width.toFloat).divide (← naturalWidth.toFloat)
  let w ← width.toInt
  let h ← ((← naturalHeight.toFloat).mul scale).round
  return (max 1 w, max 1 h)

/-- The sizes that a picture of a natural width gets: the configured ones that do not exceed it, or
the natural width if even the least does. -/
def candidateSizes (configured : List Number) (naturalWidth : Number) : List Number :=
  match configured with
  | [] => [naturalWidth]
  | n :: ns =>
    if naturalWidth.lt (Number.least n ns) then [naturalWidth]
    else (n :: ns).filter fun size ↦ size.le naturalWidth

/-- The dimensions of a picture resized to a width; a picture of that width stays as it is. -/
def resizedSize (h : Header) (width : Number) : Except Fault (Nat × Nat) :=
  if width.eq (.int h.width) then .ok (h.width, h.height)
  else
    match scaledSize (.int h.width) (.int h.height) width with
    | .ok (w, h) => .ok (w.toNat, h.toNat)
    | .error e => .error (.arithmetic e)

end ResponsiveImage
