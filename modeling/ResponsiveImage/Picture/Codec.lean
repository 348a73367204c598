import ResponsiveImage.Fault

/-!
# Codecs

A codec tells the picture that a file holds and writes pictures in its formats. Everything that is made
of an image is made by a codec, which the program is given; what it does with the pixels is its own
affair. Of what it writes only two things are known: that it can be read again, with the dimensions
asked for, and that the format has a name without slashes. Formats that do not keep the dimensions of a
picture, as those of icons, are not among the formats of a codec.
-/

namespace ResponsiveImage

/-- The format and the dimensions of a picture. -/
structure Header where
  format : String
  width : Nat
  height : Nat
deriving DecidableEq, Repr

/-- How a picture is encoded. -/
structure Encoding where
  format : String
  width : Nat
  height : Nat
  settings : List (String × Json.Value)
  /-- Whether shades and palettes are turned into colours before. -/
  inColour : Bool := false

/-- Why a picture is not written. -/
inductive CodecFault where
  /-- The format or the settings do not allow it. -/
  | refused (reason : String)
  /-- Anything else that goes wrong. -/
  | raised (f : Fault)

/-- A way to tell pictures and to write them. -/
class Codec where
  /-- The picture that a file holds, if it holds one. -/
  header? : Content → Option Header
  /-- The picture of a file, written anew. -/
  encode : Content → Encoding → Except CodecFault Content
  /-- What has been written is a picture with the dimensions asked for. -/
  exists_header?_of_encode {c d : Content} {e : Encoding} :
    encode c e = .ok d → ∃ format, header? d = some ⟨format, e.width, e.height⟩
  /-- No format has a slash in its name. -/
  slash_not_mem_of_encode {c d : Content} {e : Encoding} :
    encode c e = .ok d → '/' ∉ e.format.toList

/-- The picture that a file holds, if it holds one. -/
def Content.header? [Codec] (c : Content) : Option Header := Codec.header? c

end ResponsiveImage
