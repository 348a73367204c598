import ResponsiveImage.Options.Basic
import ResponsiveImage.Picture.MimeType
import ResponsiveImage.Picture.Signature
import ResponsiveImage.Picture.Size
import ResponsiveImage.Text.Base64
import ResponsiveImage.Workspace

/-!
# Making pictures

Pictures are read from files, scaled, and written in a format. Files that are small enough go into a
document as they are, in base 64.
-/

namespace ResponsiveImage

open Json (Value)

namespace Encoder

/-- The settings with which a picture is written in its own format. -/
def settings (o : Options) (format : String) : List (String × Value) :=
  match Text.upper format with
  | "JPEG" =>
    [("quality", .ofNumber o.quality), ("optimize", .bool true), ("progressive", .bool false)]
  | "PNG" => [("compress_level", .ofNumber o.compressionLevel)]
  | "WEBP" => [("quality", .ofNumber o.quality)]
  | _ => []

/-- The settings with which a picture is written at its own size. -/
def fullSettings (o : Options) (format : String) : List (String × Value) :=
  if format = "WEBP" then settings o format ++ [("lossless", .bool true)] else settings o format

/-- The settings with which a picture is written in the alternate format. -/
def alternateSettings (a : AltFormat) (format : String) : List (String × Value) :=
  if format = "WEBP" then [("quality", a.quality), ("lossless", a.lossless)]
  else [("quality", a.quality)]

/-- A picture written in a format, with a refusal told as a fault. -/
def encode [Codec] (source : Content) (e : Encoding) : Except Fault Content :=
  match Codec.encode source e with
  | .ok c => .ok c
  | .error (.refused reason) => .error (.picture (.unencodable e.format reason))
  | .error (.raised f) => .error f

end Encoder

namespace Picture

open Job

/-- How a picture is written that is scaled to a width. -/
def scaled (h : Header) (width : Number) (format : String) (settings : List (String × Value))
    (inColour : Bool) : Except Fault Encoding := do
  let (w, height) ← resizedSize h width
  return ⟨format, w, height, settings, inColour⟩

/-- The picture in a file. -/
def read [Codec] (p : Path) : Job (Content × Header) := do
  match ← attempt (readFile p) with
  | .error (.file e) => throw (.picture (.unreadable p.toString e))
  | .error f => throw f
  | .ok c =>
    match c.header? with
    | some h => return (c, h)
    | none => throw (.picture (.unidentified p.toString))

/-- The format and the dimensions of the picture in a file. -/
def header [Codec] (p : Path) : Job Header := return (← read p).2

/-- Writes a picture, scaled to a width, in its own format. -/
def derive [Codec] (source : Path) (width : Number) (target : Path) (o : Options) :
    Job Header := do
  let (c, h) ← read source
  let encoding ← ofExcept id (scaled h width h.format (Encoder.settings o h.format) false)
  writeFile target (← ofExcept id (Encoder.encode c encoding))
  return ⟨encoding.format, encoding.width, encoding.height⟩

/-- Writes a picture, scaled to a width, in the alternate format. -/
def encodeAlternate [Codec] (source : Path) (width : Number) (target : Path) (a : AltFormat) :
    Job Unit := do
  let format := Text.upper (← ofExcept id (Options.text a.format))
  let (c, h) ← read source
  let encoding ← ofExcept id (scaled h width format (Encoder.alternateSettings a format) true)
  writeFile target (← ofExcept id (Encoder.encode c encoding))

/-- Writes a picture at its own size. -/
def writeOptimized [Codec] (source target : Path) (o : Options) : Job Unit := do
  let (c, h) ← read source
  let encoding := ⟨h.format, h.width, h.height, Encoder.fullSettings o h.format, false⟩
  writeFile target (← ofExcept id (Encoder.encode c encoding))

/-- The type of a picture file, told by its content or else by its name. -/
def mimeType? (name : String) (c : Content) : Option String :=
  (Signature.mimeType? c.data).orElse fun _ ↦ MimeType.ofName? name

/-- The URI that holds some data itself. -/
def dataUri (mime : String) (data : List UInt8) : String :=
  let encoded := String.ofList (Text.Base64.encode data)
  s!"data:{mime};base64,{encoded}"

/-- The content of a file as a URI. -/
def inlineData (p : Path) : Job String := do
  let c ← readFile p
  match mimeType? p.name c with
  | some mime => return dataUri mime c.data
  | none => throw (.picture (.untyped p.toString))

end Picture

end ResponsiveImage
