/-!
# Signatures

The type of a picture as its first bytes tell it.
-/

namespace ResponsiveImage.Signature

/-- How many bytes at the start of a file are looked at. -/
def sampleSize : Nat := 8192

/-- The bytes with which a PNG file begins. -/
def png : List UInt8 := [0x89, 0x50, 0x4e, 0x47, 0x0d, 0x0a, 0x1a, 0x0a]

/-- A number written with the most significant byte first. -/
def bigEndian (bs : List UInt8) : Nat := bs.foldl (fun n b ↦ 256 * n + b.toNat) 0

/-- The bytes from one place up to another. -/
def slice (d : List UInt8) (start stop : Nat) : List UInt8 := (d.drop start).take (stop - start)

/-- The bytes of an ASCII text. -/
def ascii (s : String) : List UInt8 := s.toList.map fun c ↦ .ofNat c.toNat

/-- Whether the chunks of a PNG file, from a place on, come to an animation control before the
first image data. -/
def isAnimatedFrom (d : List UInt8) (i : Nat) : Bool :=
  if h : i < d.length then
    let length := bigEndian (slice d i (i + 4))
    let kind := (slice d (i + 4) (i + 8)).filter (· < 0x80)
    if kind == ascii "IDAT" || kind == ascii "IEND" then false
    else if kind == ascii "acTL" then true
    else isAnimatedFrom d (i + (8 + length + 4))
  else false
termination_by d.length - i

/-- The groups of four bytes from a place up to another. -/
def groups (d : List UInt8) (start stop : Nat) : List (List UInt8) :=
  (List.range ((stop - start + 3) / 4)).map fun k ↦
    slice d (start + 4 * k) (start + 4 * k + 4)

/-- Whether a file in the ISO media format is of a brand: its major brand is that one, or it is a
general brand of pictures and that one is among the compatible brands. -/
def isBrand (d : List UInt8) (brand : String) : Bool :=
  let box := bigEndian (slice d 0 4)
  let major := slice d 8 12
  16 ≤ d.length && slice d 4 8 == ascii "ftyp" && box ≤ d.length &&
    (major == ascii brand ||
      ((major == ascii "mif1" || major == ascii "msf1") &&
        (groups d 16 box).contains (ascii brand)))

def isTiff (d : List UInt8) : Bool :=
  9 < d.length && (slice d 0 4 == [0x49, 0x49, 0x2a, 0] || slice d 0 4 == [0x4d, 0x4d, 0, 0x2a])

/-- The signatures that are looked for, in order; none stands for a type that is no picture. -/
def signatures : List ((List UInt8 → Bool) × Option String) :=
  [(fun d ↦ (ascii "AC10").isPrefixOf d, some "vnd.dwg"),
    (fun d ↦ (ascii "gimp xcf v").isPrefixOf d, some "x-xcf"),
    (fun d ↦ [0xff, 0xd8, 0xff].isPrefixOf d, some "jpeg"),
    (fun d ↦ 50 < d.length && slice d 0 4 == [0, 0, 0, 0x0c] && slice d 16 24 == ascii "ftypjp2 ",
      some "jpx"),
    (fun d ↦ 8 < d.length && png.isPrefixOf d && isAnimatedFrom d 8, some "apng"),
    (fun d ↦ [0x89, 0x50, 0x4e, 0x47].isPrefixOf d, some "png"),
    (fun d ↦ (ascii "GIF").isPrefixOf d, some "gif"),
    (fun d ↦ 13 < d.length && (ascii "RIFF").isPrefixOf d && slice d 8 14 == ascii "WEBPVP",
      some "webp"),
    (fun d ↦ isTiff d && slice d 8 10 != ascii "CR", some "tiff"),
    (fun d ↦ isTiff d && slice d 8 10 == ascii "CR", some "x-canon-cr2"),
    (fun d ↦ (ascii "BM").isPrefixOf d, some "bmp"),
    (fun d ↦ [0x49, 0x49, 0xbc].isPrefixOf d, some "vnd.ms-photo"),
    (fun d ↦ (ascii "8BPS").isPrefixOf d, some "vnd.adobe.photoshop"),
    (fun d ↦ [0, 0, 1, 0].isPrefixOf d, some "x-icon"),
    (fun d ↦ isBrand d "heic", some "heic"),
    (fun d ↦ 132 < d.length && slice d 128 132 == ascii "DICM", none),
    (fun d ↦ isBrand d "avif", some "avif")]

/-- The media type of the picture that some data is, if they are one. -/
def mimeType? (data : List UInt8) : Option String :=
  let d := data.take sampleSize
  match signatures.find? fun s ↦ s.1 d with
  | some (_, some name) => some ("image/" ++ name)
  | _ => none

end ResponsiveImage.Signature
