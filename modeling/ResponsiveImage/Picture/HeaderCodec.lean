import ResponsiveImage.Picture.Codec
import ResponsiveImage.Picture.Signature

/-!
# A codec without pixels

A codec whose files are no more than headers: the bytes with which the files of a format begin, the name
of the format and the dimensions. It tells the dimensions of any PNG file, and other pictures only if
it could have written them. With it the program can be run, and what becomes of its files be evaluated.
-/

namespace ResponsiveImage.HeaderCodec

open Signature

/-- The formats of pictures. -/
def formats : List String :=
  ["AVIF", "BLP", "BMP", "BUFR", "DDS", "DIB", "EMF", "EPS", "GIF", "GRIB", "HDF5", "ICNS", "ICO",
    "IM", "JPEG", "JPEG2000", "MPO", "MSP", "PALM", "PCX", "PDF", "PNG", "PPM", "QOI", "SGI",
    "SPIDER", "TGA", "TIFF", "WEBP", "WMF", "XBM"]

/-- The bytes with which the files of a format begin. -/
def lead (format : String) : List UInt8 :=
  match format with
  | "JPEG" => [0xff, 0xd8, 0xff, 0xe0]
  | "GIF" => ascii "GIF89a"
  | "WEBP" => ascii "RIFF" ++ [0, 0, 0, 0] ++ ascii "WEBPVP8 "
  | "BMP" => ascii "BM"
  | "TIFF" => [0x49, 0x49, 0x2a, 0, 8, 0, 0, 0]
  | _ => []

/-- Some bytes made up to a length with zeros. -/
def padded (length : Nat) (bs : List UInt8) : List UInt8 := bs ++ List.replicate (length - bs.length) 0

/-- What stands before the dimensions. In a PNG file that is the start of its first chunk. -/
def opening (format : String) : List UInt8 :=
  if format = "PNG" then png ++ [0, 0, 0, 13] ++ ascii "IHDR"
  else padded 16 (lead format) ++ padded 12 (ascii format)

/-- What stands behind the dimensions. In a PNG file that is the rest of its first chunk. -/
def closing : List UInt8 := [8, 2, 0, 0, 0] ++ ascii "none"

/-- A number in four bytes. -/
def fourBytes (n : Nat) : List UInt8 :=
  [.ofNat (n / 0x1000000), .ofNat (n / 0x10000), .ofNat (n / 0x100), .ofNat n]

/-- The file of a format with some dimensions. -/
def file (h : Header) : Content :=
  .bytes (opening h.format ++ fourBytes h.width ++ fourBytes h.height ++ closing)

/-- The dimensions that stand in a file behind so many bytes. -/
def dimensions (d : List UInt8) (place : Nat) : Nat × Nat :=
  (bigEndian (slice d place (place + 4)), bigEndian (slice d (place + 4) (place + 8)))

/-- The picture in the first chunk of a PNG file. -/
def pngHeader? (d : List UInt8) : Option Header :=
  if png.isPrefixOf d && slice d 12 16 == ascii "IHDR" && 33 ≤ d.length then
    let (width, height) := dimensions d 16
    some ⟨"PNG", width, height⟩
  else none

/-- The picture in a file of another format. -/
def otherHeader? (d : List UInt8) : Option Header :=
  (formats.find? fun f ↦ opening f == d.take 28).map fun f ↦
    let (width, height) := dimensions d 28
    ⟨f, width, height⟩

def header? (c : Content) : Option Header := (pngHeader? c.data).or (otherHeader? c.data)

/-- The file that is made of any picture. -/
def encode (e : Encoding) : Except CodecFault Content :=
  if formats.contains e.format then
    if max e.width e.height < 0x100000000 then .ok (file ⟨e.format, e.width, e.height⟩)
    else .error (.refused "image is too large")
  else if e.format = "" then .error (.refused "unknown file extension: ")
  else .error (.refused (Text.quoted e.format))

theorem bigEndian_fourBytes {n : Nat} (hn : n < 0x100000000) : bigEndian (fourBytes n) = n := by
  simp only [bigEndian, fourBytes, List.foldl_cons, List.foldl_nil, UInt8.toNat_ofNat']
  omega

/-- Behind an opening the dimensions are told. -/
theorem dimensions_file (before : List UInt8) {width height : Nat} (hwidth : width < 0x100000000)
    (hheight : height < 0x100000000) :
    dimensions (before ++ fourBytes width ++ fourBytes height ++ closing) before.length =
      (width, height) := by
  have hslice : slice (before ++ fourBytes width ++ fourBytes height ++ closing) before.length
        (before.length + 4) = fourBytes width ∧
      slice (before ++ fourBytes width ++ fourBytes height ++ closing) (before.length + 4)
        (before.length + 8) = fourBytes height := by
    constructor
    · simp [slice, fourBytes, List.append_assoc]
    · rw [slice, List.append_assoc, List.drop_left' (by simp [fourBytes])]
      simp [fourBytes]
  rw [dimensions, hslice.1, hslice.2, bigEndian_fourBytes hwidth, bigEndian_fourBytes hheight]

theorem length_opening : ∀ f ∈ formats, (opening f).length = if f = "PNG" then 16 else 28 := by
  decide +kernel

/-- No other file begins as a PNG file does. -/
theorem take_opening : ∀ f ∈ formats, f ≠ "PNG" → (opening f).take 8 ≠ png := by
  decide +kernel

/-- The formats have openings of their own. -/
theorem find?_opening :
    ∀ f ∈ formats, formats.find? (fun g ↦ opening g == opening f) = some f := by
  decide +kernel

theorem pngHeader?_file {width height : Nat} (hwidth : width < 0x100000000)
    (hheight : height < 0x100000000) :
    pngHeader? (file ⟨"PNG", width, height⟩).data = some ⟨"PNG", width, height⟩ := by
  have hlength : (opening "PNG").length = 16 := by decide +kernel
  have hdimensions := dimensions_file (opening "PNG") hwidth hheight
  rw [hlength] at hdimensions
  have hbegins : ∀ rest : List UInt8, png.isPrefixOf (opening "PNG" ++ rest) = true ∧
      slice (opening "PNG" ++ rest) 12 16 = ascii "IHDR" := by
    intro rest
    rw [show opening "PNG" = png ++ [0, 0, 0, 13] ++ ascii "IHDR" from rfl]
    exact ⟨by simp [List.append_assoc], rfl⟩
  obtain ⟨hstart, hkind⟩ := hbegins (fourBytes width ++ (fourBytes height ++ closing))
  simp only [← List.append_assoc] at hstart hkind
  have hlong : 33 ≤ (opening "PNG" ++ fourBytes width ++ fourBytes height ++ closing).length := by
    simp [hlength, fourBytes, closing, ascii]
  rw [pngHeader?, file, hstart, hkind, hdimensions, decide_eq_true hlong]
  rfl

theorem header?_file_of_ne {h : Header} (hformat : h.format ∈ formats) (hother : h.format ≠ "PNG")
    (hwidth : h.width < 0x100000000) (hheight : h.height < 0x100000000) : header? (file h) = some h := by
  have hlength := length_opening _ hformat
  rw [if_neg hother] at hlength
  have hdimensions := dimensions_file (opening h.format) hwidth hheight
  rw [hlength] at hdimensions
  have hnot : png.isPrefixOf (file h).data = false := by
    rw [Bool.eq_false_iff, ne_eq, List.isPrefixOf_iff_prefix]
    intro hstart
    refine take_opening _ hformat hother ?_
    rw [List.prefix_iff_eq_take.mp hstart, file]
    simp only [List.append_assoc]
    rw [List.take_append_of_le_length (by simp [hlength, png])]
    rfl
  have htake : (file h).data.take 28 = opening h.format := by
    simp only [file, List.append_assoc]
    rw [← hlength, List.take_left]
  rw [header?, pngHeader?, hnot, otherHeader?, htake, find?_opening _ hformat]
  simp only [Bool.false_and, Bool.false_eq_true, if_false, Option.none_or, Option.map_some, file,
    hdimensions]

/-- A file that has been made is read as what it was made for. -/
theorem header?_file {h : Header} (hformat : h.format ∈ formats) (hwidth : h.width < 0x100000000)
    (hheight : h.height < 0x100000000) : header? (file h) = some h := by
  by_cases hpng : h.format = "PNG"
  · obtain ⟨format, width, height⟩ := h
    obtain rfl : format = "PNG" := hpng
    rw [header?, pngHeader?_file hwidth hheight, Option.some_or]
  · exact header?_file_of_ne hformat hpng hwidth hheight

theorem encode_eq_ok {e : Encoding} {d : Content} (h : encode e = .ok d) :
    d = file ⟨e.format, e.width, e.height⟩ ∧ e.format ∈ formats ∧ e.width < 0x100000000 ∧
      e.height < 0x100000000 := by
  rw [encode] at h
  split at h
  · rename_i hknown
    split at h
    · cases h
      exact ⟨rfl, List.contains_iff_mem.mp hknown, by omega, by omega⟩
    · cases h
  · split at h <;> cases h

/-- The codec without pixels. -/
scoped instance instCodec : Codec where
  header? := header?
  encode _ e := encode e
  exists_header?_of_encode h := by
    obtain ⟨rfl, hformat, hwidth, hheight⟩ := encode_eq_ok h
    exact ⟨_, header?_file hformat hwidth hheight⟩
  slash_not_mem_of_encode h := by
    obtain ⟨-, hformat, -, -⟩ := encode_eq_ok h
    have hformats : ∀ f ∈ formats, '/' ∉ f.toList := by decide +kernel
    exact hformats _ hformat

end ResponsiveImage.HeaderCodec
