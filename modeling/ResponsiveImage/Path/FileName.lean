import ResponsiveImage.Text.Case
import ResponsiveImage.Text.Split

/-!
# File names

A file name has a stem and a suffix that begins at its last dot; a dot at either end of the name
begins none.
-/

namespace ResponsiveImage.FileName

open Text

/-- The stem and the suffix of a name; the suffix has its dot or is empty. -/
def split (name : List Char) : List Char × List Char :=
  match splitLast '.' name with
  | some (stem, extension) =>
    if stem.isEmpty || extension.isEmpty then (name, []) else (stem, '.' :: extension)
  | none => (name, [])

theorem split_append (name : List Char) : (split name).1 ++ (split name).2 = name := by
  unfold split
  split
  · rename_i h
    split
    · simp
    · exact (splitLast_eq_some h).symm
  · simp

def stem (name : String) : String := String.ofList (split name.toList).1

def suffix (name : String) : String := String.ofList (split name.toList).2

/-- What stands after the last dot of the last segment of a value, in small letters. -/
def extensionOf (value : List Char) : List Char :=
  match splitLast '.' (afterLast '/' value) with
  | some (_, extension) => lowerChars extension
  | none => []

def fileExtension (value : String) : String := String.ofList (extensionOf value.toList)

/-- An extension as it is compared: in small letters, without dots before it. -/
def normalise (extension : List Char) : List Char := trimLeft '.' (lowerChars extension)

/-- Whether the extension of a value is one of a list. The empty list allows all. -/
def isAllowed (value : String) (extensions : List String) : Bool :=
  extensions.isEmpty ||
    (extensions.map fun e ↦ normalise e.toList).contains (extensionOf value.toList)

/-- The name of the rendition of a given size. -/
def sized (name : String) (size : String) : String := stem name ++ "-" ++ size ++ suffix name

/-- The name of the rendition of a given size in the alternate format. -/
def sizedAlternate (name : String) (size extension : String) : String :=
  stem name ++ "-" ++ size ++ "." ++ extension

end ResponsiveImage.FileName
