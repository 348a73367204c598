import ResponsiveImage.Text.Blank
import ResponsiveImage.Text.Case
import ResponsiveImage.Text.Split

/-!
# Content types

The file extension that the content type of a picture stands for, and the content types that are
taken at their word when they are none of a picture.
-/

namespace ResponsiveImage.ContentType

open Text

/-- A content type without its parameters, in small letters, at its slashes. -/
def segments (contentType : List Char) : List (List Char) :=
  splitOn '/' (lowerChars (trim (contentType.takeWhile (· != ';'))))

/-- The extension of files of the subtype of a picture. -/
def subtypeExtension (subtype : String) : String :=
  match subtype with
  | "jpeg" => "jpg"
  | "svg+xml" => "svg"
  | other => other

/-- The extension of files of a content type, if it is that of a picture. -/
def extension? (contentType : String) : Option String :=
  match segments contentType.toList with
  | [kind, subtype] =>
    if kind = "image".toList && !subtype.isEmpty then
      some (subtypeExtension (String.ofList subtype))
    else none
  | _ => none

/-- Whether a content type rules out that the content is a picture. -/
def isConclusive (contentType : String) : Bool :=
  let given := lowerChars contentType.toList
  "text/".toList.isPrefixOf given || "application/json".toList.isPrefixOf given

end ResponsiveImage.ContentType
