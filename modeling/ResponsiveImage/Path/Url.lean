import ResponsiveImage.Text.Case
import ResponsiveImage.Text.Search
import ResponsiveImage.Text.Split

/-!
# URLs

The URLs of a document, as texts with slashes between their segments.
-/

namespace ResponsiveImage.Url

open Text

/-- A URL without its last segment, and that segment. Slashes at the end of the first part are
dropped, unless it is nothing else. -/
def split (url : List Char) : List Char × List Char :=
  match splitLast '/' url with
  | none => ([], url)
  | some (before, tail) =>
    let head := before ++ ['/']
    if head.all (· == '/') then (head, tail) else (trimRight '/' head, tail)

/-- A segment after a URL, with one slash between. -/
def join (url segment : List Char) : List Char :=
  if segment.head? = some '/' then segment
  else if url.isEmpty || url.getLast? = some '/' then url ++ segment
  else url ++ '/' :: segment

/-- A URL whose last segment has another extension, and all dots before it. -/
def swapExtension (url extension : List Char) : List Char :=
  let (head, tail) := split url
  let stem := match splitLast '.' tail with
    | some (stem, _) => if stem.isEmpty then tail else stem
    | none => tail
  join head (stem ++ '.' :: extension)

/-- Backslashes turned to slashes. -/
def forwardSlashes (url : List Char) : List Char :=
  url.map fun c ↦ if c = '\\' then '/' else c

/-- Whether a value names a resource of another host: it begins with two slashes, perhaps after the
web's scheme. -/
def isExternal (value : List Char) : Bool :=
  let slashes := ['/', '/']
  slashes.isPrefixOf value ||
    ["http:".toList, "https:".toList].any fun scheme ↦
      ((afterWord scheme value).map slashes.isPrefixOf).getD false

end ResponsiveImage.Url
