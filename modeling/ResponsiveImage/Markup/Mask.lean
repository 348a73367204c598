import ResponsiveImage.Markup.StartTag
import ResponsiveImage.Text.Case
import ResponsiveImage.Text.Search

/-!
# Masking

Before the tags of a document are looked for, the expressions in its text are blanked: each character
of them becomes a space, newlines excepted, so that offsets and lines stay. Start tags, comments, and
the content of scripts and styles are left as they are.
-/

namespace ResponsiveImage.Markup

open Text

/-- The length of what is left of a start tag, up to its closing bracket or the end of the text;
none if an expression in it is never closed. -/
def tagExtent : List Char → Option Nat
  | [] => some 0
  | c :: cs =>
    if c = '>' then some 1
    else if c = '"' || c = '\'' then
      match quotedEnd c cs with
      | .closed n => (tagExtent (cs.drop n)).map (· + (n + 1))
      | .unclosed => some (cs.length + 1)
      | .unbalanced _ => none
    else if c = '{' then
      match Expression.length? (c :: cs) with
      | none => none
      | some n => (tagExtent (cs.drop (n - 1))).map (· + n)
    else (tagExtent cs).map (· + 1)
termination_by cs => cs.length
decreasing_by all_goals simp only [List.length_drop, List.length_cons]; omega

/-- The elements whose content is not markup. -/
def rawNames : List (List Char) := ["script".toList, "style".toList]

/-- Whether a tag name may end before a text. -/
def endsName : List Char → Bool
  | [] => false
  | c :: _ => isBlank c || c == '/' || c == '>'

/-- The name of a script or style element, as it is written after the `<`. -/
def rawName? (cs : List Char) : Option (List Char) :=
  (rawNames.find? fun name ↦ ((afterWord name cs).map endsName).getD false).map
    fun name ↦ cs.take name.length

/-- The pattern of the tag that closes an element. -/
def closingTag (name : List Char) : Pattern
  | '<' :: '/' :: cs =>
    match afterWord name cs with
    | some rest =>
      match skipBlanks rest with
      | '>' :: _ => some (2 + name.length + blanks rest + 1)
      | _ => none
    | none => none
  | _ => none

/-- The length of the element, or the start tag, that a text begins with. If an expression in the
tag is never closed, only the `<` is passed. -/
def elementExtent (cs : List Char) : Nat :=
  let tag := match tagExtent (cs.drop 1) with
    | some n => n + 1
    | none => 1
  match rawName? (cs.drop 1) with
  | none => tag
  | some name =>
    match past (closingTag name) (cs.drop tag) with
    | some n => tag + n
    | none => cs.length

/-- The length of a comment, whose end may be missing. -/
def commentExtent (cs : List Char) : Nat :=
  match past (word "-->".toList) (cs.drop 4) with
  | some n => n + 4
  | none => cs.length

/-- How much of a text that does not begin with an expression is left as it is. -/
def untouched (cs : List Char) : Nat :=
  if "<!--".toList.isPrefixOf cs then commentExtent cs
  else
    match cs with
    | '<' :: c :: _ => if isLetter c then elementExtent cs else 1
    | _ => 1

/-- Spaces in place of a text, its newlines kept. -/
def blankOut (cs : List Char) : List Char := cs.map fun c ↦ if c = '\n' then '\n' else ' '

@[simp] theorem length_blankOut (cs : List Char) : (blankOut cs).length = cs.length := by
  simp [blankOut]

/-- A document with the expressions in its text blanked. From an expression that is never closed on,
the document is left as it is. -/
def mask : List Char → List Char
  | [] => []
  | c :: cs =>
    if c = '{' then
      match Expression.length? (c :: cs) with
      | none => c :: cs
      | some n => blankOut ((c :: cs).take n) ++ mask (cs.drop (n - 1))
    else
      let n := untouched (c :: cs)
      (c :: cs).take n ++ mask (cs.drop (n - 1))
termination_by cs => cs.length
decreasing_by all_goals simp only [List.length_drop, List.length_cons]; omega

end ResponsiveImage.Markup
