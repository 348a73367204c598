import ResponsiveImage.Text.Blank
import ResponsiveImage.Text.Case
import ResponsiveImage.Text.Line
import ResponsiveImage.Text.Quoted
import ResponsiveImage.Text.Search

/-!
# Tag events

A masked document is read as a sequence of tags that open and close elements, each opening with its
line and column. Text, comments, declarations and references are passed over.

Reading is strict at first: a construct that is not complete ends the strict part, and from there on
such a construct counts as text. A character reference that cannot be read ends the strict part, and
in the lenient part it ends reading altogether.
-/

namespace ResponsiveImage.Markup

open Text

inductive Event where
  | opened (name : List Char) (selfClosing : Bool) (position : Position)
  | closed (name : List Char)
deriving DecidableEq, Repr

/-- What makes a document unreadable as a whole. -/
inductive Rejection where
  /-- A marked section without a name; the text from its start on. -/
  | unnamedSection (near : List Char)
  | unknownSection (name : List Char)
deriving DecidableEq, Repr

def Rejection.cause : Rejection → String
  | .unnamedSection near =>
    let text := quoted (String.ofList near)
    s!"expected name token at {text}"
  | .unknownSection name =>
    let text := quoted (String.ofList name)
    s!"unknown status keyword {text} in marked section"

def Rejection.message (r : Rejection) : String :=
  "Markup rejected by parser: The markup you provided was rejected by the parser. Trying a " ++
    "different parser or a different encoding may help.\n\nOriginal exception(s) from parser:\n " ++
    "AssertionError: " ++ r.cause

/-- What begins at a `<`. -/
inductive Construct where
  | opening (name : List Char) (selfClosing : Bool) (length : Nat)
  | closing (name : List Char) (length : Nat)
  | passed (length : Nat)
  | incomplete
deriving DecidableEq, Repr

/-! ## Start tags -/

/-- The characters of a tag name after its first letter. -/
def isElementName (c : Char) : Bool :=
  !(c == '\t' || c == '\n' || c == '\r' || c == '\x0c' || c == ' ' || c == '/' || c == '>' ||
    c == '\x00')

/-- The characters after which an attribute may begin. -/
def precedesAttribute (c : Char) : Bool := c == '\'' || c == '"' || c == '/' || isBlank c

/-- Blanks, and slashes that do not close the tag. -/
def gap : List Char → Nat
  | [] => 0
  | c :: cs =>
    if isBlank c || (c == '/' && cs.head? != some '>') then gap cs + 1 else 0

/-- A value without quotes. -/
def bareValue (cs : List Char) : Nat := (cs.takeWhile fun c ↦ !(isBlank c || c == '>')).length

/-- The equals signs after a name and the value after them. A quote that is never closed begins no
value: the value is then empty if a blank stands before the quote, it begins at the last equals sign
if there are several, and it is missing otherwise. -/
def assignment (cs : List Char) : Option Nat :=
  let before := blanks cs
  let signs := ((cs.drop before).takeWhile (· == '=')).length
  let after := (cs.drop before).drop signs
  let space := blanks after
  if signs = 0 then none
  else
    match after.drop space with
    | c :: rest =>
      if c = '"' || c = '\'' then
        match past (word [c]) rest with
        | some n => some (before + signs + space + 1 + n)
        | none =>
          if 0 < space then some (before + signs + (space - 1))
          else if 1 < signs then some (before + (signs - 1) + bareValue ('=' :: c :: rest))
          else none
      else some (before + signs + space + bareValue (c :: rest))
    | [] => some (before + signs + space)

/-- An attribute that follows the character `prev`, with the gap after it. -/
def attributeExtent (prev : Char) : List Char → Option Nat
  | [] => none
  | c :: cs =>
    if precedesAttribute prev && !(isBlank c || c == '/' || c == '>') then
      let name := 1 + (cs.takeWhile fun c ↦ !(isBlank c || c == '/' || c == '=' || c == '>')).length
      let value := (assignment ((c :: cs).drop name)).getD 0
      some (name + value + gap ((c :: cs).drop (name + value)))
    else none

/-- All attributes after the first character of a text. -/
def attributesExtent : List Char → Nat
  | [] => 0
  | prev :: cs =>
    match attributeExtent prev cs with
    | none => 0
    | some n => n + attributesExtent (cs.drop (n - 1))
termination_by cs => cs.length
decreasing_by simp only [List.length_drop, List.length_cons]; omega

/-- Where the start tag that a text begins with ends, if it does: past its bracket, or where no tag
can go on. -/
def startTagEnd (cs : List Char) (name : Nat) : Option Nat :=
  let slashes := ((cs.drop name).takeWhile fun c ↦ isBlank c || c == '/').length
  let start := name + slashes
  let attributes := start + attributesExtent (cs.drop (start - 1))
  let reached := attributes + blanks (cs.drop attributes)
  match cs.drop reached with
  | [] => none
  | '>' :: _ => some (reached + 1)
  | '/' :: '>' :: _ => some (reached + 2)
  | c :: _ => if c.isAlpha || c == '=' || c == '/' then none else some reached

/-- The start tag that a text begins with. What stands between its attributes and its end is `>` or
`/>`; otherwise it is text. -/
def startTag (cs : List Char) : Construct :=
  let name := 1 + ((cs.drop 1).takeWhile isElementName).length
  match startTagEnd cs name with
  | none => .incomplete
  | some stop =>
    let start := name + gap (cs.drop name)
    let attributes := start + attributesExtent (cs.drop (start - 1))
    let label := lowerChars ((cs.drop 1).take (name - 1))
    match trim ((cs.take stop).drop attributes) with
    | ['>'] => .opening label false stop
    | ['/', '>'] => .opening label true stop
    | _ => .passed stop

/-! ## Other constructs -/

/-- The characters of the name in an end tag that is written without mistakes. -/
def isEndTagName (c : Char) : Bool :=
  c.isAlphanum || c == '-' || c == '.' || c == ':' || c == '_'

/-- The name in an end tag that holds nothing else, where the text begins after the `</`. -/
def plainEndTagName? (cs : List Char) : Option (List Char) :=
  match skipBlanks cs with
  | c :: rest =>
    if c.isAlpha && (skipBlanks (rest.dropWhile isEndTagName)).head? = some '>' then
      some (c :: rest.takeWhile isEndTagName)
    else none
  | [] => none

/-- The name with which an end tag begins, whatever else it holds. -/
def looseEndTagName? : List Char → Option (List Char)
  | [] => none
  | c :: cs => if c.isAlpha then some (c :: cs.takeWhile isElementName) else none

/-- The end tag that a text begins with. Inside a raw element only its own end tag counts. -/
def endTag (raw : Option (List Char)) (cs : List Char) : Construct :=
  match past (word ['>']) cs with
  | none => .incomplete
  | some length =>
    match raw, plainEndTagName? (cs.drop 2) with
    | none, some name => .closing (lowerChars name) length
    | some element, some name =>
      if lowerChars name = element then .closing element length else .passed length
    | some _, none => .passed length
    | none, none =>
      match looseEndTagName? (cs.drop 2) with
      | some name => .closing (lowerChars name) length
      | none => .passed length

/-- A construct that ends where a pattern first matches after its first `skipped` characters. -/
def passedTo (pattern : Pattern) (skipped : Nat) (cs : List Char) : Construct :=
  match past pattern (cs.drop skipped) with
  | some n => .passed (skipped + n)
  | none => .incomplete

/-- The end of a comment: two dashes and a bracket, with blanks between. -/
def commentEnd : Pattern
  | '-' :: '-' :: cs => match skipBlanks cs with
    | '>' :: _ => some (2 + blanks cs + 1)
    | _ => none
  | _ => none

/-- The end of a marked section: brackets, with blanks between. -/
def sectionEnd (cs : List Char) : Option Nat :=
  match cs with
  | ']' :: cs => match skipBlanks cs with
    | '>' :: _ => some (1 + blanks cs + 1)
    | _ => none
  | _ => none

/-- The end of a marked section that holds data: two square brackets. -/
def dataSectionEnd : Pattern
  | ']' :: cs => (sectionEnd (skipBlanks cs)).map (· + (1 + blanks cs))
  | _ => none

/-- The marked sections that hold data. -/
def dataSections : List (List Char) :=
  ["temp".toList, "cdata".toList, "ignore".toList, "include".toList, "rcdata".toList]

/-- The marked sections that hold a condition. -/
def conditionSections : List (List Char) := ["if".toList, "else".toList, "endif".toList]

/-- The characters of the name of a marked section. -/
def isSectionName (c : Char) : Bool := c.isAlphanum || c == '-' || c == '_' || c == '.'

/-- The marked section that a text begins with. -/
def markedSection (cs : List Char) : Except Rejection Construct :=
  match cs.drop 3 with
  | [] => .ok .incomplete
  | c :: rest =>
    if c.isAlpha then
      let name := c :: rest.takeWhile isSectionName
      let after := rest.dropWhile isSectionName
      if skipBlanks after = [] then .ok .incomplete
      else if dataSections.contains (lowerChars name) then .ok (passedTo dataSectionEnd 3 cs)
      else if conditionSections.contains (lowerChars name) then .ok (passedTo sectionEnd 3 cs)
      else .error (.unknownSection (name ++ after.take (blanks after)))
    else .error (.unnamedSection (cs.take 20))

/-- What a text begins with, its first character being `<`; none if that is a mere character. -/
def construct? (cs : List Char) : Except Rejection (Option Construct) :=
  match cs.drop 1 with
  | '/' :: _ => .ok (some (endTag none cs))
  | '?' :: _ => .ok (some (passedTo (word ['>']) 2 cs))
  | '!' :: '-' :: '-' :: _ => .ok (some (passedTo commentEnd 4 cs))
  | '!' :: '[' :: _ => (markedSection cs).map some
  | '!' :: _ =>
    if lowerChars (cs.take 9) = "<!doctype".toList then .ok (some (passedTo (word ['>']) 9 cs))
    else .ok (some (passedTo (word ['>']) 2 cs))
  | c :: _ => .ok (if c.isAlpha then some (startTag cs) else none)
  | [] => .ok none

/-- How much of a text that begins with an incomplete construct counts as text. -/
def incompleteExtent (cs : List Char) : Nat :=
  match past (word ['>']) (cs.drop 1) with
  | some n => n + 1
  | none => 1 + ((cs.drop 1).takeWhile (· != '<')).length

/-! ## References -/

def isHexDigit (c : Char) : Bool :=
  c.isDigit || ('a' ≤ c && c ≤ 'f') || ('A' ≤ c && c ≤ 'F')

/-- The digits of a character reference, where the text begins after the `&#`. -/
def referenceDigits : List Char → List Char
  | [] => []
  | c :: cs =>
    if c = 'x' || c = 'X' then
      match cs.takeWhile isHexDigit with
      | [] => []
      | digits => c :: digits
    else (c :: cs).takeWhile Char.isDigit

/-- The character reference that a text begins with, where another character must follow it. -/
def characterReference (cs : List Char) : Option Nat :=
  match referenceDigits (cs.drop 2) with
  | [] => none
  | digits =>
    match cs.drop (2 + digits.length) with
    | [] => none
    | c :: _ =>
      if isHexDigit c then none
      else some (2 + digits.length + if c = ';' then 1 else 0)

/-! ## Reading -/

/-- The elements whose content is read up to their own end tag. -/
def isRawElement (name : List Char) : Bool := name == "script".toList || name == "style".toList

/-- The pattern of the end tag of a raw element, in any mixture of capitals. -/
def rawEnd (name : List Char) : Pattern
  | '<' :: '/' :: cs =>
    match afterWord name (skipBlanks cs) with
    | some rest => if (skipBlanks rest).head? = some '>' then some 2 else none
    | none => none
  | _ => none

/-- The events of a text that begins at position `p`, inside the raw element `raw` if given. -/
def events (lenient : Bool) (raw : Option (List Char)) (p : Position) :
    List Char → Except Rejection (List Event)
  | [] => .ok []
  | c :: cs =>
    match raw with
    | some element =>
      if (rawEnd element (c :: cs)).isSome then
        match endTag raw (c :: cs) with
        | .closing name n => do
          let rest ← events lenient none (p.advance ((c :: cs).take n)) (cs.drop (n - 1))
          return .closed name :: rest
        | .passed n => events lenient raw (p.advance ((c :: cs).take n)) (cs.drop (n - 1))
        | _ => events lenient raw (p.step c) cs
      else events lenient raw (p.step c) cs
    | none =>
      if c = '&' && cs.head? = some '#' then
        match characterReference (c :: cs) with
        | some n => events lenient none (p.advance ((c :: cs).take n)) (cs.drop (n - 1))
        | none =>
          if !lenient && cs.contains ';' then
            events true none (p.advance ((c :: cs).take 2)) (cs.drop 1)
          else .ok []
      else if c = '<' then do
        match ← construct? (c :: cs) with
        | none => events lenient none (p.step c) cs
        | some (.opening name selfClosing n) =>
          let inside := if isRawElement name && !selfClosing then some name else none
          let rest ← events lenient inside (p.advance ((c :: cs).take n)) (cs.drop (n - 1))
          return .opened name selfClosing p :: rest
        | some (.closing name n) =>
          let rest ← events lenient none (p.advance ((c :: cs).take n)) (cs.drop (n - 1))
          return .closed name :: rest
        | some (.passed n) => events lenient none (p.advance ((c :: cs).take n)) (cs.drop (n - 1))
        | some .incomplete =>
          let n := incompleteExtent (c :: cs)
          events true none (p.advance ((c :: cs).take n)) (cs.drop (n - 1))
      else events lenient none (p.step c) cs
termination_by cs => cs.length
decreasing_by all_goals simp only [List.length_drop, List.length_cons]; omega

/-- The tags of a document, from its beginning. -/
def eventsOf (text : List Char) : Except Rejection (List Event) := events false none {} text

end ResponsiveImage.Markup
