import ResponsiveImage.Markup.Element
import ResponsiveImage.Markup.Mask
import ResponsiveImage.Markup.Node

/-!
# Documents

A document is masked, its tags are nested into elements, and the start tag of each element is read
again in the document itself, with all its attributes. An element whose tag cannot be read gives way
to its children, unless it is an image.
-/

namespace ResponsiveImage.Markup

open Text

/-- Why a document cannot be read. -/
inductive ParseError where
  | rejected (reason : Rejection)
  | unreadable (pos : Nat) (reason : TagError)
  /-- An element whose place in the text is not found. -/
  | lost (name : List Char) (line : Nat)
deriving DecidableEq, Repr

def ParseError.message : ParseError → String
  | .rejected reason => reason.message
  | .unreadable pos reason => reason.message pos
  | .lost name line =>
    let tag := String.ofList name
    s!"Could not locate <{tag}> at line {line}"

/-- The text in which elements are looked up, with and without its expressions, where its lines
begin, and the names of the elements that must be readable. -/
structure Source where
  text : List Char
  masked : List Char
  lines : List Nat
  required : List (List Char)

namespace Source

def ofText (text : List Char) (tagName : List Char) : Source :=
  ⟨text, mask text, lineStarts text, ["img".toList, lowerChars tagName]⟩

/-- The pattern of a start tag of a name, in any mixture of capitals. -/
def startOf (name : List Char) : Pattern
  | '<' :: cs =>
    match afterWord name cs with
    | some rest => if endsName rest then some (1 + name.length) else none
    | none => none
  | _ => none

/-- The offset of an element that was met at a position: that of the position, if a tag begins
there, and else that of the first tag of its name on the line or after it. -/
def locate (s : Source) (name : List Char) (p : Position) : Except ParseError Nat :=
  let offset := offsetAt s.lines p
  if (s.masked.drop offset).head? = some '<' then .ok offset
  else
    let line := offsetAt s.lines ⟨p.line, 0⟩
    match past (startOf name) (s.masked.drop line) with
    | some n => .ok (line + n - (1 + name.length))
    | none => .error (.lost name p.line)

/-- The start tag of an element that was met at a position, and its offset. -/
def readTag (s : Source) (name : List Char) (p : Position) :
    Except ParseError (Nat × StartTag) := do
  let start ← s.locate name p
  match StartTag.readAt s.text start with
  | .ok tag => return (start, tag)
  | .error e => .error (.unreadable start e)

/-- Whether an element may not be passed over. -/
def requires (s : Source) (name : List Char) : Bool := s.required.contains (lowerChars name)

mutual

/-- The nodes that an element makes. What fails inside it fails first. -/
def readElement (s : Source) : Element → Except ParseError (List Node)
  | .mk name position children => do
    let nodes ← s.readElements children
    match s.readTag name position with
    | .ok (start, tag) =>
      return [⟨.ofName tag.name, tag.name, tag.attributes, nodes, start, tag.stop⟩]
    | .error e => if s.requires name then .error e else return nodes

def readElements (s : Source) : List Element → Except ParseError (List Node)
  | [] => return []
  | e :: es => do
    let first ← s.readElement e
    let rest ← s.readElements es
    return first ++ rest

end

end Source

/-- The elements of a document. -/
def outline (text : List Char) : Except Rejection (List Element) :=
  (eventsOf (mask text)).map elementsOf

/-- The fragment that holds all nodes of a document, where components are called `tagName`. -/
def parse (text tagName : List Char) : Except ParseError Node :=
  match outline text with
  | .error r => .error (.rejected r)
  | .ok elements => do
    let nodes ← (Source.ofText text tagName).readElements elements
    return ⟨.fragment, [], [], nodes, 0, text.length⟩

/-- The images below a node, in the order in which they stand in the text. -/
def candidates (root : Node) (tagName : List Char) : List Node :=
  ((flattenAll root.children).filter fun n ↦ n.name == "img".toList || n.name == tagName).mergeSort
    fun a b ↦ a.start ≤ b.start

/-- A cheap test that a document may hold images at all. -/
def hasMarkers (text tagName : List Char) : Bool :=
  occursIn "<img".toList text || occursIn ('<' :: tagName) text

end ResponsiveImage.Markup
