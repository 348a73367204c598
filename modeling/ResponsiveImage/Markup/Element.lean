import ResponsiveImage.Markup.Event

/-!
# Elements

The events of a document nest into elements. An end tag closes the elements open inside the nearest
one of its name, and that one; an end tag that finds none does nothing. No other tag closes one, but
an element that is always empty is closed as it opens, and an end tag for it is then redundant once.
-/

namespace ResponsiveImage.Markup

open Text

inductive Element where
  | mk (name : List Char) (position : Position) (children : List Element)
deriving Repr

/-- An element whose end is not yet known, with its children so far, the last one first. -/
structure OpenElement where
  name : List Char
  position : Position
  children : List Element

def OpenElement.close (o : OpenElement) : Element := .mk o.name o.position o.children.reverse

/-- The names of the elements that are always empty. -/
def emptyNames : List (List Char) :=
  ["area", "base", "br", "col", "embed", "hr", "img", "input", "keygen", "link", "menuitem", "meta",
    "param", "source", "track", "wbr", "basefont", "bgsound", "command", "frame", "image",
    "isindex", "nextid", "spacer"].map String.toList

/-- A document being nested: its open elements, the innermost first, its finished top elements, the
last one first, and the empty elements whose end tags are redundant. -/
structure Nesting where
  openElements : List OpenElement := []
  finished : List Element := []
  redundant : List (List Char) := []

namespace Nesting

/-- Adds an element to the innermost open one, or to the top. -/
def attach (s : Nesting) (e : Element) : Nesting :=
  match s.openElements with
  | [] => { s with finished := e :: s.finished }
  | o :: os => { s with openElements := { o with children := e :: o.children } :: os }

def enter (s : Nesting) (name : List Char) (position : Position) : Nesting :=
  { s with openElements := ⟨name, position, []⟩ :: s.openElements }

/-- Closes the innermost open element. -/
def leave (s : Nesting) : Nesting :=
  match s.openElements with
  | [] => s
  | o :: os => { s with openElements := os }.attach o.close

/-- Closes that many open elements. -/
def leaveMany : Nat → Nesting → Nesting
  | 0, s => s
  | n + 1, s => leaveMany n s.leave

/-- Closes the nearest open element of a name, and what is open inside it. -/
def leaveNamed (s : Nesting) (name : List Char) : Nesting :=
  match s.openElements.findIdx? (·.name == name) with
  | some n => leaveMany (n + 1) s
  | none => s

def add (s : Nesting) : Event → Nesting
  | .opened name true position => (s.enter name position).leaveNamed name
  | .opened name false position =>
    let inside := s.enter name position
    if emptyNames.contains name then
      let closed := inside.leaveNamed name
      { closed with redundant := name :: closed.redundant }
    else inside
  | .closed name =>
    if s.redundant.contains name then { s with redundant := s.redundant.erase name }
    else s.leaveNamed name

/-- The top elements, once all that is open is closed. -/
def finish (s : Nesting) : List Element :=
  (leaveMany s.openElements.length s).finished.reverse

end Nesting

/-- The elements into which a sequence of events nests. -/
def elementsOf (es : List Event) : List Element := (es.foldl Nesting.add {}).finish

end ResponsiveImage.Markup
