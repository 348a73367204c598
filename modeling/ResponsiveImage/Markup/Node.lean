import ResponsiveImage.Markup.Attribute
import ResponsiveImage.Text.Case

/-!
# Nodes

The nodes of a document: elements, fragments and components, with their attributes and the spans of
their start tags.
-/

namespace ResponsiveImage.Markup

open Text

inductive NodeKind where
  | element
  | fragment
  | component
deriving DecidableEq, Repr

namespace NodeKind

def text : NodeKind → String
  | .element => "Element"
  | .fragment => "Fragment"
  | .component => "InlineComponent"

/-- The kind of the node that a tag of this name makes: a capital or a dot marks a component. -/
def ofName (name : List Char) : NodeKind :=
  if name = "svelte:fragment".toList then .fragment
  else if (name.head?.map isCapital).getD false || name.contains '.' then .component
  else .element

end NodeKind

structure Node where
  kind : NodeKind
  name : List Char
  attributes : List Attribute
  children : List Node
  start : Nat
  stop : Nat
deriving Repr

/-- The first attribute of a name. -/
def Node.attribute? (n : Node) (name : List Char) : Option Attribute :=
  n.attributes.find? (·.name == name)

mutual

/-- A node and all below it, each before its children. -/
def Node.flatten : Node → List Node
  | ⟨kind, name, attributes, children, start, stop⟩ =>
    ⟨kind, name, attributes, children, start, stop⟩ :: flattenAll children

/-- All nodes of a forest, each before its children. -/
def flattenAll : List Node → List Node
  | [] => []
  | n :: ns => n.flatten ++ flattenAll ns

end

end ResponsiveImage.Markup
