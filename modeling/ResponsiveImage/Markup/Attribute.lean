/-!
# Attributes

An attribute of a start tag, with the span that it occupies. Its value is literal text or an
expression; only literal text is kept.
-/

namespace ResponsiveImage.Markup

/-- How an attribute comes to have no literal value. -/
inductive DynamicKind where
  /-- The value holds an expression. -/
  | mustache
  /-- The whole attribute is an expression that names it. -/
  | shorthand
deriving DecidableEq, Repr

def DynamicKind.text : DynamicKind → String
  | .mustache => "MustacheTag"
  | .shorthand => "AttributeShorthand"

inductive AttributeValue where
  /-- Literal text and the span between its quotes, if it has quotes. -/
  | static (text : List Char) (start stop : Nat)
  | dynamic (kind : DynamicKind)
deriving DecidableEq, Repr

structure Attribute where
  name : List Char
  value : AttributeValue
  start : Nat
  stop : Nat
deriving DecidableEq, Repr

end ResponsiveImage.Markup
