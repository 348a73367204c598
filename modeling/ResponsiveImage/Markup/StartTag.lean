import ResponsiveImage.Markup.Attribute
import ResponsiveImage.Markup.Expression
import ResponsiveImage.Text.Blank
import ResponsiveImage.Text.Letter
import ResponsiveImage.Text.Quoted

/-!
# Start tags

A start tag is read with its attributes, each with its span in the text. Expressions may stand for a
value, inside a quoted value, or in place of an attribute; a bracket inside an expression or a quoted
value does not end the tag.
-/

namespace ResponsiveImage.Markup

open Text

structure StartTag where
  name : List Char
  attributes : List Attribute
  /-- The offset just past the closing bracket. -/
  stop : Nat
deriving DecidableEq, Repr

/-- Why a start tag cannot be read. -/
inductive TagError where
  | noTag
  | unexpected (c : Char) (name : List Char) (offset : Nat)
  | unterminated (name : List Char)
  | missingValue
  | unterminatedValue (offset : Nat)
  | invalidValue (offset : Nat)
  | unbalanced (offset : Nat)
deriving DecidableEq, Repr

/-- The message of an error met in reading the tag at `pos`. -/
def TagError.message (pos : Int) : TagError → String
  | .noTag => s!"Expected a start tag at offset {pos}"
  | .unexpected c name offset =>
    let tag := String.ofList name
    let char := quotedChar c
    s!"Unexpected {char} in <{tag}> at offset {offset}"
  | .unterminated name =>
    let tag := String.ofList name
    s!"Unterminated <{tag}> starting at offset {pos}"
  | .missingValue => "Attribute value missing at end of input"
  | .unterminatedValue offset => s!"Unterminated attribute value at offset {offset}"
  | .invalidValue offset => s!"Invalid attribute value at offset {offset}"
  | .unbalanced offset => s!"Unbalanced expression starting at offset {offset}"

/-! ## Quoted values -/

/-- Where a quoted value ends. -/
inductive QuotedEnd where
  /-- The length up to and including the closing quote. -/
  | closed (length : Nat)
  | unclosed
  /-- The place of an expression that is never closed. -/
  | unbalanced (offset : Nat)
deriving DecidableEq, Repr

def QuotedEnd.shift (n : Nat) : QuotedEnd → QuotedEnd
  | .closed length => .closed (length + n)
  | .unclosed => .unclosed
  | .unbalanced offset => .unbalanced (offset + n)

/-- The end of a value whose opening quote `q` has been passed. A quote inside an expression does
not end it. -/
def quotedEnd (q : Char) : List Char → QuotedEnd
  | [] => .unclosed
  | c :: cs =>
    if c = q then .closed 1
    else if c = '{' then
      match Expression.length? (c :: cs) with
      | none => .unbalanced 0
      | some n => (quotedEnd q (cs.drop (n - 1))).shift n
    else (quotedEnd q cs).shift 1
termination_by cs => cs.length
decreasing_by
  · simp only [List.length_drop, List.length_cons]; omega
  · simp

/-! ## Attributes -/

/-- The first letter of a tag name. -/
def isNameStart (c : Char) : Bool := c.isAlpha

/-- The other characters of a tag name. -/
def isNameRest (c : Char) : Bool :=
  isAlphanumeric c || c == '_' || c == ':' || c == '.' || c == '-'

/-- The characters of an attribute name. -/
def isAttributeName (c : Char) : Bool :=
  !(isBlank c || c == '=' || c == '/' || c == '>' || c == '"' || c == '\'' || c == '{' || c == '}')

/-- The characters of a value without quotes. -/
def isUnquoted (c : Char) : Bool :=
  !(isBlank c || c == '"' || c == '\'' || c == '=' || c == '<' || c == '>' || c == '`')

/-- Literal text, or the mark of a value that holds an expression. -/
def literal (text : List Char) (start : Nat) : AttributeValue :=
  if text.contains '{' then .dynamic .mustache else .static text start (start + text.length)

/-- A run of characters without the slash that belongs to a closing `/>`. -/
def withoutClosing (run rest : List Char) : List Char :=
  if run.getLast? = some '/' && rest.head? = some '>' then run.dropLast else run

/-- The value that begins a text at offset `i`, and the offset where it ends. -/
def readValue (i : Nat) : List Char → Except TagError (AttributeValue × Nat)
  | [] => .error .missingValue
  | c :: cs =>
    if c = '"' || c = '\'' then
      match quotedEnd c cs with
      | .closed n => .ok (literal (cs.take (n - 1)) (i + 1), i + 1 + n)
      | .unclosed => .error (.unterminatedValue i)
      | .unbalanced offset => .error (.unbalanced (i + 1 + offset))
    else if c = '{' then
      match Expression.length? (c :: cs) with
      | none => .error (.unbalanced i)
      | some n => .ok (.dynamic .mustache, i + n)
    else
      match (c :: cs).takeWhile isUnquoted with
      | [] => .error (.invalidValue i)
      | run =>
        let text := withoutClosing run ((c :: cs).dropWhile isUnquoted)
        .ok (literal text i, i + text.length)

/-- The attribute with the given name at offset `i`, where `rest` follows the name. -/
def readNamed (i : Nat) (name rest : List Char) : Except TagError Attribute :=
  let j := i + name.length
  match skipBlanks rest with
  | '=' :: cs =>
    match readValue (j + blanks rest + 1 + blanks cs) (skipBlanks cs) with
    | .error e => .error e
    | .ok (value, stop) => .ok ⟨name, value, i, stop⟩
  | _ => .ok ⟨name, .static [] j j, i, j⟩

/-- The attribute that an expression of length `n` at offset `i` stands for; a spread stands for
none that can be named. -/
def shorthand? (i n : Nat) (cs : List Char) : Option Attribute :=
  let name := trim (Expression.inner cs n)
  if name.isEmpty || ['.', '.', '.'].isPrefixOf name then none
  else some ⟨name, .dynamic .shorthand, i, i + n⟩

/-! ## Tags -/

/-- The attributes from offset `i` to the end of the tag, and the offset past its bracket. -/
def readAttributes (tag : List Char) (i : Nat) :
    List Char → Except TagError (List Attribute × Nat)
  | [] => .error (.unterminated tag)
  | c :: cs =>
    if isBlank c then readAttributes tag (i + 1) cs
    else if c = '>' then .ok ([], i + 1)
    else if c = '/' then
      if cs.head? = some '>' then .ok ([], i + 2) else readAttributes tag (i + 1) cs
    else if c = '{' then
      match Expression.length? (c :: cs) with
      | none => .error (.unbalanced i)
      | some n => do
        let (attributes, stop) ← readAttributes tag (i + n) (cs.drop (n - 1))
        return ((shorthand? i n (c :: cs)).toList ++ attributes, stop)
    else
      match (c :: cs).takeWhile isAttributeName with
      | [] => .error (.unexpected c tag i)
      | name => do
        let first ← readNamed i name ((c :: cs).dropWhile isAttributeName)
        let (attributes, stop) ← readAttributes tag first.stop (cs.drop (first.stop - i - 1))
        return (first :: attributes, stop)
termination_by cs => cs.length
decreasing_by all_goals simp only [List.length_drop, List.length_cons]; omega

/-- The start tag that stands at offset `i`, where the text goes on with `cs`. -/
def StartTag.read (i : Nat) : List Char → Except TagError StartTag
  | '<' :: c :: cs =>
    if isNameStart c then do
      let name := c :: cs.takeWhile isNameRest
      let (attributes, stop) ←
        readAttributes name (i + 1 + name.length) (cs.dropWhile isNameRest)
      return ⟨name, attributes, stop⟩
    else .error .noTag
  | _ => .error .noTag

/-- The start tag at an offset of a text. A negative offset counts as zero. -/
def StartTag.readAt (text : List Char) (pos : Int) : Except TagError StartTag :=
  StartTag.read pos.toNat (text.drop pos.toNat)

end ResponsiveImage.Markup
