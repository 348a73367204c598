/-!
# Expressions in braces

An expression runs from an opening brace to the brace that closes it. Braces nest; those inside a
string do not count, and inside a string a backslash takes the next character with it.
-/

namespace ResponsiveImage.Markup.Expression

/-- The characters that open and close a string inside an expression. -/
def isQuote (c : Char) : Bool := c == '"' || c == '\'' || c == '`'

/-- How much of a text is left of the outermost expression, with `depth` inner expressions open and,
if `quote` is given, inside a string. -/
def lengthFrom : Nat → Option Char → List Char → Option Nat
  | _, _, [] => none
  | depth, some q, c :: cs =>
    if c = '\\' then
      match cs with
      | [] => none
      | _ :: rest => (lengthFrom depth (some q) rest).map (· + 2)
    else (lengthFrom depth (if c = q then none else some q) cs).map (· + 1)
  | depth, none, c :: cs =>
    if isQuote c then (lengthFrom depth (some c) cs).map (· + 1)
    else if c = '{' then (lengthFrom (depth + 1) none cs).map (· + 1)
    else if c = '}' then
      match depth with
      | 0 => some 1
      | inner + 1 => (lengthFrom inner none cs).map (· + 1)
    else (lengthFrom depth none cs).map (· + 1)

/-- The length of the expression that a text begins with, braces included; none if the text does not
begin with a brace or the brace is never closed. -/
def length? : List Char → Option Nat
  | [] => none
  | c :: cs => if c = '{' then (lengthFrom 0 none cs).map (· + 1) else none

theorem length?_pos {cs : List Char} {n : Nat} (h : length? cs = some n) : 0 < n := by
  cases cs with
  | nil => simp [length?] at h
  | cons c cs =>
    simp only [length?] at h
    split at h
    · obtain ⟨m, _, rfl⟩ := Option.map_eq_some_iff.mp h
      omega
    · simp at h

/-- The text between the braces of an expression of the given length. -/
def inner (cs : List Char) (length : Nat) : List Char := (cs.drop 1).take (length - 2)

end ResponsiveImage.Markup.Expression
