/-!
# Searching a text

A pattern tells how much of a text it matches at the start. Searching looks for the first place where
it matches.
-/

namespace ResponsiveImage.Text

/-- How many characters a pattern matches at the start of a text, if it matches there. -/
abbrev Pattern := List Char → Option Nat

/-- The pattern of one fixed word. -/
def word (w : List Char) : Pattern := fun cs ↦ if w.isPrefixOf cs then some w.length else none

/-- How many characters to pass to be just past the first match of a pattern. -/
def past (pattern : Pattern) : List Char → Option Nat
  | [] => none
  | c :: cs =>
    match pattern (c :: cs) with
    | some n => some n
    | none => (past pattern cs).map (· + 1)

theorem past_of_match {pattern : Pattern} {c : Char} {cs : List Char} {n : Nat}
    (h : pattern (c :: cs) = some n) : past pattern (c :: cs) = some n := by
  simp [past, h]

theorem past_of_no_match {pattern : Pattern} {c : Char} {cs : List Char}
    (h : pattern (c :: cs) = none) : past pattern (c :: cs) = (past pattern cs).map (· + 1) := by
  simp [past, h]

/-- Whether a word occurs anywhere in a text. -/
def occursIn (w : List Char) : List Char → Bool
  | [] => w.isEmpty
  | c :: cs => w.isPrefixOf (c :: cs) || occursIn w cs

end ResponsiveImage.Text
