/-!
# Splitting a text

A text is split at each place where a character stands, or at the last one only.
-/

namespace ResponsiveImage.Text

/-- What stands before and after the last occurrence of a character. -/
def splitLast (sep : Char) : List Char → Option (List Char × List Char)
  | [] => none
  | c :: cs =>
    match splitLast sep cs with
    | some (before, after) => some (c :: before, after)
    | none => if c = sep then some ([], cs) else none

theorem splitLast_eq_some {sep : Char} {cs before after : List Char}
    (h : splitLast sep cs = some (before, after)) : cs = before ++ sep :: after := by
  induction cs generalizing before with
  | nil => simp [splitLast] at h
  | cons c cs ih =>
    simp only [splitLast] at h
    split at h
    · rename_i b a hs
      cases h
      simp [ih hs]
    · split at h
      · rename_i hc
        cases h
        simp [hc]
      · simp at h

theorem splitLast_eq_none {sep : Char} {cs : List Char} :
    splitLast sep cs = none ↔ sep ∉ cs := by
  induction cs with
  | nil => simp [splitLast]
  | cons c cs ih =>
    simp only [splitLast, List.mem_cons, not_or, ← ih]
    cases hs : splitLast sep cs with
    | none =>
      by_cases h : c = sep
      · simp [h]
      · simp [h, Ne.symm h]
    | some p => simp

/-- The pieces between the occurrences of a character; there is at least one. -/
def splitOn (sep : Char) : List Char → List (List Char)
  | [] => [[]]
  | c :: cs =>
    if c = sep then [] :: splitOn sep cs
    else
      match splitOn sep cs with
      | [] => [[c]]
      | piece :: pieces => (c :: piece) :: pieces

theorem splitOn_ne_nil (sep : Char) (cs : List Char) : splitOn sep cs ≠ [] := by
  cases cs with
  | nil => simp [splitOn]
  | cons c cs =>
    simp only [splitOn]
    split
    · simp
    · split <;> simp

/-- What stands after the last occurrence of a character, or the whole text. -/
def afterLast (sep : Char) (cs : List Char) : List Char :=
  ((splitLast sep cs).map (·.2)).getD cs

/-- A text without the occurrences of a character at its start. -/
def trimLeft (sep : Char) (cs : List Char) : List Char := cs.dropWhile (· == sep)

/-- A text without the occurrences of a character at its end. -/
def trimRight (sep : Char) (cs : List Char) : List Char := (trimLeft sep cs.reverse).reverse

end ResponsiveImage.Text
