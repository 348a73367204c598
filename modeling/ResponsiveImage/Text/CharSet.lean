/-!
# Sets of characters

A set of characters is written as the ascending list of the places where membership changes, or as
a list of evenly spaced runs where its members alternate with their neighbours.
-/

namespace ResponsiveImage.Text

/-- The ascending code points at which membership in a set changes, starting outside. -/
abbrev Boundaries := List Nat

namespace Boundaries

/-- A code point is a member iff an odd number of boundaries lie at or below it. -/
def holds (n : Nat) : Boundaries → Bool
  | [] => false
  | b :: bs => if n < b then false else !holds n bs

def contains (s : Boundaries) (c : Char) : Bool := s.holds c.toNat

theorem holds_of_lt {n b : Nat} (bs : Boundaries) (h : n < b) : holds n (b :: bs) = false := by
  simp [holds, h]

theorem holds_of_le {n b : Nat} (bs : Boundaries) (h : b ≤ n) :
    holds n (b :: bs) = !holds n bs := by
  simp [holds, Nat.not_lt.mpr h]

end Boundaries

/-- The code points from `first` to `last` in steps of `step`. -/
structure Run where
  first : Nat
  last : Nat
  step : Nat
deriving DecidableEq, Repr

namespace Run

def holds (r : Run) (n : Nat) : Bool :=
  r.first ≤ n && n ≤ r.last && (n - r.first) % r.step == 0

end Run

/-- A run whose members all correspond to the code point `offset` further on. -/
structure Shift where
  run : Run
  offset : Int
deriving DecidableEq, Repr

namespace Shift

/-- The code point that corresponds to `n`, by the first run that holds it. -/
def apply (n : Nat) : List Shift → Nat
  | [] => n
  | s :: ss => if s.run.holds n then (n + s.offset).toNat else apply n ss

end Shift

end ResponsiveImage.Text
