/-!
# Edits

An edit replaces a span of a text. Edits are given in coordinates of the unedited text; an offset
keeps count of how far the edits made so far have moved what follows them.
-/

namespace ResponsiveImage

/-- Replaces the span from `start` up to `stop`. -/
structure Edit where
  start : Int
  stop : Int
  replacement : List Char
deriving DecidableEq, Repr

/-- How far the text behind the edits made so far has moved, and how many they are. -/
structure Drift where
  delta : Int := 0
  applied : Nat := 0
deriving DecidableEq, Repr

namespace Drift

/-- Where an edit lands in the text as edited so far. -/
def locate (d : Drift) (e : Edit) : Int × Int := (e.start + d.delta, e.stop + d.delta)

def advance (d : Drift) (e : Edit) : Drift :=
  ⟨d.delta + (e.replacement.length - (e.stop - e.start)), d.applied + 1⟩

@[simp] theorem advance_delta (d : Drift) (e : Edit) :
    (d.advance e).delta = d.delta + (e.replacement.length - (e.stop - e.start)) := rfl

end Drift

/-- Why a list of edits cannot be made. -/
inductive EditConflict where
  | outside (index : Nat) (start stop : Int) (length : Nat)
  | overlap (index : Nat) (start previous : Int)
deriving DecidableEq, Repr

def EditConflict.message : EditConflict → String
  | .outside index start stop length =>
    s!"Edit {index} spans [{start}, {stop}) outside a text of length {length}"
  | .overlap index start previous =>
    s!"Edit {index} at {start} overlaps or precedes the previous edit ending at {previous}"

end ResponsiveImage
