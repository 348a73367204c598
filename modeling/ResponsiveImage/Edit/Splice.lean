import ResponsiveImage.Edit.Basic

/-!
# Making edits

A list of edits is made if every edit lies in the text and begins where the one before it ends, or
later. Each is made on the text as the earlier ones have left it.
-/

namespace ResponsiveImage.Edit

/-- The first conflict among edits, the number of the first of them being `index` and the edit before
it ending at `previous`. -/
def conflictFrom (length : Nat) (index : Nat) (previous : Int) : List Edit → Option EditConflict
  | [] => none
  | e :: es =>
    if e.start < 0 ∨ (length : Int) < e.stop ∨ e.stop < e.start then
      some (.outside index e.start e.stop length)
    else if e.start < previous then some (.overlap index e.start previous)
    else conflictFrom length (index + 1) e.stop es

/-- The first conflict among edits of a text. -/
def conflict? (text : List Char) (es : List Edit) : Option EditConflict :=
  conflictFrom text.length 0 0 es

/-- A text with one span replaced. -/
def replaceSpan (text : List Char) (start stop : Nat) (replacement : List Char) : List Char :=
  text.take start ++ replacement ++ text.drop stop

/-- A text, as edited so far, with further edits made on it. -/
def spliceFrom (d : Drift) (text : List Char) : List Edit → List Char
  | [] => text
  | e :: es =>
    let (start, stop) := d.locate e
    spliceFrom (d.advance e) (replaceSpan text start.toNat stop.toNat e.replacement) es

/-- A text with all edits made, unless they conflict. -/
def applyAll (text : List Char) (es : List Edit) : Except EditConflict (List Char) :=
  match conflict? text es with
  | some c => .error c
  | none => .ok (spliceFrom {} text es)

/-- The order of edits: by start, and of one start by end. -/
def le (a b : Edit) : Bool := a.start < b.start || (a.start == b.start && a.stop ≤ b.stop)

/-- Edits in order; those of one span keep their order. -/
def sort (es : List Edit) : List Edit := es.mergeSort le

end ResponsiveImage.Edit
