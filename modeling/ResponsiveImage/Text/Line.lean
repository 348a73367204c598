/-!
# Lines and positions

A place in a text is an offset in characters, or a line and a column. Lines end at the newline
character alone.
-/

namespace ResponsiveImage.Text

/-- The offsets at which the lines of a text begin, the text itself beginning at `start`. -/
def lineStartsFrom (start : Nat) : List Char → List Nat
  | [] => []
  | c :: cs =>
    if c = '\n' then (start + 1) :: lineStartsFrom (start + 1) cs
    else lineStartsFrom (start + 1) cs

/-- The offsets at which the lines of a text begin. -/
def lineStarts (text : List Char) : List Nat := 0 :: lineStartsFrom 0 text

/-- The number of the line that holds an offset, counted from one. -/
def lineOf (text : List Char) (offset : Int) : Nat :=
  ((lineStarts text).takeWhile fun (start : Nat) => (start : Int) ≤ offset).length

/-- A line, counted from one, and a column, counted from zero. -/
structure Position where
  line : Nat := 1
  column : Nat := 0
deriving DecidableEq, Repr

namespace Position

/-- The place just past one character. -/
def step (p : Position) (c : Char) : Position :=
  if c = '\n' then ⟨p.line + 1, 0⟩ else ⟨p.line, p.column + 1⟩

/-- The place just past a text. -/
def advance (p : Position) (cs : List Char) : Position := cs.foldl step p

@[simp] theorem advance_nil (p : Position) : p.advance [] = p := rfl

@[simp] theorem advance_cons (p : Position) (c : Char) (cs : List Char) :
    p.advance (c :: cs) = (p.step c).advance cs := rfl

theorem advance_append (p : Position) (cs ds : List Char) :
    p.advance (cs ++ ds) = (p.advance cs).advance ds := by
  simp [advance]

end Position

/-- The offset of a column on a line; a line past the last counts as the last. -/
def offsetAt (starts : List Nat) (p : Position) : Nat :=
  starts.getD (min (p.line - 1) (starts.length - 1)) 0 + p.column

end ResponsiveImage.Text
