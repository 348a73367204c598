import ResponsiveImage.Path.FileName

/-!
# Paths

A path is a list of names, from the working directory or from the root. Empty names and single dots
are dropped as a path is read; double dots are kept until the path is resolved.
-/

namespace ResponsiveImage

open Text

/-- What the names of a path start from. -/
inductive Anchor where
  | relative
  | root
  /-- The root, written with exactly two slashes. -/
  | doubleRoot
deriving DecidableEq, Repr

def Anchor.text : Anchor → String
  | .relative => ""
  | .root => "/"
  | .doubleRoot => "//"

structure Path where
  anchor : Anchor
  parts : List String
deriving DecidableEq, Repr

namespace Path

/-- The names between the slashes of a text. -/
def partsOf (cs : List Char) : List String :=
  ((splitOn '/' cs).filter fun p ↦ !(p.isEmpty || p == ['.'])).map String.ofList

/-- The anchor that a text begins with: two slashes differ from one, more do not. -/
def anchorOf (cs : List Char) : Anchor :=
  match (cs.takeWhile (· == '/')).length with
  | 0 => .relative
  | 2 => .doubleRoot
  | _ => .root

def ofString (s : String) : Path := ⟨anchorOf s.toList, partsOf s.toList⟩

protected def toString (p : Path) : String :=
  if p.anchor = .relative && p.parts.isEmpty then "."
  else p.anchor.text ++ "/".intercalate p.parts

instance : ToString Path := ⟨Path.toString⟩

def ofParts (parts : List String) : Path := ⟨.root, parts⟩

/-- One path after another; a path from the root replaces what stands before it. -/
def join (p q : Path) : Path :=
  match q.anchor with
  | .relative => ⟨p.anchor, p.parts ++ q.parts⟩
  | _ => q

instance : Div Path := ⟨join⟩

/-- A path with one more name. -/
def child (p : Path) (name : String) : Path := ⟨p.anchor, p.parts ++ [name]⟩

/-- The last name of a path, if it has one. -/
def name (p : Path) : String := p.parts.getLast?.getD ""

def parent (p : Path) : Path := ⟨p.anchor, p.parts.dropLast⟩

@[simp] theorem name_child (p : Path) (n : String) : (p.child n).name = n := by
  simp [name, child]

@[simp] theorem parent_child (p : Path) (n : String) : (p.child n).parent = p := by
  simp [parent, child]

/-- Names with each double dot taken together with the name before it, `done` being the names so
far, the last one first. -/
def collapse (done : List String) : List String → List String
  | [] => done.reverse
  | p :: ps => if p = ".." then collapse done.tail ps else collapse (p :: done) ps

/-- The names of a path from the root, the working directory being `cwd`. -/
def resolveParts (cwd : List String) (p : Path) : List String :=
  match p.anchor with
  | .relative => collapse [] (cwd ++ p.parts)
  | _ => collapse [] p.parts

/-- A path from the root without double dots. -/
def resolve (cwd : List String) (p : Path) : Path := ofParts (resolveParts cwd p)

/-- Whether some name of a path holds a NUL, which no file name can. -/
def hasNul (p : Path) : Bool := p.parts.any fun n ↦ n.toList.contains '\x00'

end Path

end ResponsiveImage
