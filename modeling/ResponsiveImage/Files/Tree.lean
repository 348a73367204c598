import ResponsiveImage.Files.Content
import ResponsiveImage.Json.Value
import ResponsiveImage.Path.Basic

/-!
# The file tree

A tree of directories and files, known by the names on the way from the root. The root itself is
always a directory. A path is followed name by name: what stands before the last name has to be a
directory.
-/

namespace ResponsiveImage

inductive Entry where
  | directory
  | file (content : Content)

/-- Why the file system refuses a request. -/
inductive FileErrorKind where
  | notFound
  | alreadyExists
  | notDirectory
  | isDirectory
  | nameTooLong
deriving DecidableEq, Repr

def FileErrorKind.message : FileErrorKind → String
  | .notFound => "[Errno 2] No such file or directory"
  | .alreadyExists => "[Errno 17] File exists"
  | .notDirectory => "[Errno 20] Not a directory"
  | .isDirectory => "[Errno 21] Is a directory"
  | .nameTooLong => "[Errno 36] File name too long"

/-- A refused request, with the paths that it named. -/
structure FileError where
  kind : FileErrorKind
  paths : List String
deriving DecidableEq, Repr

def FileError.message (e : FileError) : String :=
  let paths := " -> ".intercalate (e.paths.map Text.quoted)
  let kind := e.kind.message
  s!"{kind}: {paths}"

/-- The entries of a file tree below the root. -/
structure Tree where
  entries : List (List String × Entry) := []

namespace Tree

/-- What stands at a place. -/
def get? (t : Tree) (place : List String) : Option Entry :=
  if place.isEmpty then some .directory else t.entries.lookup place

def isDirectory (t : Tree) (place : List String) : Bool :=
  match t.get? place with
  | some .directory => true
  | _ => false

def content? (t : Tree) (place : List String) : Option Content :=
  match t.get? place with
  | some (.file c) => some c
  | _ => none

/-- The tree with an entry at a place. -/
def put (t : Tree) (place : List String) (e : Entry) : Tree :=
  ⟨Json.setMember place e t.entries⟩

/-- The tree without what stands at a place and below it. -/
def remove (t : Tree) (place : List String) : Tree :=
  ⟨t.entries.filter fun m ↦ !place.isPrefixOf m.1⟩

/-- The names in a directory. -/
def names (t : Tree) (place : List String) : List String :=
  t.entries.filterMap fun m ↦
    if m.1.dropLast == place then m.1.getLast? else none

/-- The longest name that a file can have, in bytes. -/
def greatestName : Nat := 255

/-- The place that names lead to from a place. The last of them may be missing. -/
def follow (t : Tree) (place : List String) : List String → Except FileErrorKind (List String)
  | [] => .ok place
  | p :: ps =>
    match t.get? place with
    | none => .error .notFound
    | some (.file _) => .error .notDirectory
    | some .directory =>
      if p = ".." then follow t place.dropLast ps
      else if greatestName < p.utf8ByteSize then .error .nameTooLong
      else follow t (place ++ [p]) ps

/-- The place that a path leads to from a working directory. -/
def locate (t : Tree) (cwd : List String) (p : Path) : Except FileErrorKind (List String) :=
  match p.anchor with
  | .relative => t.follow cwd p.parts
  | _ => t.follow [] p.parts

/-- What stands at a path. -/
def stat (t : Tree) (cwd : List String) (p : Path) :
    Except FileErrorKind (List String × Entry) := do
  let place ← t.locate cwd p
  match t.get? place with
  | some e => return (place, e)
  | none => .error .notFound

end Tree

end ResponsiveImage
