import ResponsiveImage.Options.Basic
import ResponsiveImage.Workspace

/-!
# Files of options

A file of options holds one JSON object. What is given beside the file takes precedence over it, a
null being nothing given.
-/

namespace ResponsiveImage.Options

open Json (Value)

/-- The members of the object in a file. -/
def readMapping (p : Path) : Job (List (String × Value)) := do
  let text ← Job.readText p
  match Json.read text with
  | .error e => throw (.options (.malformed text e))
  | .ok (.object members) => return members
  | .ok _ => throw (.options (.notAnObject p.toString))

/-- What is given: all but the nulls. -/
def givenOf (overrides : List (String × Value)) : List (String × Value) :=
  overrides.filter fun m ↦ match m.2 with
    | .null => false
    | _ => true

/-- The options of a file, if there is one, with what is given beside it. -/
def load (p? : Option Path) (overrides : List (String × Value)) : Job Options := do
  let members ← match p? with
    | some p => readMapping p
    | none => pure []
  let options ← Job.ofExcept id (ofMapping members)
  let given := givenOf overrides
  if given.isEmpty then return options
  else Job.ofExcept id (options.withOverrides given)

end ResponsiveImage.Options
