import ResponsiveImage.Command.Arguments
import ResponsiveImage.Json.Printer
import ResponsiveImage.Options.Load
import ResponsiveImage.Rewrite.Page

/-!
# Running commands

A command prints and ends with a code: 2 if its options are refused, 1 if a file is missing, and 0
otherwise. Files are rewritten together; each is then read again, to tell whether it is changed.
-/

namespace ResponsiveImage.Command

open Job
open Json (Value)

/-- What a command prints and the code with which it ends. -/
structure Result where
  code : Nat := 0
  output : List Char := []
deriving DecidableEq, Repr

/-- Makes the placeholders of a kind. -/
abbrev PlaceholderOf := PlaceholderKind → Placeholder

/-! ## Defaults -/

/-- The options that apply when nothing is said, as a file of options. -/
def defaultsText : Except Fault String := do
  let options ← Options.ofMapping []
  return (Value.object options.toMapping).pretty ++ "\n"

/-! ## Rewriting -/

/-- Whether a fault means that options are refused, and not that the program fails. -/
def isRefusal : Fault → Bool
  | .options _ | .file _ | .undecodable _ _ | .embeddedNul => true
  | _ => false

/-- The fields of the options that the command line gives. -/
def overridesOf (a : RewriteArguments) : List (String × Value) :=
  let given : Option String → Value
    | some s => .string s
    | none => .null
  [("source_dir", given a.sourceDir), ("public_dir", given a.publicDir),
    ("placeholder", given (a.placeholder.map (·.text)))]

/-- The paths at which there is no file. -/
def missing (files : List Path) : Job (List Path) :=
  files.filterMapM fun p ↦ do if ← isFile p then return none else return some p

/-- Writes a text in place of a file. -/
def save (file : Path) (text : List Char) : Job Unit := do
  overwrite file (.bytes (Text.Utf8.encode text))
  log .info .command s!"Saved {file}"

/-- Puts out the new text of a file and tells whether it differs from the old one. -/
def deliver (inPlace : Bool) (file : Path) (text : List Char) : Job (Bool × List Char) := do
  let changed := (← readText file) != text
  if inPlace then
    if changed then save file text
    return (changed, [])
  else return (changed, text)

/-- Rewrites files that are there. -/
def rewriteFiles [Codec] (o : Options) (placeholder : Placeholder) (inPlace : Bool) (files : List Path) :
    Job Result := do
  let files ← files.mapM resolve
  let documents ← files.mapM fun p ↦ return (⟨← readText p, p.parent⟩ : Rewrite.Document)
  let texts ← Rewrite.documents o placeholder documents
  let delivered ← (files.zip texts).mapM fun (p, text) ↦ deliver inPlace p text
  let changed := delivered.countP (·.1)
  let total := files.length
  logTimed .command "Finished in " s!" ({changed}/{total} files changed)"
  return { output := delivered.flatMap (·.2) }

def rewrite [Codec] (placeholderOf : PlaceholderOf) (a : RewriteArguments) : Job Result := do
  match ← attempt (Options.load a.config (overridesOf a)) with
  | .error f =>
    if isRefusal f then
      let reason := f.message
      log .error .command s!"Invalid options: {reason}"
      return { code := 2 }
    else throw f
  | .ok o =>
    let absent ← missing a.files
    if absent.isEmpty then rewriteFiles o (placeholderOf o.placeholder) a.inPlace a.files
    else
      absent.forM fun p ↦ log .error .command s!"File not found: {p}"
      return { code := 1 }

def run [Codec] (placeholderOf : PlaceholderOf) : Invocation → Job Result
  | .defaults => return { output := (← ofExcept id defaultsText).toList }
  | .rewrite a => rewrite placeholderOf a

end ResponsiveImage.Command
