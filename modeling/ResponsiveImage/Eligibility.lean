import ResponsiveImage.Markup.Node
import ResponsiveImage.Options.Basic
import ResponsiveImage.Text.Blank

/-!
# Eligibility

Which nodes of a document are images, and whether their sources have an extension that is worked on.
A source that is blank or no literal text is left for later to decide.
-/

namespace ResponsiveImage

open Json (Value)

/-- The part that an image plays in a document. -/
inductive Role where
  /-- A plain image tag. -/
  | tag
  /-- A component that shows an image in several sizes. -/
  | component
deriving DecidableEq, Repr

/-- Why a node is left alone. -/
inductive Ineligibility where
  | extension (role : Role) (name source : String) (extensions : List Value)
  | tagsDisabled
  | notAnImage (name : String)

inductive Eligibility where
  | eligible (role : Role) (extensions : List Value)
  | ineligible (reason : Ineligibility)

namespace Ineligibility

/-- A node as messages call it. -/
def label (role : Role) (name : String) : String :=
  match role with
  | .tag => s!"The <{name}> tag"
  | .component => s!"The {name} component"

def message : Ineligibility → String
  | .extension role name source extensions =>
    let node := label role name
    let listed := ", ".intercalate (extensions.map Value.text)
    s!"{node} was passed a file ({source}) whose extension is not one of {listed}"
  | .tagsDisabled => "optimizeAll is disabled for <img> tags"
  | .notAnImage name => s!"<{name}> is not an image node"

end Ineligibility

namespace Eligibility

/-- Whether a value has one of some extensions, which must be texts. -/
def isAllowed (value : String) (extensions : List Value) : Except Fault Bool := do
  let texts ← extensions.mapM Options.text
  return FileName.isAllowed value texts

/-- The trimmed text of a source, unless it is blank or no literal text. -/
def literalSource? (n : Markup.Node) : Option String :=
  match n.attribute? "src".toList with
  | some ⟨_, .static cs _ _, _, _⟩ =>
    let source := Text.trim cs
    if source.isEmpty then none else some (String.ofList source)
  | _ => none

/-- Whether an image of a given role has a source that may be worked on. -/
def ofSource (n : Markup.Node) (role : Role) (extensions : List Value) :
    Except Fault Eligibility := do
  match literalSource? n with
  | none => return .eligible role extensions
  | some source =>
    if ← isAllowed source extensions then return .eligible role extensions
    else return .ineligible (.extension role (String.ofList n.name) source extensions)

/-- Whether a node is called as a value says. -/
def isNamed (n : Markup.Node) : Value → Bool
  | .string s => n.name == s.toList
  | _ => false

/-- Whether a node is an image that may be worked on. -/
def ofNode (n : Markup.Node) (o : Options) : Except Fault Eligibility :=
  let isTag := n.name == "img".toList
  if isTag && o.optimizeAll.truthy then ofSource n .tag o.imgTagExtensions
  else if isNamed n o.tagName then ofSource n .component o.componentExtensions
  else if isTag then .ok (.ineligible .tagsDisabled)
  else .ok (.ineligible (.notAnImage (String.ofList n.name)))

end Eligibility

end ResponsiveImage
