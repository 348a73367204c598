import ResponsiveImage.Options.Basic
import ResponsiveImage.Path.Url
import ResponsiveImage.Workspace

/-!
# Output plans

Where the files that are made from an image go, and the URLs that name them. All lie in one directory
and are named after the image, those of a certain size with the size behind the stem.
-/

namespace ResponsiveImage

open Json (Value)

/-- An image with the directory, the URL and the extension of what is made from it. -/
structure OutputPlan where
  source : Path
  directory : Path
  urlBase : String
  altExtension : String
deriving DecidableEq, Repr

namespace OutputPlan

/-- The file name of the image. -/
def name (p : OutputPlan) : String := p.source.name

/-- Where the image itself goes, as it is or optimised. -/
def path (p : OutputPlan) : Path := p.directory / .ofString p.name

/-- The URL of a file in the directory of a plan. -/
def urlOf (p : OutputPlan) (file : String) : String :=
  String.ofList (Url.join p.urlBase.toList file.toList)

def url (p : OutputPlan) : String := p.urlOf p.name

/-- The file name of the variant of a size. -/
def sizedName (p : OutputPlan) (size : Number) : String := FileName.sized p.name size.text

/-- The file name of the variant of a size in the alternate format. -/
def sizedAlternateName (p : OutputPlan) (size : Number) : String :=
  FileName.sizedAlternate p.name size.text p.altExtension

def sizedPath (p : OutputPlan) (size : Number) : Path := p.directory / .ofString (p.sizedName size)

def sizedUrl (p : OutputPlan) (size : Number) : String := p.urlOf (p.sizedName size)

def sizedAlternatePath (p : OutputPlan) (size : Number) : Path :=
  p.directory / .ofString (p.sizedAlternateName size)

/-- The directory that receives what is generated. -/
def outputDirectory (o : Options) : Job Path := do
  Job.resolve (← Job.ofExcept id o.outputPath)

/-- The directory that receives downloads. -/
def downloadDirectory (o : Options) : Job Path := do
  Job.resolve (← Job.ofExcept id o.downloadPath)

/-- The plan for an image. -/
def ofImage (source : Path) (o : Options) : Job OutputPlan := do
  let directory ← outputDirectory o
  let urlBase ← Job.ofExcept id o.urlBase
  let altExtension ← Job.ofExcept id o.altExtension
  return ⟨source, directory, urlBase, altExtension⟩

/-- Puts a copy of the image where its plan says, unless it is that very file. -/
def stage (p : OutputPlan) : Job Unit := do
  Job.ensureDirectories p.directory
  match ← Job.place? p.path with
  | some target =>
    if (← Job.place p.source) = target then return
  | none => pure ()
  Job.writeFile p.path (← Job.readFile p.source)

/-- The plan for an image, of which a copy is put in its place. -/
def staged (source : Path) (o : Options) : Job OutputPlan := do
  let plan ← ofImage source o
  plan.stage
  return plan

end OutputPlan

end ResponsiveImage
