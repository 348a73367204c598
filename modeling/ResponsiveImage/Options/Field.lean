import ResponsiveImage.Json.Value

/-!
# The fields of the options

Each option has a name, and a key by which files of options call it. Some go by older keys too.
-/

namespace ResponsiveImage.Options

inductive Field where
  | optimizeAll
  | imgTagExtensions
  | componentExtensions
  | inlineBelow
  | compressionLevel
  | quality
  | tagName
  | sizes
  | breakpoints
  | outputDir
  | publicDir
  | sourceDir
  | placeholder
  | altFormat
  | altFormatOptions
  | traceOptions
  | optimizeRemote
  | remoteTimeout
  | downloadDir
  | placeholderWidth
deriving DecidableEq, Repr

namespace Field

/-- All fields, in the order in which options are written. -/
def all : List Field :=
  [optimizeAll, imgTagExtensions, componentExtensions, inlineBelow, compressionLevel, quality,
    tagName, sizes, breakpoints, outputDir, publicDir, sourceDir, placeholder, altFormat,
    altFormatOptions, traceOptions, optimizeRemote, remoteTimeout, downloadDir, placeholderWidth]

/-- The key of a field in files of options. -/
def key : Field → String
  | optimizeAll => "optimizeAll"
  | imgTagExtensions => "imgTagExtensions"
  | componentExtensions => "componentExtensions"
  | inlineBelow => "inlineBelow"
  | compressionLevel => "compressionLevel"
  | quality => "quality"
  | tagName => "tagName"
  | sizes => "sizes"
  | breakpoints => "breakpoints"
  | outputDir => "outputDir"
  | publicDir => "publicDir"
  | sourceDir => "sourceDir"
  | placeholder => "placeholder"
  | altFormat => "altFormat"
  | altFormatOptions => "altFormatOptions"
  | traceOptions => "traceOptions"
  | optimizeRemote => "optimizeRemote"
  | remoteTimeout => "remoteTimeout"
  | downloadDir => "downloadDir"
  | placeholderWidth => "placeholderWidth"

/-- The name of a field, with words apart. -/
def name : Field → String
  | optimizeAll => "optimize_all"
  | imgTagExtensions => "img_tag_extensions"
  | componentExtensions => "component_extensions"
  | inlineBelow => "inline_below"
  | compressionLevel => "compression_level"
  | quality => "quality"
  | tagName => "tag_name"
  | sizes => "sizes"
  | breakpoints => "breakpoints"
  | outputDir => "output_dir"
  | publicDir => "public_dir"
  | sourceDir => "source_dir"
  | placeholder => "placeholder"
  | altFormat => "alt_format"
  | altFormatOptions => "alt_format_options"
  | traceOptions => "trace_options"
  | optimizeRemote => "optimize_remote"
  | remoteTimeout => "remote_timeout"
  | downloadDir => "download_dir"
  | placeholderWidth => "placeholder_width"

/-- The older keys. -/
def formerKeys : List (String × Field) :=
  [("webp", altFormat), ("webpOptions", altFormatOptions), ("trace", traceOptions)]

/-- The field of a name. -/
def ofName? (name : String) : Option Field := all.find? fun f ↦ f.name == name

/-- The field that a key of a file of options stands for, in any of its spellings. -/
def ofKey? (key : String) : Option Field :=
  match all.find? fun f ↦ f.key == key with
  | some f => some f
  | none =>
    match formerKeys.lookup key with
    | some f => some f
    | none => ofName? key

end Field

/-- Values for all fields, not yet checked. -/
abbrev Draft := Field → Json.Value

namespace Draft

/-- A draft with one field given another value. -/
def set (d : Draft) (f : Field) (v : Json.Value) : Draft := fun g ↦ if g = f then v else d g

@[simp] theorem set_self (d : Draft) (f : Field) (v : Json.Value) : d.set f v f = v := by
  simp [set]

theorem set_of_ne (d : Draft) {f g : Field} (v : Json.Value) (h : g ≠ f) : d.set f v g = d g := by
  simp [set, h]

end Draft

end ResponsiveImage.Options
