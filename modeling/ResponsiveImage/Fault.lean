import ResponsiveImage.Files.Tree
import ResponsiveImage.Json.Reader
import ResponsiveImage.Text.Utf8

/-!
# Faults

What can go wrong with options, files, downloads and pictures. Each fault is a cause; the text of its
message is told by one function.
-/

namespace ResponsiveImage

/-- Why options are not accepted. -/
inductive OptionsFault where
  | unknownOption (key : String)
  | placeholder (given : Json.Value)
  | sizes (given : List Json.Value)
  | breakpoints (sizes breakpoints : Nat)
  | compressionLevel (given : Number)
  | quality (given : Number)
  | noTagName
  /-- A file of options that holds something other than an object. -/
  | notAnObject (path : String)
  /-- A file of options that is not JSON. -/
  | malformed (text : List Char) (e : Json.SyntaxError)

def OptionsFault.message : OptionsFault → String
  | .unknownOption key => s!"Unknown option: {key}"
  | .placeholder given =>
    let shown := given.shown
    s!"placeholder must be one of trace, blur, got {shown}"
  | .sizes given =>
    let shown := (Json.Value.array given).shown
    s!"sizes must be positive, got {shown}"
  | .breakpoints m n => s!"every size needs a breakpoint ({m} sizes, {n} breakpoints)"
  | .compressionLevel given =>
    let shown := given.text
    s!"compression_level must be 0-9, got {shown}"
  | .quality given =>
    let shown := given.text
    s!"quality must be 1-100, got {shown}"
  | .noTagName => "tag_name must not be empty"
  | .notAnObject path => s!"Options file {path} must contain a JSON object"
  | .malformed text e => e.message text

/-- Why a remote image is not fetched. -/
inductive FetchFault where
  | failed (url reason : String)
  | interrupted (url reason : String)
  | unwritten (path : String) (reason : FileError)
deriving DecidableEq, Repr

def FetchFault.message : FetchFault → String
  | .failed url reason => s!"Failed to fetch image {url}: {reason}"
  | .interrupted url reason => s!"Download of {url} was interrupted: {reason}"
  | .unwritten path reason =>
    let reason := reason.message
    s!"Failed to write image {path}: {reason}"

/-- Why a picture cannot be processed. -/
inductive PictureFault where
  | unreadable (path : String) (reason : FileError)
  | unidentified (path : String)
  | unencodable (format reason : String)
  | untyped (path : String)
  | noVariants (path : String)
  | untraceable (path reason : String)
  /-- A source that is no literal text cannot be replaced. -/
  | dynamicSource
  /-- A refusal in the words of the one that refuses. -/
  | refused (reason : String)
deriving DecidableEq, Repr

def PictureFault.message : PictureFault → String
  | .unreadable path reason =>
    let reason := reason.message
    s!"Cannot read image {path}: {reason}"
  | .unidentified path =>
    let shown := Text.quoted path
    s!"Cannot read image {path}: cannot identify image file {shown}"
  | .unencodable format reason => s!"Cannot encode image as {format}: {reason}"
  | .untyped path => s!"Cannot determine the image type of {path}"
  | .noVariants path => s!"No variants produced for {path}"
  | .untraceable path reason => s!"Cannot trace {path}: {reason}"
  | .dynamicSource => "Only a literal src value can be rewritten"
  | .refused reason => reason

inductive Fault where
  | options (reason : OptionsFault)
  | fetch (reason : FetchFault)
  | picture (reason : PictureFault)
  | file (reason : FileError)
  | arithmetic (reason : ArithmeticError)
  /-- A file that should hold text and does not; the size of the file. -/
  | undecodable (size : Nat) (reason : Text.Utf8.DecodeError)
  /-- A path with a NUL in it. -/
  | embeddedNul
  /-- A value of the wrong kind. -/
  | mistyped
  /-- A value that lacks what is asked of it. -/
  | lacking
  | tooFewBreakpoints (variants breakpoints : Nat)
  /-- A list of variants without a first one. -/
  | noFirstVariant

def Fault.message : Fault → String
  | .options reason => reason.message
  | .fetch reason => reason.message
  | .picture reason => reason.message
  | .file reason => reason.message
  | .arithmetic reason => reason.message
  | .undecodable size reason => reason.message size
  | .embeddedNul => "embedded null byte"
  | .mistyped => "wrong type"
  | .lacking => "missing member"
  | .tooFewBreakpoints variants breakpoints =>
    s!"{variants} variants but only {breakpoints} breakpoints"
  | .noFirstVariant => "no variants"

end ResponsiveImage
