import ResponsiveImage.Fault
import ResponsiveImage.Options.Field

/-!
# Options

The settings of a run. Options are made from a draft: lists are taken apart, nested settings are
read, and what has to be in range is checked. Fields that are only looked at when they are used keep
whatever value they were given.
-/

namespace ResponsiveImage

open Json (Value)

inductive PlaceholderKind where
  | trace
  | blur
deriving DecidableEq, Repr

def PlaceholderKind.text : PlaceholderKind → String
  | .trace => "trace"
  | .blur => "blur"

/-- The encoder settings of the alternate format. -/
structure AltFormat where
  format : Value := .string "webp"
  quality : Value := .int 75
  lossless : Value := .bool false

/-- The settings of traced placeholders. -/
structure TraceSettings where
  background : Value := .string "#fff"
  color : Value := .string "#002fa7"
  threshold : Value := .int 120
  size : Value := .int 500
  turdSize : Value := .int 2

/-- Nested settings: those that an object gave, or a value that is no object. -/
inductive Settings (α : Type) where
  | given (settings : α)
  | other (v : Value)

structure Options where
  optimizeAll : Value
  imgTagExtensions : List Value
  componentExtensions : List Value
  inlineBelow : Value
  compressionLevel : Number
  quality : Number
  tagName : Value
  sizes : List Number
  breakpoints : List Value
  outputDir : Value
  publicDir : Value
  sourceDir : Value
  placeholder : PlaceholderKind
  altFormat : Value
  altFormatOptions : Settings AltFormat
  traceOptions : Settings TraceSettings
  optimizeRemote : Value
  remoteTimeout : Value
  downloadDir : Value
  placeholderWidth : Value

namespace AltFormat

def toValue (a : AltFormat) : Value :=
  .object [("format", a.format), ("quality", a.quality), ("lossless", a.lossless)]

/-- Sets one member. A member called `force` is accepted and has no effect. -/
def setMember (a : AltFormat) (m : String × Value) : Except Fault AltFormat :=
  match m.1 with
  | "format" => .ok { a with format := m.2 }
  | "quality" => .ok { a with quality := m.2 }
  | "lossless" => .ok { a with lossless := m.2 }
  | "force" => .ok a
  | _ => .error .mistyped

def ofMembers (members : List (String × Value)) : Except Fault AltFormat :=
  members.foldlM setMember {}

end AltFormat

namespace TraceSettings

def toValue (t : TraceSettings) : Value :=
  .object [("background", t.background), ("color", t.color), ("threshold", t.threshold),
    ("size", t.size), ("turd_size", t.turdSize)]

/-- The members with the other spelling of `turd_size` in its place, over which it takes
precedence. -/
def withTurdSize (members : List (String × Value)) : List (String × Value) :=
  match members.lookup "turdSize" with
  | none => members
  | some v => Json.setMember "turd_size" v (members.filter (·.1 != "turdSize"))

def setMember (t : TraceSettings) (m : String × Value) : Except Fault TraceSettings :=
  match m.1 with
  | "background" => .ok { t with background := m.2 }
  | "color" => .ok { t with color := m.2 }
  | "threshold" => .ok { t with threshold := m.2 }
  | "size" => .ok { t with size := m.2 }
  | "turd_size" => .ok { t with turdSize := m.2 }
  | _ => .error .mistyped

def ofMembers (members : List (String × Value)) : Except Fault TraceSettings :=
  (withTurdSize members).foldlM setMember {}

end TraceSettings

namespace Settings

/-- Reads nested settings from an object and keeps any other value. -/
def ofValue {α : Type} (read : List (String × Value) → Except Fault α) :
    Value → Except Fault (Settings α)
  | .object members => (read members).map given
  | v => .ok (other v)

def toValue {α : Type} (write : α → Value) : Settings α → Value
  | given settings => write settings
  | other v => v

end Settings

namespace Options

/-- The draft of the options that nothing was said about. -/
def defaultDraft : Draft
  | .optimizeAll => .bool true
  | .imgTagExtensions => .array [.string "jpg", .string "jpeg", .string "png"]
  | .componentExtensions => .array []
  | .inlineBelow => .int 10000
  | .compressionLevel => .int 8
  | .quality => .int 70
  | .tagName => .string "Image"
  | .sizes => .array [.int 400, .int 800, .int 1200]
  | .breakpoints => .array [.int 375, .int 768, .int 1024]
  | .outputDir => .string "g/"
  | .publicDir => .string "./static/"
  | .sourceDir => .string "./src/"
  | .placeholder => .string "trace"
  | .altFormat => .bool true
  | .altFormatOptions => AltFormat.toValue {}
  | .traceOptions => TraceSettings.toValue {}
  | .optimizeRemote => .bool true
  | .remoteTimeout => .float (.ofDecimal false 15 0)
  | .downloadDir => .null
  | .placeholderWidth => .int 64

/-- The items of a value that is used as a list: the characters of a text, the keys of an object. -/
def items : Value → Except Fault (List Value)
  | .array vs => .ok vs
  | .string s => .ok (s.toList.map fun c ↦ .string (String.singleton c))
  | .object members => .ok (members.map fun m ↦ .string m.1)
  | _ => .error .mistyped

def number (v : Value) : Except Fault Number :=
  match v.number? with
  | some n => .ok n
  | none => .error .mistyped

def placeholderKind (v : Value) : Except Fault PlaceholderKind :=
  match v with
  | .string "trace" => .ok .trace
  | .string "blur" => .ok .blur
  | v => .error (.options (.placeholder v))

/-- Sizes as numbers, none of which is zero or less. -/
def positiveSizes (given : List Value) : List Value → Except Fault (List Number)
  | [] => .ok []
  | v :: vs => do
    let n ← number v
    if n.le 0 then .error (.options (.sizes given))
    else
      let ns ← positiveSizes given vs
      return n :: ns

/-- A number from `low` to `high`. -/
def inRange (low high : Number) (reason : Number → OptionsFault) (v : Value) :
    Except Fault Number := do
  let n ← number v
  if low.le n && n.le high then return n else .error (.options (reason n))

/-- The options of a draft, if it is accepted. -/
def ofDraft (d : Draft) : Except Fault Options := do
  let imgTagExtensions ← items (d .imgTagExtensions)
  let componentExtensions ← items (d .componentExtensions)
  let sizeItems ← items (d .sizes)
  let breakpoints ← items (d .breakpoints)
  let altFormatOptions ← Settings.ofValue AltFormat.ofMembers (d .altFormatOptions)
  let traceOptions ← Settings.ofValue TraceSettings.ofMembers (d .traceOptions)
  let placeholder ← placeholderKind (d .placeholder)
  let sizes ← positiveSizes sizeItems sizeItems
  if breakpoints.length < sizes.length then
    .error (.options (.breakpoints sizes.length breakpoints.length))
  let compressionLevel ← inRange 0 9 .compressionLevel (d .compressionLevel)
  let quality ← inRange 1 100 .quality (d .quality)
  if !(d .tagName).truthy then .error (.options .noTagName)
  return {
    optimizeAll := d .optimizeAll
    imgTagExtensions, componentExtensions
    inlineBelow := d .inlineBelow
    compressionLevel, quality
    tagName := d .tagName
    sizes, breakpoints
    outputDir := d .outputDir
    publicDir := d .publicDir
    sourceDir := d .sourceDir
    placeholder
    altFormat := d .altFormat
    altFormatOptions, traceOptions
    optimizeRemote := d .optimizeRemote
    remoteTimeout := d .remoteTimeout
    downloadDir := d .downloadDir
    placeholderWidth := d .placeholderWidth }

/-- The draft that gives the same options again. -/
def draft (o : Options) : Draft
  | .optimizeAll => o.optimizeAll
  | .imgTagExtensions => .array o.imgTagExtensions
  | .componentExtensions => .array o.componentExtensions
  | .inlineBelow => o.inlineBelow
  | .compressionLevel => .ofNumber o.compressionLevel
  | .quality => .ofNumber o.quality
  | .tagName => o.tagName
  | .sizes => .array (o.sizes.map .ofNumber)
  | .breakpoints => .array o.breakpoints
  | .outputDir => o.outputDir
  | .publicDir => o.publicDir
  | .sourceDir => o.sourceDir
  | .placeholder => .string o.placeholder.text
  | .altFormat => o.altFormat
  | .altFormatOptions => o.altFormatOptions.toValue AltFormat.toValue
  | .traceOptions => o.traceOptions.toValue TraceSettings.toValue
  | .optimizeRemote => o.optimizeRemote
  | .remoteTimeout => o.remoteTimeout
  | .downloadDir => o.downloadDir
  | .placeholderWidth => o.placeholderWidth

/-- A draft with the members of an object set one after another. -/
def setMembers (d : Draft) : List (String × Value) → Except Fault Draft
  | [] => .ok d
  | (key, v) :: ms =>
    match Field.ofKey? key with
    | some f => setMembers (d.set f v) ms
    | none => .error (.options (.unknownOption key))

/-- The options that the members of an object give. -/
def ofMapping (members : List (String × Value)) : Except Fault Options := do
  ofDraft (← setMembers defaultDraft members)

/-- Options as the members of an object, by which they are read again. -/
def toMapping (o : Options) : List (String × Value) :=
  Field.all.map fun f ↦ (f.key, o.draft f)

def setNamed (d : Draft) : List (String × Value) → Except Fault Draft
  | [] => .ok d
  | (name, v) :: ms =>
    match Field.ofName? name with
    | some f => setNamed (d.set f v) ms
    | none => .error .mistyped

/-- Options with some fields, given by name, changed. -/
def withOverrides (o : Options) (overrides : List (String × Value)) : Except Fault Options := do
  ofDraft (← setNamed o.draft overrides)

/-! ## Derived settings -/

/-- A value as a path. -/
def path : Value → Except Fault Path
  | .string s => .ok (.ofString s)
  | _ => .error .mistyped

def text : Value → Except Fault String
  | .string s => .ok s
  | _ => .error .lacking

/-- The directory that receives what is generated, before it is resolved. -/
def outputPath (o : Options) : Except Fault Path := do
  let publicDir ← path o.publicDir
  let outputDir ← path o.outputDir
  return publicDir / outputDir

/-- An output directory as the beginning of a URL. -/
def urlBaseOf (dir : List Char) : List Char :=
  Text.trimRight '/' (dir.map fun c ↦ if c = '\\' then '/' else c)

def urlBase (o : Options) : Except Fault String := do
  let dir ← text o.outputDir
  return String.ofList (urlBaseOf dir.toList)

/-- The directory that receives downloads, before it is resolved. -/
def downloadPath (o : Options) : Except Fault Path :=
  path (if o.downloadDir.truthy then o.downloadDir else o.sourceDir)

/-- The settings of the alternate format, if an object gave them. -/
def altSettings (o : Options) : Except Fault AltFormat :=
  match o.altFormatOptions with
  | .given settings => .ok settings
  | .other _ => .error .lacking

/-- The extension of files in the alternate format. -/
def altExtension (o : Options) : Except Fault String := do
  let format ← text (← o.altSettings).format
  return Text.lower format

end Options

end ResponsiveImage
