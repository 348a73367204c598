import ResponsiveImage.Options.Basic
import ResponsiveImage.Text.Digit
import ResponsiveImage.Text.Search

/-!
# The command line

There are two commands, of which rewriting is the one that need not be named. Its arguments are files
and options in any order, but for the files, which stand together. A long option may be cut short as
long as it is told from the others, and its value may follow an equals sign. Two dashes end the
options.
-/

namespace ResponsiveImage.Command

/-- The options of the command line. -/
inductive Switch where
  | help
  | config
  | inPlace
  | sourceDir
  | publicDir
  | placeholder
  | verbose
deriving DecidableEq, Repr

/-- What is rewritten, and how. -/
structure RewriteArguments where
  files : List Path := []
  config : Option Path := none
  inPlace : Bool := false
  sourceDir : Option String := none
  publicDir : Option String := none
  placeholder : Option PlaceholderKind := none
  verbose : Bool := false

inductive Invocation where
  | defaults
  | rewrite (arguments : RewriteArguments)

/-- Why a command line starts no command. -/
inductive Stop where
  | help
  | usage
deriving DecidableEq, Repr

/-- The code with which the program ends. -/
def Stop.code : Stop → Nat
  | .help => 0
  | .usage => 2

namespace Switch

def text : Switch → String
  | .help => "--help"
  | .config => "--config"
  | .inPlace => "--in-place"
  | .sourceDir => "--source-dir"
  | .publicDir => "--public-dir"
  | .placeholder => "--placeholder"
  | .verbose => "--verbose"

/-- The options of the rewriting command. -/
def all : List Switch := [help, config, inPlace, sourceDir, publicDir, placeholder, verbose]

/-- Whether an option has a value. -/
def hasValue : Switch → Bool
  | .help | .inPlace | .verbose => false
  | _ => true

end Switch

/-! ## Tokens -/

/-- What an argument is taken for. -/
inductive Token where
  | word (s : String)
  | separator
  | switch (s : Switch) (value? : Option String)
  | unknown
  /-- An option with a value that it does not take. -/
  | malformed
deriving DecidableEq, Repr

namespace Token

/-- An option with the value that stands in the same argument. -/
def withValue (s : Switch) (value : String) : Token :=
  if s.hasValue then switch s (some value) else malformed

/-- The short form of help with what follows it: only further short forms of help may. -/
def shortHelp (more : List Char) : Token :=
  if !more.isEmpty && more.all (· == 'h') then switch .help none else malformed

/-- Whether a word is a negative number, which begins with a dash and yet is no option. -/
def isNegativeNumber (s : String) : Bool :=
  match s.toList with
  | '-' :: cs =>
    let cs := if cs.getLast? = some '\n' then cs.dropLast else cs
    let whole := cs.takeWhile Text.isDecimalDigit
    match cs.drop whole.length with
    | [] => !whole.isEmpty
    | '.' :: fraction => !fraction.isEmpty && fraction.all Text.isDecimalDigit
    | _ => false
  | _ => false

/-- An argument at its first equals sign. -/
def splitValue (s : String) : String × Option String :=
  let name := s.toList.takeWhile (· != '=')
  match s.toList.drop name.length with
  | _ :: value => (String.ofList name, some (String.ofList value))
  | [] => (s, none)

/-- The option that goes by exactly this name. -/
def spelled? (known : List Switch) (s : String) : Option Switch :=
  if s = "-h" then some .help else known.find? fun k ↦ k.text == s

/-- An argument that begins with a dash and is no option in its full spelling. -/
def ofAbbreviation (known : List Switch) (s : String) : Except Stop Token :=
  let (name, value?) := splitValue s
  let meant :=
    if "--".toList.isPrefixOf s.toList then
      known.filter fun k ↦ name.toList.isPrefixOf k.text.toList
    else []
  match meant, value? with
  | [k], some value => .ok (withValue k value)
  | [k], none => .ok (switch k none)
  | _ :: _ :: _, _ => .error .usage
  | [], _ =>
    if "-h".toList.isPrefixOf s.toList then .ok (shortHelp (s.toList.drop 2))
    else if isNegativeNumber s || s.toList.contains ' ' then .ok (word s)
    else .ok unknown

/-- What an argument is taken for, where some options are known. -/
def ofArgument (known : List Switch) (s : String) : Except Stop Token :=
  if !"-".toList.isPrefixOf s.toList then .ok (word s)
  else
    match spelled? known s with
    | some k => .ok (switch k none)
    | none =>
      if s = "-" then .ok (word s)
      else
        match splitValue s with
        | (name, some value) =>
          match spelled? known name with
          | some .help =>
            if name = "-h" then .ok (shortHelp value.toList) else .ok malformed
          | some k => .ok (withValue k value)
          | none => ofAbbreviation known s
        | (_, none) => ofAbbreviation known s

/-- What the arguments are taken for. All behind two dashes are words. -/
def ofArguments (known : List Switch) : List String → Except Stop (List Token)
  | [] => .ok []
  | s :: ss =>
    if s = "--" then .ok (separator :: ss.map word)
    else do
      let t ← ofArgument known s
      let ts ← ofArguments known ss
      return t :: ts

/-- The word that a token is, if it is one. -/
def word? : Token → Option String
  | word s => some s
  | _ => none

end Token

/-! ## Rewriting -/

/-- The placeholder that is called so. -/
def placeholder? : String → Option PlaceholderKind
  | "trace" => some .trace
  | "blur" => some .blur
  | _ => none

namespace RewriteArguments

/-- Arguments with one option given, together with its value if it has one. -/
def set (a : RewriteArguments) (s : Switch) (value : String) : Except Stop RewriteArguments :=
  match s with
  | .help => .error .help
  | .config => .ok { a with config := some (.ofString value) }
  | .inPlace => .ok { a with inPlace := true }
  | .sourceDir => .ok { a with sourceDir := some value }
  | .publicDir => .ok { a with publicDir := some value }
  | .placeholder =>
    match placeholder? value with
    | some kind => .ok { a with placeholder := some kind }
    | none => .error .usage
  | .verbose => .ok { a with verbose := true }

end RewriteArguments

/-- The arguments read so far, and whether some of them have no meaning. -/
structure Reading where
  arguments : RewriteArguments := {}
  surplus : Bool := false

namespace Reading

/-- Reads operands that stand together: the first ones are the files and further ones have no
meaning. -/
def addOperands (r : Reading) (ts : List Token) : Reading :=
  let words := ts.filterMap Token.word?
  if words.isEmpty || !r.arguments.files.isEmpty then { r with surplus := true }
  else { r with arguments := { r.arguments with files := words.map Path.ofString } }

/-- Reads tokens one after another, `waiting` being the operands that stand directly before them. -/
def add (r : Reading) (waiting : List Token) : List Token → Except Stop Reading
  | [] => .ok (settle r waiting)
  | t :: ts =>
    match t with
    | .word _ | .separator => add r (waiting ++ [t]) ts
    | .unknown => add { settle r waiting with surplus := true } [] ts
    | .malformed => .error .usage
    | .switch s (some value) => do
      let a ← (settle r waiting).arguments.set s value
      add { settle r waiting with arguments := a } [] ts
    | .switch s none =>
      if s.hasValue then
        match ts with
        | .word value :: ts => do
          let a ← (settle r waiting).arguments.set s value
          add { settle r waiting with arguments := a } [] ts
        | _ => .error .usage
      else do
        let a ← (settle r waiting).arguments.set s ""
        add { settle r waiting with arguments := a } [] ts
where
  settle (r : Reading) (waiting : List Token) : Reading :=
    if waiting.isEmpty then r else r.addOperands waiting

/-- The arguments, if each has a meaning and there are files. -/
def finish (r : Reading) : Except Stop RewriteArguments :=
  if r.surplus || r.arguments.files.isEmpty then .error .usage else .ok r.arguments

end Reading

/-- The arguments of the rewriting command. -/
def parseRewrite (ss : List String) : Except Stop RewriteArguments := do
  let ts ← Token.ofArguments Switch.all ss
  (← Reading.add {} [] ts).finish

/-! ## Commands -/

/-- Whether help is asked for among tokens, of which no other has a meaning. -/
def onlyHelp : List Token → Except Stop Unit
  | [] => .ok ()
  | .switch .help none :: _ => .error .help
  | .malformed :: _ => .error .usage
  | _ :: ts => onlyHelp ts

/-- The command that prints the defaults takes no arguments. -/
def parseDefaults (ss : List String) : Except Stop Invocation := do
  onlyHelp (← Token.ofArguments [.help] ss)
  if ss.isEmpty then return .defaults else .error .usage

/-- The names of the commands. -/
def names : List String := ["rewrite", "defaults"]

/-- Arguments with the rewriting command before them, unless they begin with a command or an option. -/
def withCommand (commands : List String) (ss : List String) : List String :=
  match ss with
  | [] => []
  | s :: _ =>
    if commands.contains s || "-".toList.isPrefixOf s.toList then ss else "rewrite" :: ss

/-- What the arguments behind the name of a command say. -/
def parseCommand (name : String) (ss : List String) : Except Stop Invocation :=
  match name with
  | "rewrite" => (parseRewrite ss).map .rewrite
  | "defaults" => parseDefaults ss
  | _ => .error .usage

/-- What arguments say that begin with an option: none is known here but help, and behind others no
command counts, except for the help that it may ask for. -/
def parseOptions : List String → Except Stop Invocation
  | [] => .error .usage
  | s :: ss => do
    if s = "--" then .error .usage
    match ← Token.ofArgument [.help] s with
    | .switch .help none => .error .help
    | .word name => do
      let _ ← parseCommand name ss
      .error .usage
    | .unknown => parseOptions ss
    | _ => .error .usage

/-- What a command line says. -/
def parse (argv : List String) : Except Stop Invocation :=
  match withCommand names argv with
  | [] => .error .usage
  | name :: ss => if names.contains name then parseCommand name ss else parseOptions (name :: ss)

end ResponsiveImage.Command
