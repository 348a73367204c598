import ResponsiveImage.Json.Value
import ResponsiveImage.Text.Line

/-!
# Reading JSON

The reader takes what the JSON grammar allows, and besides it the words for infinity and not-a-number.
Of several members with one key the last counts. An error names the place where it was met. An integer
may have any number of digits: there is no limit of 4300. A text has no surrogates: an escape that stands
for one without its other half reads as the replacement character.
-/

namespace ResponsiveImage.Json

inductive Problem where
  | byteOrderMark
  | expectedValue
  | expectedKey
  | expectedColon
  | expectedComma
  | unterminatedString
  | controlCharacter
  | invalidEscape
  | invalidUnicodeEscape
  | extraData
deriving DecidableEq, Repr

def Problem.message : Problem → String
  | .byteOrderMark => "Unexpected UTF-8 BOM (decode using utf-8-sig)"
  | .expectedValue => "Expecting value"
  | .expectedKey => "Expecting property name enclosed in double quotes"
  | .expectedColon => "Expecting ':' delimiter"
  | .expectedComma => "Expecting ',' delimiter"
  | .unterminatedString => "Unterminated string starting at"
  | .controlCharacter => "Invalid control character at"
  | .invalidEscape => "Invalid \\escape"
  | .invalidUnicodeEscape => "Invalid \\uXXXX escape"
  | .extraData => "Extra data"

/-- A problem, and how much of the text was left where it was met. -/
structure SyntaxError where
  problem : Problem
  remaining : Nat
deriving DecidableEq, Repr

/-- The message of an error in a text, with the place where it was met. -/
def SyntaxError.message (text : List Char) (e : SyntaxError) : String :=
  let offset := text.length - e.remaining
  let p := ({} : Text.Position).advance (text.take offset)
  let message := e.problem.message
  let line := p.line
  let column := p.column + 1
  s!"{message}: line {line} column {column} (char {offset})"

/-- What is left of a text after something was read. -/
abbrev Rest (cs : List Char) := { rest : List Char // rest.length < cs.length }

def isSpace (c : Char) : Bool := c == ' ' || c == '\t' || c == '\n' || c == '\r'

def skipSpace : List Char → List Char := List.dropWhile isSpace

theorem length_skipSpace_le (cs : List Char) : (skipSpace cs).length ≤ cs.length :=
  (List.dropWhile_sublist isSpace).length_le

/-- What is left after the space that follows. -/
def Rest.trim {cs : List Char} (r : Rest cs) : Rest cs :=
  ⟨skipSpace r.1, Nat.lt_of_le_of_lt (length_skipSpace_le r.1) r.2⟩

/-- What is left of a text is left of it with a character before it. -/
theorem Rest.lt_cons {cs : List Char} {c : Char} (r : Rest cs) : r.1.length < (c :: cs).length :=
  Nat.lt_succ_of_lt r.2

/-- What is left of a part of a text is left of the text with an escape before it. -/
theorem Rest.lt_escape {cs : List Char} {n : Nat} {c : Char} (r : Rest (cs.drop n)) :
    r.1.length < (c :: 'u' :: cs).length := by
  have := r.2
  simp at this ⊢
  omega

theorem Rest.lt_cons_cons {cs : List Char} {c d : Char} (r : Rest cs) :
    r.1.length < (c :: d :: cs).length :=
  Nat.lt_succ_of_lt r.lt_cons

/-! ## Strings -/

def hexValue? (c : Char) : Option Nat :=
  if c.isDigit then some (c.toNat - 48)
  else if 'a' ≤ c && c ≤ 'f' then some (c.toNat - 87)
  else if 'A' ≤ c && c ≤ 'F' then some (c.toNat - 55)
  else none

/-- The number that four hexadecimal digits at the start of a text write. -/
def hex4? : List Char → Option Nat
  | a :: b :: c :: d :: _ => do
    let a ← hexValue? a
    let b ← hexValue? b
    let c ← hexValue? c
    let d ← hexValue? d
    return ((a * 16 + b) * 16 + c) * 16 + d
  | _ => none

def isHighSurrogate (n : Nat) : Bool := 0xd800 ≤ n && n < 0xdc00

def isLowSurrogate (n : Nat) : Bool := 0xdc00 ≤ n && n < 0xe000

/-- The character of a code point; half of a pair gives the replacement character. -/
def charOf (n : Nat) : Char :=
  if isHighSurrogate n || isLowSurrogate n then '\ufffd' else Char.ofNat n

/-- The character that a `u` escape writes and the length of its digits, a second escape included
if the two make a pair. The text begins after the `u`. -/
def unicodeEscape (cs : List Char) : Except SyntaxError (Char × Nat) :=
  if cs.length ≤ 4 then .error ⟨.invalidUnicodeEscape, cs.length⟩
  else
    match hex4? cs with
    | none => .error ⟨.invalidUnicodeEscape, cs.length + 1⟩
    | some n =>
      if isHighSurrogate n && 10 < cs.length && ['\\', 'u'].isPrefixOf (cs.drop 4) then
        match hex4? (cs.drop 6) with
        | none => .error ⟨.invalidUnicodeEscape, cs.length - 5⟩
        | some m =>
          if isLowSurrogate m then
            .ok (Char.ofNat (0x10000 + (n - 0xd800) * 0x400 + (m - 0xdc00)), 10)
          else .ok (charOf n, 4)
      else .ok (charOf n, 4)

/-- The character that a letter after a backslash writes. -/
def escaped? : Char → Option Char
  | '"' => some '"'
  | '\\' => some '\\'
  | '/' => some '/'
  | 'b' => some '\x08'
  | 'f' => some '\x0c'
  | 'n' => some '\n'
  | 'r' => some '\r'
  | 't' => some '\t'
  | _ => none

/-- The characters of a string up to its closing quote, `start` characters being left where it
opened. -/
def readString (start : Nat) (cs : List Char) : Except SyntaxError (List Char × Rest cs) :=
  match cs with
  | [] => .error ⟨.unterminatedString, start⟩
  | c :: rest =>
    if c = '"' then .ok ([], ⟨rest, by simp⟩)
    else if c.toNat ≤ 0x1f then .error ⟨.controlCharacter, rest.length + 1⟩
    else if c = '\\' then
      match rest with
      | [] => .error ⟨.unterminatedString, start⟩
      | 'u' :: rest => do
        let (d, n) ← unicodeEscape rest
        let (ds, r) ← readString start (rest.drop n)
        return (d :: ds, ⟨r.1, r.lt_escape⟩)
      | e :: rest =>
        match escaped? e with
        | none => .error ⟨.invalidEscape, rest.length + 2⟩
        | some d => do
          let (ds, r) ← readString start rest
          return (d :: ds, ⟨r.1, r.lt_cons_cons⟩)
    else do
      let (ds, r) ← readString start rest
      return (c :: ds, ⟨r.1, r.lt_cons⟩)
termination_by cs.length
decreasing_by all_goals simp_all; try omega

/-! ## Numbers -/

def natOf (digits : List Char) : Nat := digits.foldl (fun n c ↦ 10 * n + (c.toNat - 48)) 0

/-- The parts of a number at the start of a text: whole digits, fraction and exponent. -/
structure Numeral where
  negative : Bool
  whole : List Char
  fraction : List Char
  exponent : Option Int

namespace Numeral

/-- The length of the whole part; a leading zero stands alone. -/
def wholeDigits (cs : List Char) : List Char :=
  match cs with
  | '0' :: _ => ['0']
  | _ => cs.takeWhile Char.isDigit

/-- A fraction and what follows it. A point without a digit after it does not belong to the
number. -/
def fractionOf : List Char → List Char × List Char
  | '.' :: cs =>
    match cs.takeWhile Char.isDigit with
    | [] => ([], '.' :: cs)
    | digits => (digits, cs.dropWhile Char.isDigit)
  | cs => ([], cs)

/-- An exponent and what follows it. A letter without a digit after it does not belong to the
number. -/
def exponentOf (cs : List Char) : Option Int × List Char :=
  match cs with
  | c :: rest =>
    if c = 'e' || c = 'E' then
      let (negative, rest) := match rest with
        | '-' :: rest => (true, rest)
        | '+' :: rest => (false, rest)
        | rest => (false, rest)
      match rest.takeWhile Char.isDigit with
      | [] => (none, cs)
      | digits =>
        let n : Int := natOf digits
        (some (if negative then -n else n), rest.dropWhile Char.isDigit)
    else (none, cs)
  | [] => (none, cs)

/-- The number at the start of a text, and what follows it. -/
def read? (cs : List Char) : Option (Numeral × List Char) :=
  let (negative, body) := match cs with
    | '-' :: rest => (true, rest)
    | cs => (false, cs)
  match wholeDigits body with
  | [] => none
  | whole =>
    let (fraction, rest) := fractionOf (body.drop whole.length)
    let (exponent, rest) := exponentOf rest
    some (⟨negative, whole, fraction, exponent⟩, rest)

/-- A number without fraction and exponent is an integer. -/
def value (n : Numeral) : Value :=
  if n.fraction.isEmpty && n.exponent.isNone then
    let whole : Int := natOf n.whole
    .int (if n.negative then -whole else whole)
  else
    .float (.ofDecimal n.negative (natOf (n.whole ++ n.fraction))
      (n.exponent.getD 0 - n.fraction.length))

end Numeral

/-! ## Values -/

/-- The words that are values. -/
def constants : List (List Char × Value) :=
  [("null".toList, .null), ("true".toList, .bool true), ("false".toList, .bool false),
    ("NaN".toList, .float .nan), ("Infinity".toList, .float (.infinite false)),
    ("-Infinity".toList, .float (.infinite true))]

/-- A word or a number at the start of a text. -/
def readScalar (cs : List Char) : Except SyntaxError (Value × Rest cs) :=
  match constants.find? fun w ↦ w.1.isPrefixOf cs with
  | some (w, v) =>
    if h : (cs.drop w.length).length < cs.length then .ok (v, ⟨cs.drop w.length, h⟩)
    else .error ⟨.expectedValue, cs.length⟩
  | none =>
    match Numeral.read? cs with
    | none => .error ⟨.expectedValue, cs.length⟩
    | some (n, rest) =>
      if h : rest.length < cs.length then .ok (n.value, ⟨rest, h⟩)
      else .error ⟨.expectedValue, cs.length⟩

mutual

/-- The value at the start of a text. -/
def readValue (cs : List Char) : Except SyntaxError (Value × Rest cs) :=
  match cs with
  | '"' :: rest => do
    let (ds, r) ← readString (rest.length + 1) rest
    return (.string (String.ofList ds), ⟨r.1, by have := r.2; simp; omega⟩)
  | '[' :: rest =>
    match h : skipSpace rest with
    | ']' :: rest' =>
      .ok (.array [], ⟨rest', by have := length_skipSpace_le rest; simp [h] at this ⊢; omega⟩)
    | _ => do
      let (vs, r) ← readElements (skipSpace rest)
      return (.array vs,
        ⟨r.1, by have := r.2; have := length_skipSpace_le rest; simp; omega⟩)
  | '{' :: rest =>
    match h : skipSpace rest with
    | '}' :: rest' =>
      .ok (.object [], ⟨rest', by have := length_skipSpace_le rest; simp [h] at this ⊢; omega⟩)
    | _ => do
      let (ms, r) ← readMembers (skipSpace rest)
      return (.object (ms.foldl (fun seen m ↦ setMember m.1 m.2 seen) []),
        ⟨r.1, by have := r.2; have := length_skipSpace_le rest; simp; omega⟩)
  | cs => readScalar cs
termination_by (cs.length, 0)
decreasing_by
  all_goals
    have := length_skipSpace_le rest
    simp_wf
    left
    omega

/-- The elements of an array, up to its closing bracket. -/
def readElements (cs : List Char) : Except SyntaxError (List Value × Rest cs) := do
  let (v, r) ← readValue cs
  match h : r.trim.1 with
  | ']' :: rest => return ([v], ⟨rest, by have := r.trim.2; simp [h] at this; omega⟩)
  | ',' :: rest =>
    let (vs, r') ← readElements (skipSpace rest)
    return (v :: vs, ⟨r'.1, by
      have := r.trim.2; have := r'.2; have := length_skipSpace_le rest; simp [h] at *; omega⟩)
  | rest => .error ⟨.expectedComma, rest.length⟩
termination_by (cs.length, 1)
decreasing_by
  · right; omega
  · have := r.trim.2
    have := length_skipSpace_le rest
    left
    simp [h] at *
    omega

/-- The members of an object, up to its closing brace. -/
def readMembers (cs : List Char) : Except SyntaxError (List (String × Value) × Rest cs) :=
  match cs with
  | '"' :: rest => do
    let (ds, r) ← readString (rest.length + 1) rest
    match h : r.trim.1 with
    | ':' :: after =>
      let (v, r') ← readValue (skipSpace after)
      match h' : r'.trim.1 with
      | '}' :: end' =>
        return ([(String.ofList ds, v)], ⟨end', by
          have := r.trim.2; have := r'.trim.2; have := length_skipSpace_le after
          simp [h, h'] at *; omega⟩)
      | ',' :: more =>
        let (ms, r'') ← readMembers (skipSpace more)
        return ((String.ofList ds, v) :: ms, ⟨r''.1, by
          have := r.trim.2; have := r'.trim.2; have := r''.2
          have := length_skipSpace_le after; have := length_skipSpace_le more
          simp [h, h'] at *; omega⟩)
      | left => .error ⟨.expectedComma, left.length⟩
    | left => .error ⟨.expectedColon, left.length⟩
  | cs => .error ⟨.expectedKey, cs.length⟩
termination_by (cs.length, 1)
decreasing_by
  · have := r.trim.2
    have := length_skipSpace_le after
    simp_wf
    left
    simp [h] at *
    omega
  · have := r.trim.2
    have := r'.trim.2
    have := length_skipSpace_le after
    have := length_skipSpace_le more
    simp_wf
    left
    simp [h, h'] at *
    omega

end

/-- The value that a text writes. -/
def read (cs : List Char) : Except SyntaxError Value :=
  if cs.head? = some '\ufeff' then .error ⟨.byteOrderMark, cs.length⟩
  else do
    let (v, r) ← readValue (skipSpace cs)
    match skipSpace r.1 with
    | [] => return v
    | rest => .error ⟨.extraData, rest.length⟩

end ResponsiveImage.Json
