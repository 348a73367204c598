import ResponsiveImage.Json.Value

/-!
# Writing JSON

Values are written with ASCII characters only, either on one line or with each element and member on
an indented line of its own.
-/

namespace ResponsiveImage.Json

/-- The `u` escape of a 16-bit unit. -/
def unitEscape (n : Nat) : List Char := '\\' :: 'u' :: Text.Quoted.hex 4 n

/-- A character inside a string; one beyond 16 bits is written as a pair. -/
def escapeChar (c : Char) : List Char :=
  if c = '"' || c = '\\' then ['\\', c]
  else if c = '\n' then ['\\', 'n']
  else if c = '\r' then ['\\', 'r']
  else if c = '\t' then ['\\', 't']
  else if c = '\x0c' then ['\\', 'f']
  else if c = '\x08' then ['\\', 'b']
  else if 0x20 ≤ c.toNat && c.toNat ≤ 0x7e then [c]
  else if c.toNat ≤ 0xffff then unitEscape c.toNat
  else
    let n := c.toNat - 0x10000
    unitEscape (0xd800 + n / 0x400) ++ unitEscape (0xdc00 + n % 0x400)

def printString (s : String) : String :=
  "\"" ++ String.ofList (s.toList.flatMap escapeChar) ++ "\""

def printFloat : Binary64 → String
  | .nan => "NaN"
  | .infinite negative => if negative then "-Infinity" else "Infinity"
  | x => x.text

/-- A line break and the indent of a depth, or what separates values on one line. -/
def lineBreak (indent : Option Nat) (depth : Nat) (flat : String) : String :=
  match indent with
  | none => flat
  | some n => "\n" ++ String.ofList (List.replicate (n * depth) ' ')

/-- Items between brackets. -/
def bracketed (indent : Option Nat) (depth : Nat) (left right : String) (items : List String) :
    String :=
  let separator := "," ++ lineBreak indent (depth + 1) " "
  left ++ lineBreak indent (depth + 1) "" ++ separator.intercalate items ++
    lineBreak indent depth "" ++ right

mutual

def printAt (indent : Option Nat) (depth : Nat) : Value → String
  | .null => "null"
  | .bool b => if b then "true" else "false"
  | .int n => toString n
  | .float x => printFloat x
  | .string s => printString s
  | .array [] => "[]"
  | .array (v :: vs) => bracketed indent depth "[" "]" (printAll indent (depth + 1) (v :: vs))
  | .object [] => "\x7b\x7d"
  | .object (m :: ms) =>
    bracketed indent depth "\x7b" "\x7d" (printMembers indent (depth + 1) (m :: ms))

def printAll (indent : Option Nat) (depth : Nat) : List Value → List String
  | [] => []
  | v :: vs => printAt indent depth v :: printAll indent depth vs

def printMembers (indent : Option Nat) (depth : Nat) : List (String × Value) → List String
  | [] => []
  | (key, v) :: ms =>
    (printString key ++ ": " ++ printAt indent depth v) :: printMembers indent depth ms

end

/-- A value on one line. -/
def Value.compact (v : Value) : String := printAt none 0 v

/-- A value on indented lines. -/
def Value.pretty (v : Value) : String := printAt (some 2) 0 v

end ResponsiveImage.Json
