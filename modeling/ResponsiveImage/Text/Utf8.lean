/-!
# UTF-8

Texts are stored in UTF-8. Decoding stops at the first bytes that are no character, and tells which
they are and what is wrong with them.
-/

namespace ResponsiveImage.Text.Utf8

def encode (cs : List Char) : List UInt8 := cs.flatMap String.utf8EncodeChar

@[simp] theorem encode_nil : encode [] = [] := rfl

inductive Fault where
  | invalidStart
  | invalidContinuation
  | unexpectedEnd
deriving DecidableEq, Repr

def Fault.message : Fault → String
  | .invalidStart => "invalid start byte"
  | .invalidContinuation => "invalid continuation byte"
  | .unexpectedEnd => "unexpected end of data"

/-- A fault, how much was left where it was met, and how many bytes it concerns. -/
structure DecodeError where
  fault : Fault
  remaining : Nat
  length : Nat
  first : UInt8
deriving DecidableEq, Repr

/-- The message of an error in data of the given length. -/
def DecodeError.message (size : Nat) (e : DecodeError) : String :=
  let start := size - e.remaining
  let reason := e.fault.message
  if e.length = 1 then
    let byte := String.ofList (Nat.toDigits 16 (e.first.toNat + 256)).tail
    s!"'utf-8' codec can't decode byte 0x{byte} in position {start}: {reason}"
  else
    let last := start + e.length - 1
    s!"'utf-8' codec can't decode bytes in position {start}-{last}: {reason}"

/-- A byte that continues a character. -/
def isContinuation (b : UInt8) : Bool := 0x80 ≤ b && b < 0xc0

/-- How many bytes a character has that begins with a byte; none if no character does. -/
def width (b : UInt8) : Option Nat :=
  if b < 0x80 then some 1
  else if b < 0xc2 then none
  else if b < 0xe0 then some 2
  else if b < 0xf0 then some 3
  else if b < 0xf5 then some 4
  else none

/-- Whether a second byte may follow a first one: it continues the character, which is neither
written too long, nor half of a pair, nor beyond the last one. -/
def mayFollow (a b : UInt8) : Bool :=
  isContinuation b && !(a == 0xe0 && b < 0xa0) && !(a == 0xed && 0xa0 ≤ b) &&
    !(a == 0xf0 && b < 0x90) && !(a == 0xf4 && 0x90 ≤ b)

/-- How many of the bytes after the first belong to the character. -/
def goodBytes (a : UInt8) : List UInt8 → Nat
  | [] => 0
  | b :: bs => if mayFollow a b then 1 + (bs.takeWhile isContinuation).length else 0

/-- The code point of a first byte, which begins a character of `n` bytes, and the others. -/
def codePoint (n : Nat) (a : UInt8) (bs : List UInt8) : Nat :=
  let lead := match n with
    | 1 => a.toNat
    | 2 => a.toNat % 32
    | 3 => a.toNat % 16
    | _ => a.toNat % 8
  bs.foldl (fun c b ↦ c * 64 + b.toNat % 64) lead

def decode : List UInt8 → Except DecodeError (List Char)
  | [] => .ok []
  | a :: bs =>
    match width a with
    | none => .error ⟨.invalidStart, bs.length + 1, 1, a⟩
    | some n =>
      let good := min (goodBytes a bs) (n - 1)
      if good = n - 1 then
        (decode (bs.drop (n - 1))).map (Char.ofNat (codePoint n a (bs.take (n - 1))) :: ·)
      else if good = bs.length then .error ⟨.unexpectedEnd, bs.length + 1, bs.length + 1, a⟩
      else .error ⟨.invalidContinuation, bs.length + 1, good + 1, a⟩
termination_by bs => bs.length
decreasing_by simp only [List.length_drop, List.length_cons]; omega

/-- The text with each line end, whichever way it is written, as a newline. -/
def universalNewlines : List Char → List Char
  | [] => []
  | '\r' :: '\n' :: cs => '\n' :: universalNewlines cs
  | '\r' :: cs => '\n' :: universalNewlines cs
  | c :: cs => c :: universalNewlines cs

end ResponsiveImage.Text.Utf8
