import ResponsiveImage.Text.Printable

/-!
# Quoted text

A text in a message stands between quotes: single ones, unless it holds a single quote and no double
one. The quote, the backslash and what cannot be printed are escaped.
-/

namespace ResponsiveImage.Text

namespace Quoted

/-- The quote in which a text is written. -/
def quoteFor (cs : List Char) : Char :=
  if cs.contains '\'' && !cs.contains '"' then '"' else '\''

def hexDigit (n : Nat) : Char := (Nat.digitChar n)

/-- The last `width` digits of a number in base 16. -/
def hex : Nat → Nat → List Char
  | 0, _ => []
  | width + 1, n => hex width (n / 16) ++ [hexDigit (n % 16)]

/-- A character as it stands between two quotes `q`. -/
def escape (q : Char) (c : Char) : List Char :=
  if c = q || c = '\\' then ['\\', c]
  else if c = '\t' then ['\\', 't']
  else if c = '\n' then ['\\', 'n']
  else if c = '\r' then ['\\', 'r']
  else if isPrintable c then [c]
  else if c.toNat ≤ 0xff then '\\' :: 'x' :: hex 2 c.toNat
  else if c.toNat ≤ 0xffff then '\\' :: 'u' :: hex 4 c.toNat
  else '\\' :: 'U' :: hex 8 c.toNat

/-- A text between its quotes. -/
def encode (cs : List Char) : List Char :=
  let q := quoteFor cs
  q :: (cs.flatMap (escape q) ++ [q])

end Quoted

def quoted (s : String) : String := String.ofList (Quoted.encode s.toList)

def quotedChar (c : Char) : String := String.ofList (Quoted.encode [c])

end ResponsiveImage.Text
