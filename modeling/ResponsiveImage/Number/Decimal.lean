import ResponsiveImage.Number.Binary64

/-!
# Decimal text of a number

A floating-point number is written with the fewest digits that read back as the same number, and
among those with the digits nearest to it.
-/

namespace ResponsiveImage

/-- The decimal `digits * 10 ^ exponent`. -/
structure Decimal where
  digits : Nat
  exponent : Int
deriving DecidableEq, Repr

namespace Decimal

/-- `10 ^ e` as a numerator and a denominator. -/
def powerOfTen (e : Int) : Nat × Nat := (Nat.pow 10 e.toNat, Nat.pow 10 (-e).toNat)

/-- The exponent of the leading digit of a positive quotient. -/
def leadingExponent (num den : Nat) : Int :=
  let estimate : Int :=
    ((Nat.toDigits 10 num).length : Int) - (Nat.toDigits 10 den).length
  let (up, down) := powerOfTen estimate
  if den * up ≤ num * down then estimate else estimate - 1

/-- The numbers that round to `mantissa * 2 ^ exponent`, from `low` to `high` in quarters of the last
bit; the ends are among them iff the mantissa is even. -/
structure Interval where
  low : Nat
  high : Nat
  exponent : Int
  closed : Bool
deriving DecidableEq, Repr

def Interval.around (mantissa : Nat) (exponent : Int) : Interval :=
  let narrow := mantissa == Nat.pow 2 52 && Binary64.minExponent < exponent
  ⟨4 * mantissa - (if narrow then 1 else 2), 4 * mantissa + 2, exponent - 2, mantissa % 2 == 0⟩

/-- Whether `digits * 10 ^ place` lies in an interval. -/
def Interval.holds (i : Interval) (digits : Nat) (place : Int) : Bool :=
  let (up, down) := powerOfTen place
  let (two, half) := powerOfTwo i.exponent
  let x := digits * up * half
  let low := i.low * two * down
  let high := i.high * two * down
  if i.closed then low ≤ x && x ≤ high else low < x && x < high

/-- The nearest decimal of `count` digits that reads back, if any does: one of the two neighbours of
the number among the decimals of that many digits. -/
def ofCount? (num den : Nat) (i : Interval) (lead : Int) (count : Nat) : Option Decimal :=
  let place := lead - count + 1
  let (up, down) := powerOfTen place
  let below := num * down / (den * up)
  let nearest := roundDiv (num * down) (den * up)
  let other := if nearest = below then below + 1 else below
  if i.holds nearest place then some ⟨nearest, place⟩
  else if i.holds other place then some ⟨other, place⟩
  else none

/-- A decimal without up to so many zeros at its end. -/
def trimZeros : Nat → Decimal → Decimal
  | 0, d => d
  | fuel + 1, d =>
    if d.digits % 10 = 0 && d.digits != 0 then trimZeros fuel ⟨d.digits / 10, d.exponent + 1⟩ else d

/-- The shortest decimal that reads back as `mantissa * 2 ^ exponent`. -/
def shortest (mantissa : Nat) (exponent : Int) : Decimal :=
  let (num, den) := Binary64.ratio mantissa exponent
  let i := Interval.around mantissa exponent
  let lead := leadingExponent num den
  let found := (List.range 17).findSome? fun n ↦ ofCount? num den i lead (n + 1)
  trimZeros 20 (found.getD ⟨0, 0⟩)

end Decimal

/-- How numbers are laid out: between which exponents of the leading digit all digits are written,
and how many digits an exponent has at least. -/
structure NumberLayout where
  leastPositional : Int
  greatestPositional : Int
  exponentDigits : Nat

/-- Numbers from `0.0001` to below `10 ^ 16` are written in full, the others with an exponent of two
digits or more. -/
def numberLayout : NumberLayout := ⟨-4, 15, 2⟩

namespace NumberLayout

/-- Digits with a point after the one of exponent zero, and at least one digit on either side. -/
def positional (digits : List Char) (lead : Int) : List Char :=
  if lead < 0 then '0' :: '.' :: (List.replicate (-lead - 1).toNat '0' ++ digits)
  else
    let whole := lead.toNat + 1
    let padded := digits ++ List.replicate (whole - digits.length) '0'
    let fraction := padded.drop whole
    padded.take whole ++ '.' :: (if fraction.isEmpty then ['0'] else fraction)

def scientific (l : NumberLayout) (digits : List Char) (lead : Int) : List Char :=
  let power := Nat.toDigits 10 lead.natAbs
  let mantissa := match digits with
    | [] => []
    | [d] => [d]
    | d :: ds => d :: '.' :: ds
  mantissa ++ 'e' :: (if lead < 0 then '-' else '+') ::
    (List.replicate (l.exponentDigits - power.length) '0' ++ power)

def decimal (l : NumberLayout) (d : Decimal) : List Char :=
  let digits := Nat.toDigits 10 d.digits
  let lead := d.exponent + digits.length - 1
  if l.leastPositional ≤ lead && lead ≤ l.greatestPositional then positional digits lead
  else l.scientific digits lead

/-- The text of a number. -/
def render (l : NumberLayout) : Binary64 → List Char
  | .nan => "nan".toList
  | .infinite negative => if negative then "-inf".toList else "inf".toList
  | .finite negative m e =>
    let text := if m = 0 then "0.0".toList else l.decimal (.shortest m e)
    if negative then '-' :: text else text

end NumberLayout

def Binary64.text (x : Binary64) : String := String.ofList (numberLayout.render x)

end ResponsiveImage
