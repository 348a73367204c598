/-!
# Binary floating-point numbers

Numbers of the 64-bit binary format, as exact values: an operation computes its exact result, a
quotient of naturals, and rounds it once, to the nearest number and on a tie to the even one.
-/

namespace ResponsiveImage

/-- The quotient of two naturals, rounded to the nearest, and on a tie to the even one. -/
def roundDiv (num den : Nat) : Nat :=
  let q := num / den
  let twice := 2 * (num % den)
  if twice < den then q
  else if den < twice then q + 1
  else if q % 2 = 0 then q else q + 1

/-- `2 ^ e` as a numerator and a denominator. -/
def powerOfTwo (e : Int) : Nat × Nat := (Nat.pow 2 e.toNat, Nat.pow 2 (-e).toNat)

inductive Binary64 where
  /-- The number `mantissa * 2 ^ exponent`, or its negative. -/
  | finite (negative : Bool) (mantissa : Nat) (exponent : Int)
  | infinite (negative : Bool)
  | nan
deriving DecidableEq, Repr

namespace Binary64

/-- The least exponent: numbers below its range lose precision. -/
def minExponent : Int := -1074

/-- The greatest exponent: numbers above its range are infinite. -/
def maxExponent : Int := 971

def zero (negative : Bool) : Binary64 := .finite negative 0 minExponent

/-- The exponent with which a positive quotient has a mantissa of 53 bits, if it is in range. -/
def exponentOf (num den : Nat) : Int :=
  let estimate : Int := (num.log2 : Int) - den.log2
  let (up, down) := powerOfTwo estimate
  let exact := if den * up ≤ num * down then estimate else estimate - 1
  max (exact - 52) minExponent

/-- The number nearest to a quotient. -/
def ofRatio (negative : Bool) (num den : Nat) : Binary64 :=
  if num = 0 then zero negative
  else
    let e := exponentOf num den
    let (up, down) := powerOfTwo e
    let m := roundDiv (num * down) (den * up)
    let (m, e) := if m = Nat.pow 2 53 then (Nat.pow 2 52, e + 1) else (m, e)
    if maxExponent < e then .infinite negative else .finite negative m e

def ofInt (n : Int) : Binary64 := ofRatio (n < 0) n.natAbs 1

/-- The number nearest to `digits * 10 ^ exponent`. -/
def ofDecimal (negative : Bool) (digits : Nat) (exponent : Int) : Binary64 :=
  let places := (Nat.toDigits 10 digits).length
  if digits = 0 || exponent + places < -330 then zero negative
  else if 330 < exponent + places then .infinite negative
  else if exponent < 0 then ofRatio negative digits (Nat.pow 10 (-exponent).toNat)
  else ofRatio negative (digits * Nat.pow 10 exponent.toNat) 1

/-- The exact quotient that a mantissa and an exponent stand for. -/
def ratio (mantissa : Nat) (exponent : Int) : Nat × Nat :=
  let (up, down) := powerOfTwo exponent
  (mantissa * up, down)

def isNegative : Binary64 → Bool
  | .finite negative _ _ => negative
  | .infinite negative => negative
  | .nan => false

def isZero : Binary64 → Bool
  | .finite _ m _ => m == 0
  | _ => false

/-- The product of two numbers. -/
def mul : Binary64 → Binary64 → Binary64
  | .nan, _ | _, .nan => .nan
  | .finite s m e, .finite t n f =>
    let (num, den) := ratio (m * n) (e + f)
    ofRatio (s != t) num den
  | x, y => if x.isZero || y.isZero then .nan else .infinite (x.isNegative != y.isNegative)

/-- The quotient of two numbers, the second of which is not zero. -/
def div : Binary64 → Binary64 → Binary64
  | .nan, _ | _, .nan => .nan
  | .finite s m e, .finite t n f =>
    if n = 0 then .nan
    else
      let (up, down) := powerOfTwo (e - f)
      ofRatio (s != t) (m * up) (n * down)
  | .infinite _, .infinite _ => .nan
  | .infinite s, y => .infinite (s != y.isNegative)
  | x, .infinite t => zero (x.isNegative != t)

/-- The integer that a finite number is, if it is one. -/
def integer? : Binary64 → Option Int
  | .finite s m e =>
    let (num, den) := ratio m e
    if num % den = 0 then some (if s then -(num / den : Nat) else (num / den : Nat)) else none
  | _ => none

/-- A finite number without its fraction. -/
def truncate? : Binary64 → Option Int
  | .finite s m e =>
    let (num, den) := ratio m e
    some (if s then -(num / den : Nat) else (num / den : Nat))
  | _ => none

/-- The integer nearest to a finite number, and on a tie the even one. -/
def round? : Binary64 → Option Int
  | .finite s m e =>
    let (num, den) := ratio m e
    some (if s then -(roundDiv num den : Nat) else (roundDiv num den : Nat))
  | _ => none

end Binary64

end ResponsiveImage
