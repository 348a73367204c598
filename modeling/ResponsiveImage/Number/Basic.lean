import ResponsiveImage.Number.Decimal

/-!
# Numbers in options

Where an option is a number, an integer, a floating-point number or a truth value may be given. They
compare by their exact values, and each keeps its own spelling.
-/

namespace ResponsiveImage

inductive Number where
  | int (n : Int)
  | float (x : Binary64)
  /-- A truth value, which counts as zero or one. -/
  | flag (b : Bool)
deriving DecidableEq, Repr

/-- Why an operation on numbers has no result. -/
inductive ArithmeticError where
  /-- A division of integers by zero. -/
  | integerDivision
  /-- A division of floating-point numbers by zero. -/
  | floatDivision
  /-- An integer that is too large for a floating-point number, or an infinite one that should be an
  integer. -/
  | overflow
  /-- A NaN that should be an integer. -/
  | notANumber
deriving DecidableEq, Repr

def ArithmeticError.message : ArithmeticError → String
  | .integerDivision => "division by zero"
  | .floatDivision => "float division by zero"
  | .overflow => "cannot convert float infinity to integer"
  | .notANumber => "cannot convert float NaN to integer"

/-- The exact value of a number on the extended line. -/
inductive Extended where
  | below
  | ratio (num : Int) (den : Nat)
  | above
  | undefined
deriving DecidableEq, Repr

namespace Extended

def compare? : Extended → Extended → Option Ordering
  | undefined, _ | _, undefined => none
  | below, below | above, above => some .eq
  | below, _ | _, above => some .lt
  | above, _ | _, below => some .gt
  | ratio a b, ratio c d => some (compare (a * d) (c * b))

end Extended

def Binary64.extended : Binary64 → Extended
  | .finite negative m e =>
    let (num, den) := ratio m e
    .ratio (if negative then -(num : Int) else num) den
  | .infinite negative => if negative then .below else .above
  | .nan => .undefined

namespace Number

instance : OfNat Number n := ⟨.int n⟩

def extended : Number → Extended
  | .int n => .ratio n 1
  | .float x => x.extended
  | .flag b => .ratio b.toNat 1

/-- How two numbers compare; a NaN compares with none. -/
def compare? (a b : Number) : Option Ordering := a.extended.compare? b.extended

def lt (a b : Number) : Bool := a.compare? b == some .lt

def le (a b : Number) : Bool := a.compare? b == some .lt || a.compare? b == some .eq

def eq (a b : Number) : Bool := a.compare? b == some .eq

def text : Number → String
  | .int n => toString n
  | .float x => x.text
  | .flag b => if b then "True" else "False"

/-- The integer that an integer or a truth value is. -/
def whole? : Number → Option Int
  | .int n => some n
  | .float _ => none
  | .flag b => some b.toNat

/-- The floating-point number nearest to a number. -/
def toFloat : Number → Except ArithmeticError Binary64
  | .int n =>
    match Binary64.ofInt n with
    | .infinite _ => .error .overflow
    | x => .ok x
  | .float x => .ok x
  | .flag b => .ok (.ofInt b.toNat)

/-- A number without its fraction. -/
def toInt : Number → Except ArithmeticError Int
  | .int n => .ok n
  | .flag b => .ok b.toNat
  | .float x =>
    match x, x.truncate? with
    | _, some n => .ok n
    | .nan, none => .error .notANumber
    | _, none => .error .overflow

/-- The least of some numbers: the first that no later one is below. -/
def least (first : Number) (rest : List Number) : Number :=
  rest.foldl (fun m n ↦ if n.lt m then n else m) first

end Number

/-- The integer nearest to a floating-point number, and on a tie the even one. -/
def Binary64.round (x : Binary64) : Except ArithmeticError Int :=
  match x, x.round? with
  | _, some n => .ok n
  | .nan, none => .error .notANumber
  | _, none => .error .overflow

/-- A quotient of floating-point numbers. -/
def Binary64.divide (x y : Binary64) : Except ArithmeticError Binary64 :=
  if y.isZero then .error .floatDivision else .ok (x.div y)

/-- A quotient of numbers. That of two integers is rounded once, from its exact value. -/
def Number.divide (a b : Number) : Except ArithmeticError Binary64 :=
  match a.whole?, b.whole? with
  | some m, some n =>
    if n = 0 then .error .integerDivision
    else
      match Binary64.ofRatio ((m < 0) != (n < 0)) m.natAbs n.natAbs with
      | .infinite _ => .error .overflow
      | x => .ok x
  | _, _ => do (← a.toFloat).divide (← b.toFloat)

end ResponsiveImage
