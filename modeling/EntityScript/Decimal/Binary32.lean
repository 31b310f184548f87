/-!
Script numbers are binary32 floating point numbers. This module reads the bits of one as a sign, a
mantissa and a power of two, and goes the other way by rounding an exact fraction to the nearest
number, a tie to the even mantissa. Whole numbers and decimals are rounded through the same
function, so every conversion is exact up to that one rounding.
-/

namespace EntityScript.Binary32

/-- What a number stands for; a finite one is `mantissa · 2 ^ exponent` under its sign. -/
inductive Reading
  | nan
  | infinite (negative : Bool)
  | finite (negative : Bool) (mantissa : Nat) (exponent : Int)

/-- The positive power of two in `2 ^ k`, whose counterpart is `pow2 (-k)`. -/
def pow2 (k : Int) : Nat := Nat.pow 2 k.toNat

/-- The positive power of ten in `10 ^ k`, whose counterpart is `pow10 (-k)`. -/
def pow10 (k : Int) : Nat := Nat.pow 10 k.toNat

def lowestExponent : Int := -149

def read (x : Float32) : Reading :=
  let bits := x.toBits.toNat
  let negative := pow2 31 ≤ bits
  let exponent : Nat := bits / pow2 23 % 256
  let fraction : Nat := bits % pow2 23
  if exponent = 255 then if fraction = 0 then .infinite negative else .nan
  else if exponent = 0 then .finite negative fraction lowestExponent
  else .finite negative (pow2 23 + fraction) ((exponent : Int) - 150)

/-- The number with this sign whose bits, read as a whole number, are `magnitude`; from the bits
of infinity on it is infinity. -/
def ofMagnitude (negative : Bool) (magnitude : Nat) : Float32 :=
  let magnitude := min magnitude (255 * pow2 23)
  Float32.ofBits (UInt32.ofNat (if negative then pow2 31 + magnitude else magnitude))

/-- The exponent that gives `numerator / denominator` a mantissa of 24 bits, or the lowest one. -/
def exponentOf (numerator denominator : Nat) : Int :=
  let top : Int := numerator.log2 - denominator.log2
  let small := numerator * pow2 (-top) < denominator * pow2 top
  max lowestExponent (if small then top - 24 else top - 23)

/-- The quotient rounded to the nearest whole number, a tie to the even one. -/
def roundDiv (numerator denominator : Nat) : Nat :=
  let quotient := numerator / denominator
  let remainder := numerator % denominator
  if denominator < 2 * remainder ∨ (denominator = 2 * remainder ∧ quotient % 2 = 1) then quotient + 1
  else quotient

/-- The number nearest to `numerator / denominator`. A mantissa that rounds up to 25 bits carries
into the exponent, which is the next number. -/
def nearest (negative : Bool) (numerator denominator : Nat) : Float32 :=
  if numerator = 0 then ofMagnitude negative 0
  else
    let k := exponentOf numerator denominator
    let mantissa := roundDiv (numerator * pow2 (-k)) (denominator * pow2 k)
    ofMagnitude negative ((k - lowestExponent).toNat * pow2 23 + mantissa)

def ofInt (n : Int) : Float32 := nearest (n < 0) n.natAbs 1

/-- The number nearest to `digits · 10 ^ exponent`. Decimals beyond all numbers, on either side,
are decided by their length alone. -/
def ofDecimal (negative : Bool) (digits : Nat) (exponent : Int) : Float32 :=
  let top := exponent + (Nat.toDigits 10 digits).length
  if digits = 0 ∨ top < -60 then ofMagnitude negative 0
  else if 60 < top then ofMagnitude negative (255 * pow2 23)
  else nearest negative (digits * pow10 exponent) (pow10 (-exponent))

/-- The number rounded toward zero and held between `lowest` and `highest`; not-a-number is 0. -/
def truncate (lowest highest : Int) (x : Float32) : Int :=
  match read x with
  | .nan => 0
  | .infinite negative => if negative then lowest else highest
  | .finite negative mantissa exponent =>
    let size : Int := (mantissa * pow2 exponent / pow2 (-exponent) : Nat)
    max lowest (min highest (if negative then -size else size))

def toInt64 (x : Float32) : Int := truncate (-pow2 63) (pow2 63 - 1) x

def toUnsigned (width : Nat) (x : Float32) : Nat := (truncate 0 (pow2 width - 1) x).toNat

end EntityScript.Binary32
