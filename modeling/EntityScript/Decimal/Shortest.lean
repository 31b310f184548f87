import EntityScript.Decimal.Binary32

/-!
The shortest decimal of a binary32 number: of the decimals that round to the number, those on the
coarsest grid of powers of ten, and of these the one nearest to the number, the upper one on a tie.
The interval of reals that round to a number ends halfway to its neighbours and contains its ends
exactly when the mantissa is even. All comparisons are between natural numbers.
-/

namespace EntityScript

/-- The decimal `digits · 10 ^ exponent`. -/
structure Decimal where
  digits : Nat
  exponent : Int
deriving DecidableEq, Repr

namespace Decimal

open Binary32 (pow2 pow10)

/-- Where the interval of `mantissa · 2 ^ exponent` begins, in quarters of the last binary place.
The lower neighbour of a power of two is only half as far away. -/
def quartersBelow (mantissa : Nat) (exponent : Int) : Nat :=
  if mantissa = pow2 23 ∧ Binary32.lowestExponent < exponent then 4 * mantissa - 1
  else 4 * mantissa - 2

/-- The multiple of `10 ^ k` nearest to `mantissa · 2 ^ exponent` among those that round to it. -/
def onGrid (mantissa : Nat) (exponent k : Int) : Option Nat :=
  let quarter := pow2 (exponent - 2) * pow10 (-k)
  let step := pow2 (2 - exponent) * pow10 k
  let value := 4 * mantissa * quarter
  let low := quartersBelow mantissa exponent * quarter
  let high := (4 * mantissa + 2) * quarter
  let lower := value / step
  let upper := lower + 1
  let even := mantissa % 2 = 0
  let lowerFits := low < lower * step ∨ (even ∧ low = lower * step)
  let upperFits := upper * step < high ∨ (even ∧ upper * step = high)
  if lowerFits ∧ upperFits then
    some (if 2 * value < (lower + upper) * step then lower else upper)
  else if lowerFits then some lower
  else if upperFits then some upper
  else none

/-- The powers of ten that can be the last place of a shortest decimal, coarsest first. -/
def grids : List Int := (List.range 86).map fun (i : Nat) => 39 - Int.ofNat i

def shortest (mantissa : Nat) (exponent : Int) : Decimal :=
  ((grids.findSome? fun k => (onGrid mantissa exponent k).map (⟨·, k⟩))).getD ⟨0, 0⟩

def positional (d : Decimal) : String :=
  let digits := Nat.toDigits 10 d.digits
  let places := (-d.exponent).toNat
  let whole := digits.take (digits.length - places)
  if places = 0 then String.ofList (digits ++ List.replicate d.exponent.toNat '0')
  else
    let fraction := digits.drop (digits.length - places)
    let zeros := List.replicate (places - digits.length) '0'
    String.ofList ((if whole.isEmpty then ['0'] else whole) ++ '.' :: zeros ++ fraction)

end Decimal

end EntityScript
