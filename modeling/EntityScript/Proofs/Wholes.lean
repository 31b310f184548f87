import EntityScript.Decimal.Binary32
import Mathlib.Data.Rat.Floor

/-! Script numbers as whole numbers. A finite number stands for a fraction, its sign times its mantissa times a
power of two. What is behind its point goes, on either side of zero, and the rest is held between bounds. -/

namespace EntityScript.Binary32

def ratio (negative : Bool) (mantissa : Nat) (exponent : Int) : ℚ :=
  (if negative then -1 else 1) * (mantissa * 2 ^ exponent)

def towardZero (q : ℚ) : Int := if 0 ≤ q then ⌊q⌋ else ⌈q⌉

/-- The number without what is behind its point, if that is between the bounds, and else the bound that it is
beyond. -/
def wholeWithin (lowest highest : Int) (x : Float32) : Int :=
  match read x with
  | .nan => 0
  | .infinite negative => if negative then lowest else highest
  | .finite negative mantissa exponent =>
    max lowest (min highest (towardZero (ratio negative mantissa exponent)))

theorem towardZero_neg (q : ℚ) : towardZero (-q) = -towardZero q := by
  unfold towardZero
  rcases lt_trichotomy q 0 with hq | rfl | hq
  · rw [if_pos (by linarith), if_neg (by linarith), Int.floor_neg]
  · simp
  · rw [if_neg (by linarith), if_pos hq.le, Int.ceil_neg]

theorem pow2_div_pow2 (k : Int) : (pow2 k : ℚ) / pow2 (-k) = 2 ^ k := by
  unfold pow2
  rcases Int.eq_nat_or_neg k with ⟨n, rfl | rfl⟩
  · simp
  · simp

theorem towardZero_size (mantissa : Nat) (k : Int) :
    towardZero (mantissa * 2 ^ k) = (mantissa * pow2 k / pow2 (-k) : Nat) := by
  have hfraction : (mantissa : ℚ) * 2 ^ k = ((mantissa * pow2 k : Nat) : ℚ) / (pow2 (-k) : Nat) := by
    rw [← pow2_div_pow2, Nat.cast_mul, mul_div_assoc]
  have hsize : 0 ≤ (mantissa : ℚ) * 2 ^ k := mul_nonneg (Nat.cast_nonneg _) (zpow_nonneg zero_le_two k)
  rw [towardZero, if_pos hsize, hfraction, Rat.floor_natCast_div_natCast, Int.natCast_ediv]

theorem truncate_eq_wholeWithin (lowest highest : Int) (x : Float32) :
    truncate lowest highest x = wholeWithin lowest highest x := by
  unfold truncate wholeWithin
  cases read x with
  | nan | infinite negative => rfl
  | finite negative mantissa exponent =>
    dsimp only
    rw [ratio, ← towardZero_size]
    cases negative with
    | true => rw [if_pos rfl, if_pos rfl, neg_one_mul, towardZero_neg]
    | false => rw [if_neg Bool.false_ne_true, if_neg Bool.false_ne_true, one_mul]

theorem toInt64_eq (x : Float32) : toInt64 x = wholeWithin (-2 ^ 63) (2 ^ 63 - 1) x :=
  truncate_eq_wholeWithin ..

theorem toUnsigned_eq (width : Nat) (x : Float32) :
    toUnsigned width x = (wholeWithin 0 (2 ^ width - 1) x).toNat := by
  rw [toUnsigned, truncate_eq_wholeWithin, pow2]
  simp

end EntityScript.Binary32
