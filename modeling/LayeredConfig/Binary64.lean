/-!
# Binary floating point numbers

Numbers of the IEEE 754 format binary64, kept as exact integers: a finite number is `significand * 2
^ exponent`. `Binary64.ofDecimal` rounds a decimal number to the nearest one, and to the even
significand where two are equally near.
-/

namespace LayeredConfig

/-- A binary64 number. A finite one has a significand below `2 ^ 53` and an exponent from `-1074`
up, and a significand from `2 ^ 52` up unless its exponent is `-1074`. -/
inductive Binary64
  | nan
  | infinite (negative : Bool)
  | finite (negative : Bool) (significand : Nat) (exponent : Int)
  deriving DecidableEq, Inhabited

namespace Binary64

/-- The least exponent. -/
def minExponent : Int := -1074

/-- The greatest exponent. -/
def maxExponent : Int := 971

/-- The same number: zeros of both signs are the same, and a NaN is the same as a NaN. -/
def same : Binary64 → Binary64 → Bool
  | .finite _ 0 _, .finite _ 0 _ => true
  | x, y => decide (x = y)

/-- Whether a number is finite. -/
def isFinite : Binary64 → Bool
  | .finite .. => true
  | _ => false

/-- `num / den` to the nearest integer; a tie goes to the even one. -/
def roundDiv (num den : Nat) : Nat :=
  let q := num / den
  let r := num % den
  if 2 * r < den then q
  else if den < 2 * r then q + 1
  else if q % 2 = 0 then q else q + 1

/-- The nearest number to `num / den`, for a positive quotient. -/
def ofRatio (negative : Bool) (num den : Nat) : Binary64 :=
  let scaled (e : Int) : Nat × Nat :=
    if 0 ≤ e then (num, den * Nat.pow 2 e.toNat) else (num * Nat.pow 2 (-e).toNat, den)
  let guess : Int := (num.log2 : Int) - den.log2 - 52
  let exact := if (scaled guess).1 < (scaled guess).2 * Nat.pow 2 52 then guess - 1 else guess
  let e := max exact minExponent
  let m := roundDiv (scaled e).1 (scaled e).2
  let (m, e) := if m = Nat.pow 2 53 then (Nat.pow 2 52, e + 1) else (m, e)
  if maxExponent < e then .infinite negative
  else if m = 0 then .finite negative 0 minExponent
  else .finite negative m e

/-- The nearest number to `digits * 10 ^ exponent`. The two early answers are those of numbers that
lie far beyond the greatest and far below the least positive number. -/
def ofDecimal (negative : Bool) (digits : Nat) (exponent : Int) : Binary64 :=
  if digits = 0 then .finite negative 0 minExponent
  else if 400 < exponent then .infinite negative
  else if exponent + (digits.log2 : Int) < -1200 then .finite negative 0 minExponent
  else if 0 ≤ exponent then ofRatio negative (digits * Nat.pow 10 exponent.toNat) 1
  else ofRatio negative digits (Nat.pow 10 (-exponent).toNat)

theorem same_refl (x : Binary64) : x.same x = true := by
  unfold same
  split <;> simp_all

end Binary64

end LayeredConfig
