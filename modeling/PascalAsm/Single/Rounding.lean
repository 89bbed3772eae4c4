/-!
# Rounding to a binary format

A finite nonnegative number of a binary floating-point format is `mantissa · 2 ^ exponent`. This
module rounds an exact ratio of natural numbers to such a number: to the nearest, a tie to the
even mantissa, and to none when the result lies above the format's range.

* `roundDiv`: a quotient rounded to the nearest integer;
* `floorLog2`: the binary order of magnitude of a ratio;
* `FloatFormat.round`: a ratio rounded to a format.
-/

namespace PascalAsm

/-- The integer nearest to `num / den`; of two equally near ones the even one. -/
def roundDiv (num den : Nat) : Nat :=
  let q := num / den
  let r := num % den
  if 2 * r < den ∨ (2 * r = den ∧ q % 2 = 0) then q else q + 1

/-- The rounded quotient is at most half a unit away from the quotient. -/
theorem roundDiv_near (num : Nat) {den : Nat} (h : 0 < den) :
    2 * num ≤ (2 * roundDiv num den + 1) * den ∧
      2 * roundDiv num den * den ≤ 2 * num + den := by
  have hd := Nat.div_add_mod num den
  have hr := Nat.mod_lt num h
  unfold roundDiv
  simp only
  generalize num / den = q at *
  generalize num % den = r at *
  have hq : den * q = q * den := Nat.mul_comm _ _
  split <;> simp only [Nat.add_mul, Nat.mul_add, Nat.mul_assoc] <;> omega

/-- The greatest `k` with `2 ^ k ≤ num / den`, for a positive ratio. -/
def floorLog2 (num den : Nat) : Int :=
  let k : Int := num.log2 - den.log2
  if num <<< (-k).toNat < den <<< k.toNat then k - 1 else k

/-- The number `mantissa · 2 ^ exponent`. -/
structure Dyadic where
  mantissa : Nat
  exponent : Int
deriving DecidableEq

namespace Dyadic

/-- The number as a ratio: its numerator. -/
def num (d : Dyadic) : Nat := d.mantissa <<< d.exponent.toNat

/-- The number as a ratio: its denominator. -/
def den (d : Dyadic) : Nat := 1 <<< (-d.exponent).toNat

/-- The integral part. -/
def floor (d : Dyadic) : Nat := d.num / d.den

end Dyadic

/-- A binary floating-point format. -/
structure FloatFormat where
  /-- The number of bits in a mantissa. -/
  precision : Nat
  /-- The exponent of the smallest numbers. -/
  minExponent : Int
  /-- The exponent of the largest numbers. -/
  maxExponent : Int

namespace FloatFormat

/-- Single precision: 32 bits. -/
def single : FloatFormat := ⟨24, -149, 104⟩

/-- Double precision: 64 bits. -/
def double : FloatFormat := ⟨53, -1074, 971⟩

/-- The place value of the leading bit of a full mantissa. -/
def leadingBit (f : FloatFormat) : Nat := 1 <<< (f.precision - 1)

/-- The number of the format that is nearest to `num / den`, a tie going to the even mantissa, or
none if that lies above the format's range. The mantissa is as long as the precision allows, so
each number is given in one way only. -/
def round (f : FloatFormat) (num den : Nat) : Option Dyadic :=
  if num = 0 then some ⟨0, f.minExponent⟩
  else
    let e := max f.minExponent (floorLog2 num den - (f.precision - 1))
    let m := roundDiv (num <<< (-e).toNat) (den <<< e.toNat)
    -- rounding up may need one bit more than the precision allows
    let d : Dyadic := if m = 1 <<< f.precision then ⟨f.leadingBit, e + 1⟩ else ⟨m, e⟩
    if d.exponent ≤ f.maxExponent then some d else none

end FloatFormat

end PascalAsm
