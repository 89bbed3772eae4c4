import PascalAsm.Proofs.Machine.Basic

/-!
# Division on the machine

The processor divides a 64-bit number by a doubleword. After the sign of the dividend was extended
into the upper half, that is division of integers, truncated toward zero, wherever it is defined.
-/

namespace PascalAsm.Assembly

/-- The upper half of a doubleword whose sign was extended. It is what `cdq` leaves in `%edx`: all
ones or all zeros. -/
def signHalf (a : Int32) : Int32 := if a < 0 then -1 else 0

/-- With its sign extended, a doubleword is the same number. The pair of registers that `idivl`
divides is therefore the dividend itself, not a larger number. -/
theorem toInt_signHalf (a : Int32) :
    (signHalf a).toInt * 2 ^ 32 + a.toUInt32.toNat = a.toInt := by
  have hcond := a.toBitVec.toInt_eq_toNat_cond
  have hlt := a.toBitVec.isLt
  have hneg : a < 0 ↔ a.toBitVec.toInt < 0 := Int32.lt_iff_toInt_lt
  change _ * 2 ^ 32 + (a.toBitVec.toNat : Int) = a.toBitVec.toInt
  rw [signHalf]
  by_cases h : a < 0
  · rw [if_pos h, show (-1 : Int32).toInt = -1 by decide]
    rw [hneg] at h
    -- `hcond` reads the bits as a signed number, and `hneg` says which of its cases this is.
    split at hcond <;> omega
  · rw [if_neg h, show (0 : Int32).toInt = 0 by decide]
    rw [hneg] at h
    split at hcond <;> omega

/-- A quotient of doublewords is a doubleword, but for the one exception. The exception is the least
doubleword divided by minus one, whose quotient is one too large; `Traps` contains it. -/
theorem toInt_div_of_not_traps {a b : Int32} (h : ¬ Traps a b) :
    (a / b).toInt = a.toInt.tdiv b.toInt := by
  by_cases ha : a = Int32.minValue
  · exact Int32.toInt_div_of_ne_right a b fun hb => h (.inr ⟨ha, hb⟩)
  · exact Int32.toInt_div_of_ne_left a b ha

/-- Where it does not trap, a division with extended sign gives the quotient and the remainder. With
`toInt_signHalf` the dividend is `a`, and then quotient and remainder are those of `Int32`. -/
theorem wideDivide_signHalf {a b : Int32} (h : ¬ Traps a b) :
    wideDivide (signHalf a) a b = some (a / b, a % b) := by
  have hb : b ≠ 0 := fun hb => h (.inl hb)
  have hq := toInt_div_of_not_traps h
  have hmin : Int32.minValue.toInt = -2 ^ 31 := by decide
  have hmax : Int32.maxValue.toInt = 2 ^ 31 - 1 := by decide
  have hle := Int32.le_toInt (a / b)
  have hlt := Int32.toInt_lt (a / b)
  -- By `hle` and `hlt` a quotient that is an `Int32` is never out of range.
  have hrange : ¬ (b = 0 ∨ (a / b).toInt < Int32.minValue.toInt ∨
      Int32.maxValue.toInt < (a / b).toInt) := by
    rintro (h' | h' | h')
    · exact hb h'
    · omega
    · omega
  simp only [wideDivide, toInt_signHalf]
  rw [← hq, ← Int32.toInt_mod, if_neg hrange, Int32.ofInt_toInt, Int32.ofInt_toInt]

end PascalAsm.Assembly
