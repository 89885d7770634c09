import Mathlib.Data.Nat.Bitwise

/-!
# Rounding 64-bit addresses to a power of two

Rounding is written with masks, as low-level code does, and read back as division: clearing the
low bits is rounding down, and rounding up may wrap around at the end of the address range.
-/

namespace Foundation

/-- Clear the bits of `word` below the power of two `unit`. -/
def alignDown (word unit : UInt64) : UInt64 := word &&& ~~~(unit - 1)

/-- Round `word` up to the power of two `unit`, modulo `2 ^ 64`. -/
def alignUp (word unit : UInt64) : UInt64 := (word + unit - 1) &&& ~~~(unit - 1)

variable {bits : Nat}

theorem and_compl_low_bits {number : Nat} (small : number < 2 ^ 64) :
    number &&& (2 ^ 64 - (2 ^ bits - 1 + 1)) = number / 2 ^ bits * 2 ^ bits := by
  apply Nat.eq_of_testBit_eq
  intro index
  by_cases wide : bits ≤ 64
  · have maskSmall : 2 ^ bits - 1 < 2 ^ 64 :=
      Nat.lt_of_lt_of_le (Nat.sub_lt (Nat.two_pow_pos bits) Nat.one_pos)
        (Nat.pow_le_pow_right (by decide) wide)
    rw [Nat.testBit_and, Nat.testBit_two_pow_sub_succ maskSmall, Nat.testBit_two_pow_sub_one,
      Nat.testBit_mul_two_pow, Nat.testBit_div_two_pow]
    by_cases low : index < bits
    · simp [low, Nat.not_le.mpr low]
    have high : bits ≤ index := Nat.le_of_not_lt low
    rw [show index - bits + bits = index by omega]
    by_cases inside : index < 64
    · simp [low, high, inside]
    have clear : number.testBit index = false :=
      Nat.testBit_lt_two_pow (Nat.lt_of_lt_of_le small
        (Nat.pow_le_pow_right (by decide) (Nat.le_of_not_lt inside)))
    simp [clear]
  · have large : 2 ^ 64 ≤ 2 ^ bits := Nat.pow_le_pow_right (by decide) (by omega)
    rw [Nat.div_eq_of_lt (Nat.lt_of_lt_of_le small large)]
    rw [show 2 ^ 64 - (2 ^ bits - 1 + 1) = 0 by omega]
    simp

variable {word unit : UInt64}

theorem toNat_and_compl (power : unit.toNat = 2 ^ bits) :
    (word &&& ~~~(unit - 1)).toNat = word.toNat / unit.toNat * unit.toNat := by
  have unitPos : 0 < unit.toNat := by
    rw [power]
    exact Nat.two_pow_pos bits
  have one : (1 : UInt64) ≤ unit := by
    rw [UInt64.le_iff_toNat_le]
    exact unitPos
  have mask : (~~~(unit - 1)).toNat = 2 ^ 64 - (2 ^ bits - 1 + 1) := by
    rw [UInt64.toNat_not, UInt64.toNat_sub_of_le _ _ one, power]
    change 2 ^ 64 - 1 - (2 ^ bits - 1) = _
    omega
  rw [UInt64.toNat_and, mask, power, and_compl_low_bits word.toNat_lt]

theorem toNat_alignDown (power : unit.toNat = 2 ^ bits) :
    (alignDown word unit).toNat = word.toNat / unit.toNat * unit.toNat :=
  toNat_and_compl power

theorem toNat_alignUp (power : unit.toNat = 2 ^ bits) :
    (alignUp word unit).toNat =
      (word.toNat + (unit.toNat - 1)) % 2 ^ 64 / unit.toNat * unit.toNat := by
  have unitPos : 0 < unit.toNat := by
    rw [power]
    exact Nat.two_pow_pos bits
  rw [alignUp, toNat_and_compl power]
  congr 2
  rw [UInt64.toNat_sub, UInt64.toNat_add]
  change (2 ^ 64 - 1 + (word.toNat + unit.toNat) % 2 ^ 64) % 2 ^ 64 = _
  omega

end Foundation
