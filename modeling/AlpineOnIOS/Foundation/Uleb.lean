import Mathlib.Data.Nat.Init
import Mathlib.Tactic.Common

/-!
# Unsigned LEB128 numbers

The code of a number is its list of base-128 digits, least significant digit first, with the high
bit set on every digit but the last.  Decoding inverts encoding in front of any further bytes, and
the code length is monotone in the number.
-/

namespace Foundation
namespace Uleb

/-- Digits of a number, at most `fuel` of them marked as continued. -/
def encodeFuel : Nat → Nat → List UInt8
  | 0, value => [UInt8.ofNat (value % 128)]
  | fuel + 1, value =>
    if value / 128 = 0 then
      [UInt8.ofNat (value % 128)]
    else
      UInt8.ofNat (value % 128 + 128) :: encodeFuel fuel (value / 128)

/-- The unsigned LEB128 code of a number. -/
def encode (value : Nat) : List UInt8 := encodeFuel value value

def size (value : Nat) : Nat := (encode value).length

/-- Read one code and return the bytes behind it. -/
def decode : List UInt8 → Option (Nat × List UInt8)
  | [] => none
  | byte :: rest =>
    if byte.toNat < 128 then
      some (byte.toNat, rest)
    else
      (decode rest).map fun parsed => (byte.toNat - 128 + 128 * parsed.1, parsed.2)

theorem encodeFuel_congr (left right value : Nat) (leftEnough : value ≤ left)
    (rightEnough : value ≤ right) : encodeFuel left value = encodeFuel right value := by
  induction left generalizing right value with
  | zero =>
    obtain rfl : value = 0 := by omega
    cases right <;> rfl
  | succ left induction =>
    cases right with
    | zero =>
      obtain rfl : value = 0 := by omega
      rfl
    | succ right =>
      simp only [encodeFuel]
      split
      · rfl
      · rw [induction right (value / 128) (by omega) (by omega)]

variable {value : Nat}

theorem encode_of_lt (short : value < 128) : encode value = [UInt8.ofNat value] := by
  cases value with
  | zero => rfl
  | succ =>
    simp only [encode, encodeFuel]
    rw [if_pos (by omega), Nat.mod_eq_of_lt short]

theorem encode_of_le (long : 128 ≤ value) :
    encode value = UInt8.ofNat (value % 128 + 128) :: encode (value / 128) := by
  cases value with
  | zero => omega
  | succ value =>
    rw [encode, encodeFuel, if_neg (by omega), encodeFuel_congr value _ _ (by omega) (Nat.le_refl _), ← encode]

theorem decode_encode_append (value : Nat) (rest : List UInt8) :
    decode (encode value ++ rest) = some (value, rest) := by
  induction value using Nat.strongRecOn with
  | ind value induction =>
    by_cases short : value < 128
    · have digit : (UInt8.ofNat value).toNat = value := by
        rw [UInt8.toNat_ofNat']
        omega
      rw [encode_of_lt short, List.singleton_append, decode, digit, if_pos short]
    have long : 128 ≤ value := Nat.le_of_not_lt short
    have digit : (UInt8.ofNat (value % 128 + 128)).toNat = value % 128 + 128 := by
      rw [UInt8.toNat_ofNat']
      omega
    rw [encode_of_le long, List.cons_append, decode, digit, if_neg (by omega),
      induction (value / 128) (by omega)]
    simp only [Option.map_some, Option.some.injEq, Prod.mk.injEq, and_true]
    omega

theorem size_pos (value : Nat) : 0 < size value :=
  List.length_pos_iff.mpr (by
      by_cases short : value < 128
      · simp [encode_of_lt short]
      · simp [encode_of_le (Nat.le_of_not_lt short)])

theorem size_of_lt (short : value < 128) : size value = 1 := by
  simp [size, encode_of_lt short]

theorem size_of_le (long : 128 ≤ value) : size value = size (value / 128) + 1 := by
  simp [size, encode_of_le long]

theorem size_mono {left right : Nat} (le : left ≤ right) : size left ≤ size right := by
  induction right using Nat.strongRecOn generalizing left with
  | ind right induction =>
    by_cases short : left < 128
    · rw [size_of_lt short]
      exact size_pos right
    have leftLong : 128 ≤ left := Nat.le_of_not_lt short
    have rightLong : 128 ≤ right := Nat.le_trans leftLong le
    rw [size_of_le leftLong, size_of_le rightLong]
    exact Nat.succ_le_succ (induction (right / 128) (by omega) (Nat.div_le_div_right le))

end Uleb
end Foundation
