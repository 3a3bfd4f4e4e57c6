import Mathlib

/-!
# Machine views of arbitrary-precision integers

Conversions of an unbounded integer to 64-bit words keep the low 64 bits of
its absolute value.  The signed conversion reads these bits in two's
complement and then restores the sign.
-/

namespace Plasma.Lib

/-- The low 64 bits of the absolute value, unsigned. -/
def uint64 (value : Int) : UInt64 :=
  UInt64.ofNat value.natAbs

/-- Two's complement reading of the low 64 bits of a natural number. -/
def signed64 (value : Nat) : Int :=
  if value % 2 ^ 64 < 2 ^ 63 then ((value % 2 ^ 64 : Nat) : Int)
  else ((value % 2 ^ 64 : Nat) : Int) - 2 ^ 64

/-- The signed 64-bit view; negation wraps at the least representable value. -/
def int64 (value : Int) : Int :=
  if 0 ≤ value then signed64 value.natAbs
  else if signed64 value.natAbs = -2 ^ 63 then -2 ^ 63
  else -signed64 value.natAbs

theorem uint64_toNat (value : Int) :
    (uint64 value).toNat = value.natAbs % 2 ^ 64 := by
  simp [uint64]

theorem uint64_eq_iff (left right : Int) :
    uint64 left = uint64 right ↔
      left.natAbs % 2 ^ 64 = right.natAbs % 2 ^ 64 := by
  rw [← UInt64.toNat_inj, uint64_toNat, uint64_toNat]

/-- Non-negative integers with the same unsigned view have the same signed
view. -/
theorem int64_eq_of_uint64_eq {left right : Int} (leftNonneg : 0 ≤ left)
    (rightNonneg : 0 ≤ right) (same : uint64 left = uint64 right) :
    int64 left = int64 right := by
  have low := (uint64_eq_iff left right).mp same
  simp only [int64, leftNonneg, rightNonneg, if_true, signed64, low]

theorem int64_of_small {value : Int} (nonneg : 0 ≤ value)
    (small : value < 2 ^ 63) : int64 value = value := by
  have low : value.natAbs % 2 ^ 64 = value.natAbs := by omega
  have half : value.natAbs < 2 ^ 63 := by omega
  simp only [int64, nonneg, if_true, signed64, low, half]
  omega

/-- The result of signed 64-bit arithmetic. -/
def wrap64 (value : Int) : Int :=
  value.bmod (2 ^ 64)

theorem wrap64_of_small {value : Int} (lower : -2 ^ 63 ≤ value)
    (upper : value < 2 ^ 63) : wrap64 value = value := by
  rw [wrap64, Int.bmod_def]
  split <;> omega

end Plasma.Lib
