import Mathlib

/-!
# Big-endian byte strings

The packed encoding of a number in a fixed number of bytes and the number a
byte string denotes.
-/

namespace Plasma.Lib

/-- The low bytes of a number, most significant first. -/
def bigEndian : Nat → Nat → List UInt8
  | 0, _ => []
  | width + 1, value => bigEndian width (value / 256) ++ [UInt8.ofNat value]

/-- The number a byte string denotes. -/
def fromBigEndian (bytes : List UInt8) : Nat :=
  bytes.foldl (fun value byte => value * 256 + byte.toNat) 0

@[simp] theorem length_bigEndian (width value : Nat) :
    (bigEndian width value).length = width := by
  induction width generalizing value with
  | zero => rfl
  | succ width induction => simp [bigEndian, induction]

theorem fromBigEndian_append_singleton (bytes : List UInt8) (byte : UInt8) :
    fromBigEndian (bytes ++ [byte]) =
      fromBigEndian bytes * 256 + byte.toNat := by
  simp [fromBigEndian]

theorem fromBigEndian_append (high low : List UInt8) :
    fromBigEndian (high ++ low) =
      fromBigEndian high * 256 ^ low.length + fromBigEndian low := by
  induction low using List.reverseRecOn with
  | nil => simp [fromBigEndian]
  | append_singleton low byte induction =>
      rw [← List.append_assoc, fromBigEndian_append_singleton, induction,
        fromBigEndian_append_singleton, List.length_append,
        List.length_singleton, Nat.pow_succ]
      ring

theorem fromBigEndian_lt (bytes : List UInt8) :
    fromBigEndian bytes < 256 ^ bytes.length := by
  induction bytes using List.reverseRecOn with
  | nil => simp [fromBigEndian]
  | append_singleton bytes byte induction =>
      have small := byte.toNat_lt
      rw [fromBigEndian_append_singleton, List.length_append,
        List.length_singleton, Nat.pow_succ]
      omega

/-- Encoding loses nothing of a number that fits the width. -/
theorem fromBigEndian_bigEndian {width value : Nat}
    (fits : value < 256 ^ width) :
    fromBigEndian (bigEndian width value) = value := by
  induction width generalizing value with
  | zero =>
      have zero : value = 0 := by simpa using fits
      subst zero
      rfl
  | succ width induction =>
      have quotient : value / 256 < 256 ^ width := by
        rw [Nat.div_lt_iff_lt_mul (by omega)]
        simpa [Nat.pow_succ] using fits
      rw [bigEndian, fromBigEndian_append_singleton, induction quotient,
        UInt8.toNat_ofNat']
      omega

theorem bigEndian_injective {width left right : Nat}
    (leftFits : left < 256 ^ width) (rightFits : right < 256 ^ width)
    (same : bigEndian width left = bigEndian width right) : left = right := by
  rw [← fromBigEndian_bigEndian leftFits, ← fromBigEndian_bigEndian rightFits,
    same]

end Plasma.Lib
