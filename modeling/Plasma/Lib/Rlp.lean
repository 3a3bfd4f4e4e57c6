import Plasma.Lib.Bytes

/-!
# Recursive length encoding

The encoding of byte strings and of lists of byte strings: a string of one
small byte stands for itself, other payloads carry a header with their length,
and a length from 56 on is itself written in a minimal number of bytes.
-/

namespace Plasma.Lib.Rlp

/-- The number of bytes of a number without leading zeros. -/
def byteWidth (value : Nat) : Nat :=
  if value = 0 then 0 else Nat.log 256 value + 1

theorem lt_pow_byteWidth (value : Nat) : value < 256 ^ byteWidth value := by
  rw [byteWidth]
  split
  · next zero => simp [zero]
  · exact Nat.lt_pow_succ_log_self (by decide) value

theorem byteWidth_le {value width : Nat} (fits : value < 256 ^ width) :
    byteWidth value ≤ width := by
  rw [byteWidth]
  split
  · exact Nat.zero_le _
  · next positive => exact Nat.log_lt_of_lt_pow positive fits

theorem byteWidth_pos {value : Nat} (positive : value ≠ 0) :
    1 ≤ byteWidth value := by
  rw [byteWidth, if_neg positive]
  exact Nat.le_add_left 1 _

/-- A number without leading zeros. -/
def minimalBytes (value : Nat) : List UInt8 :=
  bigEndian (byteWidth value) value

@[simp] theorem length_minimalBytes (value : Nat) :
    (minimalBytes value).length = byteWidth value :=
  length_bigEndian _ _

@[simp] theorem fromBigEndian_minimalBytes (value : Nat) :
    fromBigEndian (minimalBytes value) = value :=
  fromBigEndian_bigEndian (lt_pow_byteWidth value)

/-- The header of a payload; strings use 128 and lists 192 as the base. -/
def header (base length : Nat) : List UInt8 :=
  if length < 56 then [UInt8.ofNat (base + length)]
  else UInt8.ofNat (base + 55 + byteWidth length) :: minimalBytes length

def encodeString (payload : List UInt8) : List UInt8 :=
  match payload with
  | [byte] => if byte.toNat < 128 then [byte] else header 128 1 ++ [byte]
  | _ => header 128 payload.length ++ payload

def encodeNat (value : Nat) : List UInt8 :=
  encodeString (minimalBytes value)

def encodeList (items : List (List UInt8)) : List UInt8 :=
  header 192 items.flatten.length ++ items.flatten

/-- A string encoding is a single small byte or a header and the payload. -/
theorem encodeString_cases (payload : List UInt8) :
    (∃ byte : UInt8, payload = [byte] ∧ byte.toNat < 128 ∧
        encodeString payload = [byte]) ∨
      encodeString payload = header 128 payload.length ++ payload := by
  unfold encodeString
  split
  · next byte =>
      split
      · next small => exact .inl ⟨byte, rfl, small, rfl⟩
      · exact .inr rfl
  · exact .inr rfl

theorem header_ne_nil (base length : Nat) : header base length ≠ [] := by
  rw [header]
  split <;> simp

theorem encodeString_ne_nil (payload : List UInt8) :
    encodeString payload ≠ [] := by
  rcases encodeString_cases payload with ⟨byte, _, _, single⟩ | headed
  · simp [single]
  · simp [headed, header_ne_nil]

end Plasma.Lib.Rlp
