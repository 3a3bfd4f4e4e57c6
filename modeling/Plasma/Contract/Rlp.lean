import Plasma.Contract.Evm
import Plasma.Lib.Rlp

/-!
# Reading transactions

`RLP` and `PlasmaRLP` walk over the memory in which the transaction bytes lie.
Pointers are offsets from the first of these bytes.  Nothing stops an item
from reaching over their end, so the memory that follows is part of what is
read; memory that was never written is zero.
-/

namespace Plasma.Contract

open Plasma.Core Plasma.Lib

/-- The word at a pointer. -/
def mload (memory : Bytes) (memPtr : Nat) : Nat :=
  fromBigEndian ((List.range 32).map fun i => memory.getD (memPtr + i) 0)

namespace RLP

structure RLPItem where
  len : Nat
  memPtr : Nat
deriving DecidableEq, Repr

def toRlpItem (item : Bytes) : RLPItem := ⟨item.length, 0⟩

section

variable (memory : Bytes)

def byte0 (memPtr : Nat) : Nat := (memory.getD memPtr 0).toNat

def isList (item : RLPItem) : Bool := !(byte0 memory item.memPtr < 0xc0)

def itemLength (memPtr : Nat) : Nat :=
  let byte0 := byte0 memory memPtr
  if byte0 < 0x80 then 1
  else if byte0 < 0xb8 then byte0 - 0x80 + 1
  else if byte0 < 0xc0 then
    let byteLen := byte0 - 0xb7
    mload memory (memPtr + 1) / 256 ^ (32 - byteLen) + (byteLen + 1)
  else if byte0 < 0xf8 then byte0 - 0xc0 + 1
  else
    let byteLen := byte0 - 0xf7
    mload memory (memPtr + 1) / 256 ^ (32 - byteLen) + (byteLen + 1)

def payloadOffset (memPtr : Nat) : Nat :=
  let byte0 := byte0 memory memPtr
  if byte0 < 0x80 then 0
  else if byte0 < 0xb8 ∨ 0xc0 ≤ byte0 ∧ byte0 < 0xf8 then 1
  else if byte0 < 0xc0 then byte0 - (0xb8 - 1) + 1
  else byte0 - (0xf8 - 1) + 1

/-- Every item has at least one byte, so the number of bytes bounds the number
of rounds. -/
def countItems (endPtr : Nat) : Nat → Nat → Nat
  | 0, _ => 0
  | rounds + 1, currPtr =>
      if currPtr < endPtr then
        countItems endPtr rounds (currPtr + itemLength memory currPtr) + 1
      else 0

def numItems (item : RLPItem) : Nat :=
  countItems memory (item.memPtr + item.len) item.len
    (item.memPtr + payloadOffset memory item.memPtr)

def collectItems : Nat → Nat → List RLPItem
  | 0, _ => []
  | items + 1, memPtr =>
      ⟨itemLength memory memPtr, memPtr⟩ ::
        collectItems items (memPtr + itemLength memory memPtr)

def toList (item : RLPItem) : Option (List RLPItem) :=
  if isList memory item then
    some (collectItems memory (numItems memory item)
      (item.memPtr + payloadOffset memory item.memPtr))
  else none

def toAddress (item : RLPItem) : Option Address :=
  if item.len = 21 then
    some (BitVec.ofNat 160 (mload memory (item.memPtr + 1) / 256 ^ 12))
  else none

/-- The divisor is zero, and with it the quotient, when the payload is empty
or longer than a word. -/
def toUint (item : RLPItem) : Word :=
  let offset := payloadOffset memory item.memPtr
  let len := item.len - offset
  if len = 0 ∨ 32 < len then 0
  else BitVec.ofNat 256
    (mload memory (item.memPtr + offset) / 256 ^ (32 - len))

end

end RLP

/-!
## Items in memory

What the readers return where the memory holds an encoded string.
-/

/-- The bytes lie in the memory at a pointer. -/
def Holds (memory : Bytes) (memPtr : Nat) (bytes : Bytes) : Prop :=
  ∃ rest, memory.drop memPtr = bytes ++ rest

namespace Holds

variable {memory bytes : Bytes} {memPtr : Nat}

theorem getD (held : Holds memory memPtr bytes) {i : Nat}
    (inside : i < bytes.length) :
    memory.getD (memPtr + i) 0 = bytes.getD i 0 := by
  obtain ⟨rest, split⟩ := held
  have read : memory[memPtr + i]? = (bytes ++ rest)[i]? := by
    rw [← split, List.getElem?_drop]
  rw [List.getD_eq_getElem?_getD, read, List.getElem?_append_left inside,
    List.getD_eq_getElem?_getD]

theorem left {first second : Bytes}
    (held : Holds memory memPtr (first ++ second)) :
    Holds memory memPtr first := by
  obtain ⟨rest, split⟩ := held
  exact ⟨second ++ rest, by rw [split, List.append_assoc]⟩

theorem right {first second : Bytes}
    (held : Holds memory memPtr (first ++ second)) :
    Holds memory (memPtr + first.length) second := by
  obtain ⟨rest, split⟩ := held
  refine ⟨rest, ?_⟩
  rw [← List.drop_drop, split, List.append_assoc, List.drop_left]

theorem tail {byte : UInt8} (held : Holds memory memPtr (byte :: bytes)) :
    Holds memory (memPtr + 1) bytes := by
  obtain ⟨rest, split⟩ := held
  refine ⟨rest, ?_⟩
  rw [← List.drop_drop, split]
  rfl

/-- Dividing the word at a pointer leaves the number its first bytes
denote. -/
theorem mload_div (held : Holds memory memPtr bytes)
    (short : bytes.length ≤ 32) :
    mload memory memPtr / 256 ^ (32 - bytes.length) =
      fromBigEndian bytes := by
  have start : ((List.range 32).map fun i =>
      memory.getD (memPtr + i) 0).take bytes.length = bytes := by
    refine List.ext_getElem (by simp [short]) ?_
    intro i _ inside
    have same := held.getD inside
    rw [List.getD_eq_getElem _ _ inside] at same
    simpa using same
  rw [mload, ← List.take_append_drop bytes.length
    ((List.range 32).map fun i => memory.getD (memPtr + i) 0), start,
    fromBigEndian_append, List.length_drop, List.length_map, List.length_range]
  have bound := fromBigEndian_lt (((List.range 32).map fun i =>
      memory.getD (memPtr + i) 0).drop bytes.length)
  rw [List.length_drop, List.length_map, List.length_range] at bound
  rw [Nat.add_comm, Nat.add_mul_div_right _ _ (Nat.pow_pos (by decide)),
    Nat.div_eq_of_lt bound, Nat.zero_add]

end Holds

namespace RLP

open Plasma.Lib.Rlp

variable {memory : Bytes} {memPtr : Nat}

theorem byte0_of_holds {byte : UInt8} {rest : Bytes}
    (held : Holds memory memPtr (byte :: rest)) :
    byte0 memory memPtr = byte.toNat :=
  congrArg UInt8.toNat (held.getD (i := 0) (by simp))

/-- The first byte of a header and, for a long payload, its length. -/
theorem header_read {base length : Nat} (small : base ≤ 192)
    (bound : length < 256 ^ 8)
    (held : Holds memory memPtr (header base length)) :
    (length < 56 ∧ byte0 memory memPtr = base + length ∧
        (header base length).length = 1) ∨
      (1 ≤ byteWidth length ∧ byteWidth length ≤ 8 ∧
        byte0 memory memPtr = base + 55 + byteWidth length ∧
        (header base length).length = 1 + byteWidth length ∧
        mload memory (memPtr + 1) / 256 ^ (32 - byteWidth length) = length) := by
  have width := byteWidth_le bound
  rw [header] at held ⊢
  split at held
  · next short =>
      left
      refine ⟨short, ?_, by simp [short]⟩
      rw [byte0_of_holds held, UInt8.toNat_ofNat']
      omega
  · next long =>
      right
      refine ⟨byteWidth_pos (by omega), width, ?_, ?_, ?_⟩
      · rw [byte0_of_holds held, UInt8.toNat_ofNat']
        omega
      · rw [if_neg long, List.length_cons, length_minimalBytes]
        omega
      · have digits := held.tail
        have value := digits.mload_div (by rw [length_minimalBytes]; omega)
        rwa [length_minimalBytes, fromBigEndian_minimalBytes] at value

theorem itemLength_encodeString {payload : Bytes}
    (bound : payload.length < 256 ^ 8)
    (held : Holds memory memPtr (encodeString payload)) :
    itemLength memory memPtr = (encodeString payload).length := by
  rcases encodeString_cases payload with ⟨byte, _, small, single⟩ | headed
  · rw [single] at held ⊢
    have first := byte0_of_holds held
    simp [itemLength, first, small]
  · rw [headed] at held ⊢
    rcases header_read (by decide) bound held.left with
      ⟨short, first, size⟩ | ⟨least, most, first, size, value⟩
    · rw [List.length_append, size, itemLength, first]
      simp only [show ¬ 128 + payload.length < 0x80 by omega,
        show 128 + payload.length < 0xb8 by omega, if_true, if_false]
      omega
    · have width : 128 + 55 + byteWidth payload.length - 0xb7 =
          byteWidth payload.length := by omega
      rw [List.length_append, size, itemLength, first]
      simp only [width, value,
        show ¬ 128 + 55 + byteWidth payload.length < 0x80 by omega,
        show ¬ 128 + 55 + byteWidth payload.length < 0xb8 by omega,
        show 128 + 55 + byteWidth payload.length < 0xc0 by omega,
        if_true, if_false]
      omega

/-- Decoding the encoding of a number that fits a word gives it back. -/
theorem toUint_encodeString {payload : Bytes} (short : payload.length ≤ 32)
    (held : Holds memory memPtr (encodeString payload)) :
    toUint memory ⟨(encodeString payload).length, memPtr⟩ =
      BitVec.ofNat 256 (fromBigEndian payload) := by
  rcases encodeString_cases payload with ⟨byte, one, small, single⟩ | headed
  · rw [single] at held ⊢
    have first := byte0_of_holds held
    have value := held.mload_div (by simp)
    simp only [List.length_singleton, Nat.reduceSub] at value
    have offset : payloadOffset memory memPtr = 0 := by
      simp [payloadOffset, first, small]
    rw [one, ← value]
    simp only [toUint, offset, List.length_singleton, Nat.sub_zero,
      Nat.reduceSub, Nat.add_zero]
    rfl
  · rw [headed] at held ⊢
    rcases header_read (by decide) (by omega) held.left with
      ⟨small, first, size⟩ | ⟨least, most, first, size, value⟩
    · have offset : payloadOffset memory memPtr = 1 := by
        rw [payloadOffset, first]
        simp only [show ¬ 128 + payload.length < 0x80 by omega,
          show 128 + payload.length < 0xb8 by omega, true_or, if_true,
          if_false]
      have content := held.right
      rw [size] at content
      have value := content.mload_div short
      simp only [toUint, offset, List.length_append, size,
        Nat.add_sub_cancel_left, value]
      by_cases empty : payload.length = 0
      · rw [if_pos (.inl empty), List.length_eq_zero_iff.mp empty]
        rfl
      · rw [if_neg (by omega)]
    · have single : (header 128 payload.length).length = 1 := by
        rw [header, if_pos (by omega)]
        rfl
      omega

/-- The header of a list is recognised and skipped. -/
theorem payloadOffset_list {length : Nat} (bound : length < 256 ^ 8)
    (held : Holds memory memPtr (header 192 length)) :
    payloadOffset memory memPtr = (header 192 length).length ∧
      ¬ byte0 memory memPtr < 0xc0 := by
  rw [payloadOffset]
  rcases header_read (by decide) bound held with
    ⟨_, first, size⟩ | ⟨_, _, first, size, _⟩
  · rw [size, first]
    refine ⟨?_, by omega⟩
    rw [if_neg (by omega), if_pos (by omega)]
  · rw [size, first]
    refine ⟨?_, by omega⟩
    rw [if_neg (by omega), if_neg (by omega), if_neg (by omega)]
    omega

/-- The encoding of one item, whose length its first bytes tell. -/
def IsItem (bytes : Bytes) : Prop :=
  bytes ≠ [] ∧ ∀ {memory : Bytes} {memPtr : Nat}, Holds memory memPtr bytes →
    itemLength memory memPtr = bytes.length

theorem isItem_encodeString {payload : Bytes}
    (bound : payload.length < 256 ^ 8) : IsItem (encodeString payload) :=
  ⟨encodeString_ne_nil payload, itemLength_encodeString bound⟩

theorem isItem_encodeList {items : List Bytes}
    (bound : items.flatten.length < 256 ^ 8) : IsItem (encodeList items) := by
  refine ⟨by simp [encodeList, header_ne_nil], ?_⟩
  intro memory memPtr held
  rw [encodeList] at held ⊢
  rcases header_read (by decide) bound held.left with
    ⟨short, first, size⟩ | ⟨least, most, first, size, value⟩
  · rw [List.length_append, size, itemLength, first]
    simp only [show ¬ 192 + items.flatten.length < 0x80 by omega,
      show ¬ 192 + items.flatten.length < 0xb8 by omega,
      show ¬ 192 + items.flatten.length < 0xc0 by omega,
      show 192 + items.flatten.length < 0xf8 by omega, if_true, if_false]
    omega
  · have width : 192 + 55 + byteWidth items.flatten.length - 0xf7 =
        byteWidth items.flatten.length := by omega
    rw [List.length_append, size, itemLength, first]
    simp only [width, value,
      show ¬ 192 + 55 + byteWidth items.flatten.length < 0x80 by omega,
      show ¬ 192 + 55 + byteWidth items.flatten.length < 0xb8 by omega,
      show ¬ 192 + 55 + byteWidth items.flatten.length < 0xc0 by omega,
      show ¬ 192 + 55 + byteWidth items.flatten.length < 0xf8 by omega,
      if_false]
    omega

theorem countItems_items {items : List Bytes} {rounds : Nat}
    (encoded : ∀ item ∈ items, IsItem item)
    (held : Holds memory memPtr items.flatten)
    (enough : items.flatten.length ≤ rounds) :
    countItems memory (memPtr + items.flatten.length) rounds memPtr =
      items.length := by
  induction items generalizing memPtr rounds with
  | nil => cases rounds <;> simp [countItems]
  | cons item items induction =>
      rw [List.flatten_cons] at held enough ⊢
      obtain ⟨nonempty, read⟩ := encoded item List.mem_cons_self
      have size := read held.left
      have positive := List.length_pos_iff.mpr nonempty
      rw [List.length_append] at enough ⊢
      cases rounds with
      | zero => omega
      | succ rounds =>
          rw [countItems, if_pos (by omega), size, ← Nat.add_assoc,
            induction
              (fun other member => encoded other (List.mem_cons_of_mem _ member))
              held.right (by omega)]
          rfl

@[simp] theorem length_collectItems (items memPtr : Nat) :
    (collectItems memory items memPtr).length = items := by
  induction items generalizing memPtr with
  | zero => rfl
  | succ items induction => simp [collectItems, induction]

/-- The items of an encoded list are counted. -/
theorem toList_encodeList {items : List Bytes} (rest : Bytes)
    (encoded : ∀ item ∈ items, IsItem item)
    (bound : items.flatten.length < 256 ^ 8) :
    toList (encodeList items ++ rest) (toRlpItem (encodeList items)) =
      some (collectItems (encodeList items ++ rest) items.length
        (header 192 items.flatten.length).length) := by
  have held : Holds (encodeList items ++ rest) 0 (encodeList items) :=
    ⟨rest, rfl⟩
  obtain ⟨offset, isList⟩ := payloadOffset_list bound held.left
  have content := held.right
  have count := countItems_items encoded content
    (Nat.le_add_left _ (header 192 items.flatten.length).length)
  have size : (encodeList items).length =
      (header 192 items.flatten.length).length + items.flatten.length :=
    List.length_append
  have numbers : numItems (encodeList items ++ rest)
      (toRlpItem (encodeList items)) = items.length := by
    rw [← count, numItems, toRlpItem, offset, size]
    simp only [Nat.zero_add]
  rw [toList, RLP.isList, numbers, toRlpItem, offset,
    if_pos (by simpa using isList), Nat.zero_add]

theorem collectItems_strings {payloads : List Bytes}
    (short : ∀ payload ∈ payloads, payload.length ≤ 32)
    (held : Holds memory memPtr (payloads.map encodeString).flatten) :
    (collectItems memory payloads.length memPtr).map (toUint memory) =
      payloads.map fun payload =>
        BitVec.ofNat 256 (fromBigEndian payload) := by
  induction payloads generalizing memPtr with
  | nil => rfl
  | cons payload payloads induction =>
      rw [List.map_cons, List.flatten_cons] at held
      have bound := short payload (by simp)
      have size := itemLength_encodeString (by omega) held.left
      rw [List.length_cons, collectItems, List.map_cons, List.map_cons, size,
        toUint_encodeString bound held.left,
        induction (fun other member => short other (by simp [member]))
          held.right]

end RLP

namespace PlasmaRLP

open RLP

structure ExitingTx where
  exitor : Address
  token : Address
  amount : Word
  inputCount : Word
deriving DecidableEq, Repr

/-- The three fields are added without the factors of a position, and the
index is multiplied without a check. -/
def getUtxoPos (challengingTxBytes rest : Bytes) (oIndex : Word) :
    Option Word := do
  let memory := challengingTxBytes ++ rest
  let txList ← toList memory (toRlpItem challengingTxBytes)
  let oIndexShift : Word := oIndex * 3
  let first ← txList[oIndexShift.toNat]?
  let second ← txList[(1 + oIndexShift).toNat]?
  let third ← txList[(2 + oIndexShift).toNat]?
  return toUint memory first + toUint memory second + toUint memory third

def createExitingTx (exitingTxBytes rest : Bytes) (oindex : Word) :
    Option ExitingTx := do
  let memory := exitingTxBytes ++ rest
  let txList ← toList memory (toRlpItem exitingTxBytes)
  let exitor ← txList[(7 + 2 * oindex).toNat]?
  let exitor ← toAddress memory exitor
  let token ← txList[6]?
  let token ← toAddress memory token
  let amount ← txList[(8 + 2 * oindex).toNat]?
  let blknum1 ← txList[0]?
  let blknum2 ← txList[3]?
  return {
    exitor := exitor
    token := token
    amount := toUint memory amount
    inputCount := toUint memory blknum1 * toUint memory blknum2 }

/-- The numbers in the items of a transaction. -/
def fields (txBytes rest : Bytes) : Option (List Word) :=
  (toList (txBytes ++ rest) (toRlpItem txBytes)).map fun txList =>
    txList.map (toUint (txBytes ++ rest))

/-- The position is the sum of three consecutive fields; a missing field
reverts. -/
theorem getUtxoPos_eq {txBytes rest : Bytes} {numbers : List Word}
    (decoded : fields txBytes rest = some numbers) (oIndex : Word) :
    getUtxoPos txBytes rest oIndex = do
      let first ← numbers[(oIndex * 3).toNat]?
      let second ← numbers[(1 + oIndex * 3).toNat]?
      let third ← numbers[(2 + oIndex * 3).toNat]?
      return first + second + third := by
  obtain ⟨txList, parsed, rfl⟩ := Option.map_eq_some_iff.mp decoded
  simp [getUtxoPos, parsed, List.getElem?_map, Option.bind_map]

/-- The fields of an encoded list of numbers are these numbers. -/
theorem fields_encodeList {payloads : List Bytes} (rest : Bytes)
    (short : ∀ payload ∈ payloads, payload.length ≤ 32)
    (bound : (payloads.map Rlp.encodeString).flatten.length < 256 ^ 8) :
    fields (Rlp.encodeList (payloads.map Rlp.encodeString)) rest =
      some (payloads.map fun payload =>
        BitVec.ofNat 256 (fromBigEndian payload)) := by
  have items : ∀ item ∈ payloads.map Rlp.encodeString, IsItem item := by
    intro item member
    obtain ⟨payload, inside, rfl⟩ := List.mem_map.mp member
    exact isItem_encodeString ((short payload inside).trans_lt (by decide))
  have held : Holds (Rlp.encodeList (payloads.map Rlp.encodeString) ++ rest) 0
      (Rlp.encodeList (payloads.map Rlp.encodeString)) := ⟨rest, rfl⟩
  have collected := collectItems_strings short held.right
  rw [fields, toList_encodeList rest items bound, Option.map_some,
    List.length_map, ← collected, Nat.zero_add]

end PlasmaRLP

end Plasma.Contract
