import Plasma.Core.Encoding
import Plasma.Core.OperatorRun
import Plasma.Contract.Rlp

/-!
# Transactions between the node and the contract

The node encodes a transaction as a list of four fields, while the contract
reads a flat list of eleven.
-/

namespace Plasma.Bridge

open Plasma.Core Plasma.Lib Plasma.Lib.Rlp Plasma.Contract Plasma.Contract.RLP

variable {tx : Transaction} {bytes : Bytes}

private theorem length_flatten_le (items : List Bytes) :
    items.flatten.length ≤ (encodeList items).length := by
  rw [encodeList, List.length_append]
  exact Nat.le_add_left _ _

private theorem length_payload_le (payload : Bytes) :
    payload.length ≤ (encodeString payload).length := by
  rcases encodeString_cases payload with ⟨byte, one, _, single⟩ | headed
  · rw [single, one]
  · rw [headed, List.length_append]
    exact Nat.le_add_left _ _

/-- The contract finds four items in an encoded transaction. -/
theorem length_toList_encodeRLP (encoded : tx.encodeRLP = some bytes)
    (fits : bytes.length < 2 ^ 63) (rest : Bytes) :
    ∃ txList, toList (bytes ++ rest) (toRlpItem bytes) = some txList ∧
      txList.length = 4 := by
  obtain ⟨items, fields, rfl⟩ := Option.map_eq_some_iff.mp encoded
  obtain ⟨ins, outs, fee, sigs, shape⟩ := Transaction.encodedFields_shape fields
  have whole : items.flatten.length < 256 ^ 8 :=
    (length_flatten_le items).trans_lt (fits.trans (by norm_num))
  have inner : ∀ item ∈ items, item.length < 256 ^ 8 := by
    intro item member
    exact (List.sublist_flatten_of_mem member).length_le.trans_lt whole
  have isItem : ∀ item ∈ items, IsItem item := by
    intro item member
    have bound := inner item member
    rw [shape] at member
    simp only [List.mem_cons, List.not_mem_nil, or_false] at member
    rcases member with rfl | rfl | rfl | rfl
    · exact isItem_encodeList ((length_flatten_le ins).trans_lt bound)
    · exact isItem_encodeList ((length_flatten_le outs).trans_lt bound)
    · exact isItem_encodeString ((length_payload_le fee).trans_lt bound)
    · exact isItem_encodeList ((length_flatten_le sigs).trans_lt bound)
  refine ⟨_, toList_encodeList rest isItem whole, ?_⟩
  rw [length_collectItems, shape]
  rfl

/-- No encoded transaction is decoded by the contract.  The length of a slice
is an `int`. -/
theorem transaction_never_decoded (encoded : tx.encodeRLP = some bytes)
    (fits : bytes.length < 2 ^ 63) (rest : Bytes) :
    PlasmaRLP.createExitingTx bytes rest 0 = none ∧
      PlasmaRLP.createExitingTx bytes rest 1 = none ∧
      PlasmaRLP.getUtxoPos bytes rest 1 = none := by
  obtain ⟨txList, read, size⟩ := length_toList_encodeRLP encoded fits rest
  have missing : ∀ index, 4 ≤ index → txList[index]? = none := by
    intro index large
    exact List.getElem?_eq_none (by omega)
  refine ⟨?_, ?_, ?_⟩
  · rw [PlasmaRLP.createExitingTx, read]
    simp only [Option.bind_eq_bind, Option.bind_some]
    rw [missing _ (by decide)]
    rfl
  · rw [PlasmaRLP.createExitingTx, read]
    simp only [Option.bind_eq_bind, Option.bind_some]
    rw [missing _ (by decide)]
    rfl
  · rw [PlasmaRLP.getUtxoPos, read]
    simp only [Option.bind_eq_bind, Option.bind_some]
    rw [missing (1 + 1 * 3 : Word).toNat (by decide)]
    simp

theorem spend_not_decoded :
    ∃ bytes, Sample.spend.encodeRLP = some bytes ∧
      PlasmaRLP.createExitingTx bytes [] 0 = none := by
  have succeeds : Sample.spend.encodeRLP.isSome = true := by decide +kernel
  obtain ⟨bytes, encoded⟩ := Option.isSome_iff_exists.mp succeeds
  have size : (Sample.spend.encodeRLP.getD []).length < 2 ^ 63 := by
    decide +kernel
  rw [encoded] at size
  exact ⟨bytes, encoded, (transaction_never_decoded encoded size []).1⟩

/-- Its encoding has four items, so the contract misses the eighth field. -/
theorem encoded_spend_reverts :
    (Sample.spend.encodeRLP.map fun bytes =>
      ((toList bytes (toRlpItem bytes)).map List.length,
        PlasmaRLP.createExitingTx bytes [] 0,
        PlasmaRLP.getUtxoPos bytes [] 1)) =
      some (some 4, none, none) := by
  decide +kernel

end Plasma.Bridge
