import Mathlib
import Plasma.Core.BlockWriter
import Plasma.Lib.Ledger

/-!
# What a block does to the recorded outputs

The identities a block deletes and creates, and the balance of a validated
block and of a deposit block over a set of outputs in which the number of the
block is fresh.
-/

namespace Plasma.Core

open Plasma.Lib Plasma.Store

/-- There are finitely many identities, so that totals are finite sums. -/
noncomputable instance : Fintype UTXOID :=
  Fintype.ofInjective
    (fun id : UTXOID => (id.blockNum.toFin, id.txIndex.toFin, id.outIndex.toFin))
    (by
      intro id other same
      cases id
      cases other
      simpa [UInt64.toFin_inj, UInt32.toFin_inj, UInt8.toFin_inj] using same)

/-- The value of all recorded outputs. -/
noncomputable def UtxoSet.value (utxos : UtxoSet) : Nat :=
  total StoredOut.amount utxos

/-- What a reader over recorded outputs answers. -/
def UtxoSet.reader (utxos : UtxoSet) : UtxoReader :=
  fun id => (utxos id).map fun out => ⟨id, ⟨out.owner, out.amount⟩⟩

def realId (id : UTXOID) : Bool := id.blockNum != 0

def outputIds (number : UInt64) : Nat → List Transaction → List UTXOID
  | _, [] => []
  | txIdx, _ :: rest =>
      ⟨number, UInt32.ofNat txIdx, 0⟩ :: ⟨number, UInt32.ofNat txIdx, 1⟩ ::
        outputIds number (txIdx + 1) rest

theorem putKeys_txsChanges (number : UInt64) (txIdx : Nat)
    (txs : List Transaction) :
    putKeys (txsChanges number txIdx txs) = outputIds number txIdx txs := by
  induction txs generalizing txIdx with
  | nil => rfl
  | cons tx txs induction =>
      simp [txsChanges, txChanges, outputIds, putKeys, induction]

theorem deletedKeys_txsChanges (number : UInt64) (txIdx : Nat)
    (txs : List Transaction) :
    deletedKeys (txsChanges number txIdx txs) =
      txs.flatMap fun tx => [tx.ins.1.id, tx.ins.2.id] := by
  induction txs generalizing txIdx with
  | nil => rfl
  | cons tx txs induction =>
      simp [txsChanges, txChanges, deletedKeys, induction]

theorem putWorth_txsChanges (number : UInt64) (txIdx : Nat)
    (txs : List Transaction) :
    putWorth StoredOut.amount (txsChanges number txIdx txs) =
      (txs.map fun tx =>
        tx.outs.1.amount.natAbs + tx.outs.2.amount.natAbs).sum := by
  induction txs generalizing txIdx with
  | nil => rfl
  | cons tx txs induction =>
      simp [txsChanges, txChanges, putWorth, induction, Nat.add_assoc]

theorem blockNum_of_mem_outputIds {number : UInt64} {txIdx : Nat}
    {txs : List Transaction} {id : UTXOID}
    (member : id ∈ outputIds number txIdx txs) : id.blockNum = number := by
  induction txs generalizing txIdx with
  | nil => cases member
  | cons tx txs induction =>
      rcases List.mem_cons.mp member with rfl | rest
      · rfl
      · rcases List.mem_cons.mp rest with rfl | later
        · rfl
        · exact induction later

private theorem txIndex_of_mem_outputIds {number : UInt64} {txIdx : Nat}
    {txs : List Transaction} {id : UTXOID}
    (bounded : txIdx + txs.length ≤ 2 ^ 32)
    (member : id ∈ outputIds number txIdx txs) :
    txIdx ≤ id.txIndex.toNat := by
  induction txs generalizing txIdx with
  | nil => cases member
  | cons tx txs induction =>
      simp only [List.length_cons] at bounded
      have read : (UInt32.ofNat txIdx).toNat = txIdx := by
        simp only [UInt32.toNat_ofNat']
        omega
      rcases List.mem_cons.mp member with rfl | rest
      · exact read.ge
      · rcases List.mem_cons.mp rest with rfl | later
        · exact read.ge
        · have larger := induction (by omega) later
          omega

/-- A block with fewer than 2^32 transactions creates every identity once. -/
theorem outputIds_nodup (number : UInt64) (txIdx : Nat)
    (txs : List Transaction) (bounded : txIdx + txs.length ≤ 2 ^ 32) :
    (outputIds number txIdx txs).Nodup := by
  induction txs generalizing txIdx with
  | nil => exact List.nodup_nil
  | cons tx txs induction =>
      simp only [List.length_cons] at bounded
      have read : (UInt32.ofNat txIdx).toNat = txIdx := by
        simp only [UInt32.toNat_ofNat']
        omega
      have later : ∀ outIndex,
          (⟨number, UInt32.ofNat txIdx, outIndex⟩ : UTXOID) ∉
            outputIds number (txIdx + 1) txs := by
        intro outIndex member
        have larger := txIndex_of_mem_outputIds (by omega) member
        simp only [read] at larger
        omega
      refine List.nodup_cons.mpr ⟨?_, List.nodup_cons.mpr
        ⟨later 1, induction (txIdx + 1) (by omega)⟩⟩
      intro member
      rcases List.mem_cons.mp member with same | rest
      · simp at same
      · exact later 0 rest

private theorem filter_inputs (txs : List Transaction) :
    (txs.flatMap fun tx => [tx.ins.1.id, tx.ins.2.id]).filter realId =
      txs.flatMap Transaction.realInputs := by
  induction txs with
  | nil => rfl
  | cons tx txs induction =>
      have both : [tx.ins.1.id, tx.ins.2.id].filter realId =
          tx.realInputs := by
        exact List.filter_map (l := tx.getInsCopy)
      rw [List.flatMap_cons, List.filter_append, both, induction,
        List.flatMap_cons]

/-- A block written on the validated path has a valid transaction list. -/
theorem validateTx_of_verdict {p : Primitives} {signer : EIP155Signer}
    {chain : BlockChain} {block : Block}
    (path : block.onDepositPath = false)
    (verdict : chain.verdict p signer block = .ok ()) :
    UtxoBlockValidator.validateTx p signer chain.utxoSet.reader
      block.transactions = .ok () := by
  simp only [BlockChain.verdict, path, Bool.false_eq_true, if_false] at verdict
  obtain ⟨_, _, accepted⟩ :=
    (UtxoBlockValidator.validateBody_ok_iff _ _ _ _ _).mp verdict
  exact accepted

/-- The number of a block is neither zero nor used by a recorded output. -/
structure FreshNumber (number : UInt64) (utxos : UtxoSet) : Prop where
  nonzero : number ≠ 0
  unused : ∀ id, id.blockNum = number → utxos id = none
  noneAtZero : ∀ id, id.blockNum = 0 → utxos id = none

section Balance

variable {block : Block} {utxos : UtxoSet}

/-- Writing a block under a fresh number moves the total by what it creates
minus what its real inputs held. -/
theorem value_after_block (fresh : FreshNumber block.numberU64 utxos)
    (bounded : block.transactions.length < 2 ^ 32)
    (once : (block.transactions.flatMap Transaction.realInputs).Nodup)
    (present : ∀ id ∈ block.transactions.flatMap Transaction.realInputs,
      (utxos id).isSome) :
    UtxoSet.value (applyAll block.changes utxos) +
        ((block.transactions.flatMap Transaction.realInputs).map
          (worthAt StoredOut.amount utxos)).sum =
      utxos.value + (block.transactions.map fun tx =>
        tx.outs.1.amount.natAbs + tx.outs.2.amount.natAbs).sum := by
  have created : ∀ id ∈ putKeys block.changes,
      id.blockNum = block.numberU64 := by
    intro id member
    rw [Block.changes, putKeys_txsChanges] at member
    exact blockNum_of_mem_outputIds member
  have createdReal : ∀ id ∈ putKeys block.changes, realId id = true := by
    intro id member
    simpa [realId, created id member] using fresh.nonzero
  have nullAbsent : ∀ id, realId id = false → utxos id = none := by
    intro id null
    exact fresh.noneAtZero id (by simpa [realId] using null)
  have deleted : deletedKeys
      (block.changes.filter fun change => realId change.key) =
        block.transactions.flatMap Transaction.realInputs := by
    rw [deletedKeys_filter, Block.changes, deletedKeys_txsChanges,
      filter_inputs]
  have put : putKeys
      (block.changes.filter fun change => realId change.key) =
        putKeys block.changes := by
    rw [putKeys_filter]
    exact List.filter_eq_self.mpr createdReal
  have worth : putWorth StoredOut.amount
      (block.changes.filter fun change => realId change.key) =
        putWorth StoredOut.amount block.changes :=
    putWorth_filter StoredOut.amount realId block.changes createdReal
  have balance := total_applyAll_of_fresh StoredOut.amount
    (block.changes.filter fun change => realId change.key) utxos
    (by rw [deleted]; exact once)
    (by
      rw [put, Block.changes, putKeys_txsChanges]
      exact outputIds_nodup _ _ _ (by omega))
    (by
      rw [put, deleted]
      intro id member spent
      have absent := fresh.unused id (created id member)
      have held := present id spent
      simp [absent] at held)
    (by
      rw [put]
      intro id member
      exact fresh.unused id (created id member))
  rw [applyAll_filter realId _ _ nullAbsent createdReal, deleted, worth,
    Block.changes, putWorth_txsChanges] at balance
  exact balance

private theorem spentWorth_of_valid {p : Primitives} {signer : EIP155Signer}
    {txs : List Transaction}
    (valid : ∀ tx ∈ txs, ValidTx p signer utxos.reader tx) :
    (((txs.flatMap Transaction.realInputs).map
        (worthAt StoredOut.amount utxos)).sum : Int) =
      ((txs.map fun tx =>
        tx.outs.1.amount.natAbs + tx.outs.2.amount.natAbs).sum : Nat) +
        (txs.map Transaction.fee).sum := by
  induction txs with
  | nil => rfl
  | cons tx txs induction =>
      have here := valid tx (by simp)
      have rest := induction fun other member => valid other (by simp [member])
      have balanced := here.balanced
      have first := here.outsNonneg tx.outs.1 (by simp [Transaction.getOutsCopy])
      have second := here.outsNonneg tx.outs.2
        (by simp [Transaction.getOutsCopy])
      have amounts : (((tx.realInputs.map
          (worthAt StoredOut.amount utxos)).sum : Nat) : Int) =
            (tx.realInputs.map (amountAt utxos.reader)).sum := by
        rw [Nat.cast_list_sum, List.map_map]
        congr 1
        apply List.map_congr_left
        intro id _
        cases found : utxos id <;>
          simp [amountAt, worthAt, UtxoSet.reader, found]
      simp only [Transaction.getOutsCopy, List.map_cons, List.map_nil,
        List.sum_cons, List.sum_nil] at balanced
      simp only [List.flatMap_cons, List.map_append, List.sum_append,
        List.map_cons, List.sum_cons]
      omega

/-- A validated block takes exactly its fees out of the total. -/
theorem value_after_validated {p : Primitives} {signer : EIP155Signer}
    (fresh : FreshNumber block.numberU64 utxos)
    (bounded : block.transactions.length < 2 ^ 32)
    (accepted : UtxoBlockValidator.validateTx p signer utxos.reader
      block.transactions = .ok ()) :
    (UtxoSet.value (applyAll block.changes utxos) : Int) =
      utxos.value - (block.transactions.map Transaction.fee).sum := by
  obtain ⟨valid, once⟩ :=
    (UtxoBlockValidator.validateTx_ok_iff _ _ _ _).mp accepted
  have present : ∀ id ∈ block.transactions.flatMap Transaction.realInputs,
      (utxos id).isSome := by
    intro id member
    obtain ⟨tx, txMember, input⟩ := List.mem_flatMap.mp member
    have found := (valid tx txMember).inputs_present id input
    simpa [UtxoSet.reader] using found
  have balance := value_after_block fresh bounded once present
  have spent := spentWorth_of_valid valid
  omega

/-- Whatever its number, a validated block does not increase the value. -/
theorem value_after_validated_le {p : Primitives} {signer : EIP155Signer}
    (accepted : UtxoBlockValidator.validateTx p signer utxos.reader
      block.transactions = .ok ()) :
    UtxoSet.value (applyAll block.changes utxos) ≤ utxos.value := by
  obtain ⟨valid, once⟩ :=
    (UtxoBlockValidator.validateTx_ok_iff _ _ _ _).mp accepted
  have touched : ∀ id ∈ block.transactions.flatMap Transaction.realInputs,
      id ∈ block.changes.map Change.key := by
    intro id member
    apply deletedKeys_subset
    rw [Block.changes, deletedKeys_txsChanges]
    rw [← filter_inputs] at member
    exact (List.mem_filter.mp member).1
  have bound := total_applyAll_le_of_touched StoredOut.amount block.changes
    utxos once touched
  have spent := spentWorth_of_valid valid
  have fees : 0 ≤ (block.transactions.map Transaction.fee).sum := by
    apply List.sum_nonneg
    intro fee member
    obtain ⟨tx, txMember, rfl⟩ := List.mem_map.mp member
    exact (valid tx txMember).feePositive.le
  rw [Block.changes, putWorth_txsChanges] at bound
  simp only [UtxoSet.value, Block.changes]
  omega

/-- Any block increases the value by at most the amounts of its outputs. -/
theorem value_after_block_le (block : Block) (utxos : UtxoSet) :
    UtxoSet.value (applyAll block.changes utxos) ≤
      utxos.value + (block.transactions.map fun tx =>
        tx.outs.1.amount.natAbs + tx.outs.2.amount.natAbs).sum := by
  have bound := total_applyAll_le_of_touched StoredOut.amount block.changes
    utxos List.nodup_nil (by simp)
  rw [Block.changes, putWorth_txsChanges] at bound
  simpa [UtxoSet.value, Block.changes] using bound

end Balance

end Plasma.Core
