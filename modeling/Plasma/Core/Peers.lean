import Plasma.Core.Node
import Plasma.Core.OperatorRun

/-!
# Blocks received from peers

`recvBlock` and `downloadBlocks` hand a decoded block to `WriteBlock` without
looking at it.  `MintsNothing` says what an accepted block must be, given the
deposits the root chain recorded, and how far it may raise the value of the
recorded outputs.
-/

namespace Plasma.Core

open Plasma.Lib Plasma.Store

/-- The deposits of the root chain: owner and amount under a block number. -/
abbrev RecordedDeposits := Int → Option (Address × Nat)

/-- The block holds exactly the deposit transaction recorded under its
number: null inputs and one output to the depositor. -/
def RecordsDeposit (recorded : RecordedDeposits) (block : Block)
    (owner : Address) (amount : Nat) : Prop :=
  recorded block.number = some (owner, amount) ∧
    ∃ tx, block.transactions = [tx] ∧ tx.ins.1.isNullUTXO = true ∧
      tx.ins.2.isNullUTXO = true ∧ tx.outs.1 = ⟨owner, amount⟩ ∧
        tx.outs.2.amount = 0

/-- The block passes `ValidateBody` on this chain. -/
def PassesValidation (p : Primitives) (signer : EIP155Signer)
    (chain : BlockChain) (block : Block) : Prop :=
  UtxoBlockValidator.validateBody p signer
    (chain.hasBlock p (block.hash p) block.numberU64).2
    (Rawdb.readUTXO chain.db) block = .ok ()

/-- An accepted block is a validated child block, which does not raise the
value, or a recorded deposit, which raises it by at most its amount. -/
def MintsNothing (p : Primitives) (signer : EIP155Signer)
    (recorded : RecordedDeposits) (node : Node) (chain : BlockChain)
    (disk : Bool) (block : Block) : Prop :=
  (node.writeBlock p signer disk block).2.2 = some (.ok ()) →
    (1000 ∣ block.number ∧ PassesValidation p signer chain block ∧
        (node.writeBlock p signer disk block).1.utxoSet.value ≤
          node.utxoSet.value) ∨
      ∃ owner amount, RecordsDeposit recorded block owner amount ∧
        (node.writeBlock p signer disk block).1.utxoSet.value ≤
          node.utxoSet.value + amount

section

variable {p : Primitives} {signer : EIP155Signer} {node : Node}
  {chain : BlockChain} {block : Block}

private theorem validateTx_of_passes
    (passes : PassesValidation p signer chain block) :
    UtxoBlockValidator.validateTx p signer chain.utxoSet.reader
      block.transactions = .ok () := by
  obtain ⟨_, _, accepted⟩ :=
    (UtxoBlockValidator.validateBody_ok_iff _ _ _ _ _).mp passes
  exact accepted

private theorem value_of_recorded {recorded : RecordedDeposits}
    {owner : Address} {amount : Nat} (utxos : UtxoSet)
    (deposit : RecordsDeposit recorded block owner amount) :
    UtxoSet.value (applyAll block.changes utxos) ≤ utxos.value + amount := by
  obtain ⟨_, tx, txs, _, _, first, second⟩ := deposit
  have bound := value_after_block_le block utxos
  simpa [txs, first, second] using bound

theorem verdict_ok_iff :
    chain.verdict p signer block = .ok () ↔
      block.onDepositPath = true ∨ PassesValidation p signer chain block := by
  unfold BlockChain.verdict PassesValidation
  cases block.onDepositPath with
  | true => simp
  | false => simp

end

/-- The number and the path of a block agree: on the validated path the number
is a multiple of the interval or validation refuses the block; on the other
path it is a multiple and validation would accept the block. -/
def PathMatches (p : Primitives) (signer : EIP155Signer) (chain : BlockChain)
    (block : Block) : Prop :=
  if block.onDepositPath then
    1000 ∣ block.number ∧ PassesValidation p signer chain block
  else
    1000 ∣ block.number ∨ ¬ PassesValidation p signer chain block

section

variable {p : Primitives} {signer : EIP155Signer} {chain : BlockChain}
  {block : Block}

private theorem pathMatches_of_passes (multiple : 1000 ∣ block.number)
    (passes : PassesValidation p signer chain block) :
    PathMatches p signer chain block := by
  unfold PathMatches
  split
  · exact ⟨multiple, passes⟩
  · exact .inl multiple

private theorem passes_of_pathMatches
    (verdict : chain.verdict p signer block = .ok ())
    (agrees : PathMatches p signer chain block) :
    1000 ∣ block.number ∧ PassesValidation p signer chain block := by
  unfold PathMatches at agrees
  split at agrees
  · exact agrees
  · rename_i validated
    have passes := (verdict_ok_iff.mp verdict).resolve_left validated
    exact ⟨agrees.resolve_right (not_not_intro passes), passes⟩

private theorem pathMatches_of_refused
    (refused : ¬ chain.verdict p signer block = .ok ()) :
    PathMatches p signer chain block := by
  rw [verdict_ok_iff, not_or] at refused
  obtain ⟨validated, fails⟩ := refused
  unfold PathMatches
  rw [if_neg validated]
  exact .inr fails

end

/-- A block from a peer mints nothing exactly when nothing is committed, the
block is a recorded deposit or its number and path agree. -/
theorem mintsNothing_iff (p : Primitives) (signer : EIP155Signer)
    (recorded : RecordedDeposits) {node : Node} {chain : BlockChain}
    (running : node.chain? = some chain)
    (settled : chain.db.inBatch = false → chain.db.defaultBatch = [])
    (disk : Bool) (block : Block) :
    MintsNothing p signer recorded node chain disk block ↔
      chain.db.inBatch = true ∨ disk = false ∨
        (∃ owner amount, RecordsDeposit recorded block owner amount) ∨
          PathMatches p signer chain block := by
  have outputs : node.utxoSet = chain.utxoSet := by
    rw [Node.utxoSet, Node.database_of_chain running]
    rfl
  cases busy : chain.db.inBatch with
  | true =>
      refine iff_of_true ?_ (.inl rfl)
      intro accepted
      rw [Node.writeBlock_of_busy p signer running busy] at accepted
      cases accepted
  | false =>
      rcases Node.writeBlock_cases p signer running
          ⟨busy, settled busy⟩ disk block with
        ⟨verdict, committed, accepted, changed⟩ |
          ⟨refused, ⟨failure, failed⟩, _⟩
      · unfold MintsNothing
        rw [changed, accepted, outputs]
        constructor
        · intro minted
          right
          right
          rcases minted rfl with
            ⟨multiple, passes, _⟩ | ⟨owner, amount, deposit, _⟩
          · right
            exact pathMatches_of_passes multiple passes
          · left
            exact ⟨owner, amount, deposit⟩
        · intro condition _
          rcases condition with impossible | failing | recordedBlock | agrees
          · cases impossible
          · rw [committed] at failing
            cases failing
          · obtain ⟨owner, amount, deposit⟩ := recordedBlock
            right
            exact ⟨owner, amount, deposit,
              value_of_recorded chain.utxoSet deposit⟩
          · obtain ⟨multiple, passes⟩ := passes_of_pathMatches verdict agrees
            left
            exact ⟨multiple, passes,
              value_after_validated_le (validateTx_of_passes passes)⟩
      · refine iff_of_true ?_ ?_
        · intro accepted
          rw [failed] at accepted
          cases accepted
        · right
          cases disk with
          | false =>
              left
              rfl
          | true =>
              right
              right
              exact pathMatches_of_refused fun verdict =>
                refused ⟨verdict, rfl⟩

namespace Sample

/-- A validator after its first start. -/
def validator : Node := .validator (Validator.newValidator operator.chain)

end Sample

/-- The recorded deposit is accepted from a peer. -/
theorem mintsNothing_of_recorded_deposit :
    (Sample.validator.writeBlock Sample.primitives Sample.signer true
        Sample.depositBlock).2.2 = some (.ok ()) ∧
      MintsNothing Sample.primitives Sample.signer
        (fun number => if number = 1 then some (Sample.alice, 5) else none)
        Sample.validator Sample.operator.chain true Sample.depositBlock := by
  refine ⟨by decide +kernel, ?_⟩
  refine (mintsNothing_iff Sample.primitives Sample.signer _
    (show Sample.validator.chain? = some Sample.operator.chain from rfl)
    (fun _ => rfl) true Sample.depositBlock).mpr ?_
  right
  right
  left
  exact ⟨Sample.alice, 5, rfl, Sample.deposit, rfl, rfl, rfl, rfl, rfl⟩

/-- The same block is accepted when the root chain recorded nothing. -/
theorem mints_without_recorded_deposit :
    (Sample.validator.writeBlock Sample.primitives Sample.signer true
        Sample.depositBlock).2.2 = some (.ok ()) ∧
      (Sample.validator.writeBlock Sample.primitives Sample.signer true
        Sample.depositBlock).1.utxoSet ⟨1, 0, 0⟩ = some ⟨Sample.alice, 5⟩ ∧
      ¬ MintsNothing Sample.primitives Sample.signer (fun _ => none)
        Sample.validator Sample.operator.chain true Sample.depositBlock := by
  have accepted : (Sample.validator.writeBlock Sample.primitives Sample.signer
      true Sample.depositBlock).2.2 = some (.ok ()) := by
    decide +kernel
  refine ⟨accepted, by decide +kernel, ?_⟩
  intro minted
  rcases minted accepted with ⟨multiple, _⟩ | ⟨_, _, ⟨recorded, _⟩, _⟩
  · exact absurd multiple (by decide)
  · cases recorded

end Plasma.Core
