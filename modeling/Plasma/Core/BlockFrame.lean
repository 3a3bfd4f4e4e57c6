import Plasma.Core.BlockOrder

/-!
# What an accepted block leaves alone

Identities of outputs come from the number of their block, and the block
itself is recognised by its hash.  So a second block with the number of an
earlier one writes over the outputs of the earlier one.
-/

namespace Plasma.Core

open Plasma.Lib Plasma.Store

/-- What the outputs of a block alone would record. -/
def Block.outputs (block : Block) : UtxoSet :=
  applyAll block.changes fun _ => none

/-- Every recorded output that the block does not spend is kept. -/
def KeepsOthers (block : Block) (before after : UtxoSet) : Prop :=
  ∀ id out, before id = some out → id ∉ block.inputIds → after id = some out

/-- The block creates nothing new under a recorded identity that it does not
spend. -/
def SparesRecorded (block : Block) (utxos : UtxoSet) : Prop :=
  ∀ id out, utxos id = some out → id ∉ block.inputIds →
    block.outputs id = none ∨ block.outputs id = some out

theorem keepsOthers_iff {block : Block} {utxos : UtxoSet} :
    KeepsOthers block utxos (applyAll block.changes utxos) ↔
      SparesRecorded block utxos := by
  have value : ∀ id, id ∉ block.inputIds →
      applyAll block.changes utxos id = (block.outputs id).or (utxos id) := by
    intro id unspent
    exact applyAll_of_undeleted _ _ ((deletedKeys_changes block).symm ▸ unspent)
  constructor
  · intro keeps id out recorded unspent
    have kept := keeps id out recorded unspent
    rw [value id unspent] at kept
    cases created : block.outputs id with
    | none => exact .inl rfl
    | some other =>
        right
        rw [created] at kept
        exact kept
  · intro spares id out recorded unspent
    rw [value id unspent, recorded]
    rcases spares id out recorded unspent with nothing | same
    · rw [nothing]
      rfl
    · rw [same]
      rfl

/-- When an accepted block touches only the outputs it spends. -/
theorem Node.accepted_block_keeps_others_iff {p : Primitives}
    {signer : EIP155Signer} {node : Node} (clean : node.database.Clean)
    {disk : Bool} {block : Block}
    (accepted : (node.writeBlock p signer disk block).2.2 =
      some (.ok ())) :
    KeepsOthers block node.utxoSet
        (node.writeBlock p signer disk block).1.utxoSet ↔
      SparesRecorded block node.utxoSet := by
  obtain ⟨chain, running, idle, _⟩ := Node.writeBlock_accepted p signer clean
    accepted
  rcases Node.writeBlock_cases p signer running idle disk block with
    ⟨_, _, _, after⟩ | ⟨_, ⟨failure, refused⟩, _⟩
  · rw [after]
    exact keepsOthers_iff
  · rw [refused] at accepted
    cases accepted

/-- A number that no recorded output has. -/
theorem sparesRecorded_of_freshNumber {block : Block} {utxos : UtxoSet}
    (fresh : FreshNumber block.numberU64 utxos) : SparesRecorded block utxos := by
  intro id out recorded _
  left
  by_contra created
  obtain ⟨other, present⟩ := Option.ne_none_iff_exists'.mp created
  rcases mem_of_applyAll _ _ present with before | put
  · cases before
  · rw [Block.changes, putKeys_txsChanges] at put
    rw [fresh.unused id (blockNum_of_mem_outputIds put)] at recorded
    cases recorded

/-!
## Two blocks with one number

A second deposit and a transaction that spends it in another block 1000.
-/

namespace Sample

def secondSig : Sig :=
  { v := some 38
    r := some
      0x20a68862fd6f2a7bda3146b85a789a123edddaa9c37db0b354a4b5a6303c4ac4
    s := some
      0x59439730f34467fdd26be1096cddcd4ea0ac988b62d320ad511d4adb16a972bb }

def secondDeposit : Transaction := Operator.depositTx alice 7

def secondSpend : Transaction :=
  { ins := (⟨⟨2, 0, 0⟩, ⟨alice, 7⟩⟩, Operator.nullInput)
    outs := (⟨bob, 4⟩, ⟨alice, 2⟩)
    fee := 1
    sigs := (secondSig, secondSig) }

def secondDepositRoot : Hash :=
  0x0614e4f4f0c27ee3880ce4a0ee6e72b218abfbc70f3e11cee5502ced159800d7

def secondSpendRoot : Hash :=
  0xe1abfb25f39b936f4d28d4297342d8b38478d648fc951d5dea2b0149eada5165

def secondDepositBlock : Block :=
  ⟨header depositHash secondDepositRoot 2, [secondDeposit]⟩

def secondSpendBlock : Block := ⟨header 0 secondSpendRoot 1000, [secondSpend]⟩

/-- The tables of the sample with the two further blocks. -/
def widePrimitives : Primitives :=
  { primitives with
    headerHash := lookup ([(secondDepositBlock.header,
          0xc0f44cbfb8adad8c52b7d630b4710d76d9c2e8475a0e99fccb92b83ce74e6658),
        (secondSpendBlock.header,
          0x508ff2359b9a2c28f0969886f76e2001d6339954164f1b43acd328c340b355b2)]
      ++ headerHashes) 0
    txHash := fun tx => lookup
      [(secondDeposit,
          0x456fc135828c1c3cc32c30aa912af571d45933388598084d624fef7824c7e9ff),
        (secondSpend,
          0xe0173e1971925102660a2a067bc8dcd27ed1cb7a9dd8a8d37ba3de756523cc5f)]
      (primitives.txHash tx) tx
    txSize := fun tx => lookup [(secondDeposit, 117), (secondSpend, 248)]
      (primitives.txSize tx) tx
    deriveSha := fun txs => lookup
      [([secondDeposit], secondDepositRoot), ([secondSpend], secondSpendRoot)]
      (primitives.deriveSha txs) txs
    keccak256 := fun input => lookup
      [((secondSpend.encodeUnsigned 1).getD [],
        0xd8f0acbc93366b46d0fec4070de6aba00344ec108d082688ff76564028522608)]
      (primitives.keccak256 input) input
    validateSignatureValues := fun v r s =>
      decide (v = 1 ∧ some r = secondSig.r ∧ some s = secondSig.s) ||
        primitives.validateSignatureValues v r s
    ecrecover := fun hash r s v =>
      if hash =
          0xd8f0acbc93366b46d0fec4070de6aba00344ec108d082688ff76564028522608 ∧
        some r = secondSig.r ∧ some s = secondSig.s ∧ v = 1 then
        some pubkey
      else primitives.ecrecover hash r s v }

/-- The operator with two deposits. -/
def twoDeposits : Node :=
  ((Node.operator (genesisOperator widePrimitives operatorAddr)).writeBlock
      widePrimitives signer true depositBlock).1.writeBlock widePrimitives
    signer true secondDepositBlock |>.1

/-- The operator with two deposits and block 1000. -/
def firstSpent : Node :=
  (twoDeposits.writeBlock widePrimitives signer true spendBlock).1

end Sample

/-- The operator after the first deposit. -/
theorem Sample.deposited_utxoSet :
    (Sample.written (.operator Sample.operator)
        Sample.depositBlock).utxoSet = Sample.depositBlock.outputs := by
  have start : (Node.operator Sample.operator).utxoSet = fun _ => none :=
    funext (genesisOperator_utxoSet Sample.primitives Sample.operatorAddr)
  rcases Node.writeBlock_cases Sample.primitives Sample.signer
    (rfl : (Node.operator Sample.operator).chain? = some _) ⟨rfl, rfl⟩ true
    Sample.depositBlock with ⟨_, _, _, after⟩ | ⟨refused, _⟩
  · rw [start] at after
    exact after
  · exact (refused (by decide +kernel)).elim

theorem spend_block_keeps_others :
    KeepsOthers Sample.spendBlock
      (Sample.written (.operator Sample.operator)
        Sample.depositBlock).utxoSet
      (Sample.written (Sample.written (.operator Sample.operator)
        Sample.depositBlock) Sample.spendBlock).utxoSet := by
  have fresh : FreshNumber Sample.spendBlock.numberU64
      (Sample.written (.operator Sample.operator)
        Sample.depositBlock).utxoSet := by
    have others : ∀ id : UTXOID, id.blockNum ≠ 1 →
        Sample.depositBlock.outputs id = none := by
      intro id different
      by_contra created
      obtain ⟨out, present⟩ := Option.ne_none_iff_exists'.mp created
      rcases mem_of_applyAll _ _ present with before | put
      · cases before
      · rw [Block.changes, putKeys_txsChanges] at put
        exact different (blockNum_of_mem_outputIds put)
    rw [Sample.deposited_utxoSet]
    refine ⟨by decide, ?_, ?_⟩
    · intro id number
      exact others id (by rw [number]; decide)
    · intro id number
      exact others id (by rw [number]; decide)
  have accepted : ((Sample.written (.operator Sample.operator)
      Sample.depositBlock).writeBlock Sample.primitives Sample.signer true
      Sample.spendBlock).2.2 = some (.ok ()) := by
    decide +kernel
  exact (Node.accepted_block_keeps_others_iff (fun _ => rfl) accepted).mpr
    (sparesRecorded_of_freshNumber fresh)

/-- The second block 1000 replaces the unspent output of the first. -/
theorem second_block_overwrites_output :
    Sample.secondSpendBlock.hash Sample.widePrimitives ≠
        Sample.spendBlock.hash Sample.widePrimitives ∧
      (Sample.firstSpent.writeBlock Sample.widePrimitives Sample.signer true
        Sample.secondSpendBlock).2.2 = some (.ok ()) ∧
      Sample.firstSpent.utxoSet ⟨1000, 0, 0⟩ = some ⟨Sample.bob, 3⟩ ∧
      ⟨1000, 0, 0⟩ ∉ Sample.secondSpendBlock.inputIds ∧
      (Sample.firstSpent.writeBlock Sample.widePrimitives Sample.signer true
        Sample.secondSpendBlock).1.utxoSet ⟨1000, 0, 0⟩ =
        some ⟨Sample.bob, 4⟩ := by
  decide +kernel

end Plasma.Core
