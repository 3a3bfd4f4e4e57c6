import Plasma.Core.Peers

/-!
# The recorded outputs do not depend on the order of the blocks

Blocks with fresh, pairwise different numbers create outputs that no other
block creates, and an output is created before it is spent.  So what is
recorded after a set of blocks is what was recorded before or is created by
one of them, without what one of them spends, in whichever order a node has
accepted them.
-/

namespace Plasma.Core

open Plasma.Lib Plasma.Store

/-- The identities of all inputs of a block, null inputs included. -/
def Block.inputIds (block : Block) : List UTXOID :=
  block.transactions.flatMap fun tx => [tx.ins.1.id, tx.ins.2.id]

/-- The output is one of the outputs of a transaction of the block, under the
number of the block and its two positions. -/
def Block.Creates (block : Block) (id : UTXOID) (out : StoredOut) : Prop :=
  ∃ txIdx tx outIdx txOut, block.transactions[txIdx]? = some tx ∧
    tx.getOutsCopy[outIdx]? = some txOut ∧
    id = ⟨block.numberU64, UInt32.ofNat txIdx, UInt8.ofNat outIdx⟩ ∧
    out.owner = txOut.owner ∧ (out.amount : Int) = txOut.amount

/-- `WriteBlock` accepts the blocks one after the other. -/
def Node.Accepts (p : Primitives) (signer : EIP155Signer) :
    Node → List Block → Node → Prop
  | node, [], final => final = node
  | node, block :: rest, final =>
      ∃ disk, (node.writeBlock p signer disk block).2.2 = some (.ok ()) ∧
        Accepts p signer (node.writeBlock p signer disk block).1 rest final

/-- Blocks with fresh numbers; those that are not validated hold a deposit. -/
structure FreshBlocks (initial : UtxoSet) (blocks : List Block) : Prop where
  numbers : ∀ block ∈ blocks, 1 ≤ block.number ∧ block.number < 2 ^ 63
  distinct : (blocks.map Block.number).Nodup
  bounded : ∀ block ∈ blocks, block.transactions.length < 2 ^ 32
  unused : ∀ block ∈ blocks, ∀ id, initial id ≠ none →
    (id.blockNum.toNat : Int) ≠ block.number
  noneAtZero : ∀ id, initial id ≠ none → id.blockNum ≠ 0
  deposits : ∀ block ∈ blocks, ¬ 1000 ∣ block.number →
    ∃ depositor amount, 0 ≤ amount ∧
      block.transactions = [Operator.depositTx depositor amount]

/-- What is recorded after the blocks, whatever their order. -/
def Settles (initial : UtxoSet) (blocks : List Block) (final : UtxoSet) :
    Prop :=
  ∀ id out, final id = some out ↔
    (initial id = some out ∨ ∃ block ∈ blocks, block.Creates id out) ∧
      ∀ block ∈ blocks, id ∉ block.inputIds

/-!
## One block
-/

section Block

variable {block : Block} {utxos : UtxoSet}

theorem deletedKeys_changes (block : Block) :
    deletedKeys block.changes = block.inputIds :=
  deletedKeys_txsChanges _ _ _

/-- The puts of a block are its outputs. -/
private theorem mem_put_txsChanges {number : UInt64} {txIdx : Nat}
    {txs : List Transaction} {id : UTXOID} {out : StoredOut} :
    .put id out ∈ txsChanges number txIdx txs ↔
      ∃ index tx outIdx txOut, txs[index]? = some tx ∧
        tx.getOutsCopy[outIdx]? = some txOut ∧
        id = ⟨number, UInt32.ofNat (txIdx + index), UInt8.ofNat outIdx⟩ ∧
        out = ⟨txOut.owner, txOut.amount.natAbs⟩ := by
  induction txs generalizing txIdx with
  | nil => simp [txsChanges]
  | cons tx txs induction =>
      rw [txsChanges, List.mem_append, induction]
      constructor
      · rintro (here | ⟨index, later, outIdx, txOut, found, rest⟩)
        · simp only [txChanges, List.mem_cons, reduceCtorEq, Change.put.injEq,
            List.not_mem_nil, or_false, false_or] at here
          rcases here with ⟨rfl, rfl⟩ | ⟨rfl, rfl⟩
          · exact ⟨0, tx, 0, tx.outs.1, rfl, rfl, rfl, rfl⟩
          · exact ⟨0, tx, 1, tx.outs.2, rfl, rfl, rfl, rfl⟩
        · refine ⟨index + 1, later, outIdx, txOut, found, rest.1, ?_, rest.2.2⟩
          rw [rest.2.1, Nat.add_right_comm, Nat.add_assoc]
      · rintro ⟨index, later, outIdx, txOut, found, slot, rfl, rfl⟩
        cases index with
        | zero =>
            left
            cases found
            rcases outIdx with _ | _ | outIdx
            · cases slot
              simp [txChanges]
            · cases slot
              simp [txChanges]
            · cases slot
        | succ index =>
            right
            refine ⟨index, later, outIdx, txOut, found, slot, ?_, rfl⟩
            rw [Nat.add_right_comm, Nat.add_assoc]

/-- What acceptance says about the inputs and outputs of a block. -/
structure Spendable (utxos : UtxoSet) (block : Block) : Prop where
  nonneg : ∀ tx ∈ block.transactions, ∀ out ∈ tx.getOutsCopy, 0 ≤ out.amount
  held : ∀ id ∈ block.inputIds, id.blockNum ≠ 0 → utxos id ≠ none

theorem creates_iff
    (nonneg : ∀ tx ∈ block.transactions, ∀ out ∈ tx.getOutsCopy,
      0 ≤ out.amount) {id : UTXOID} {out : StoredOut} :
    block.Creates id out ↔ .put id out ∈ block.changes := by
  rw [Block.changes, mem_put_txsChanges]
  constructor
  · rintro ⟨index, tx, outIdx, txOut, found, slot, same, owner, amount⟩
    refine ⟨index, tx, outIdx, txOut, found, slot, ?_, ?_⟩
    · rw [Nat.zero_add]
      exact same
    · cases out
      simp only at owner amount
      rw [owner, ← amount, Int.natAbs_natCast]
  · rintro ⟨index, tx, outIdx, txOut, found, slot, same, rfl⟩
    rw [Nat.zero_add] at same
    refine ⟨index, tx, outIdx, txOut, found, slot, same, rfl, ?_⟩
    exact Int.natAbs_of_nonneg (nonneg tx (List.mem_of_getElem? found) txOut
      (List.mem_of_getElem? slot))

/-- An input of the block is none of its outputs. -/
theorem notMem_putKeys_of_input (fresh : FreshNumber block.numberU64 utxos)
    (spendable : Spendable utxos block) {id : UTXOID}
    (input : id ∈ block.inputIds) : id ∉ putKeys block.changes := by
  intro created
  rw [Block.changes, putKeys_txsChanges] at created
  have number := blockNum_of_mem_outputIds created
  have nonzero : id.blockNum ≠ 0 := by
    rw [number]
    exact fresh.nonzero
  exact spendable.held id input nonzero (fresh.unused id number)

theorem settles_block (fresh : FreshNumber block.numberU64 utxos)
    (bounded : block.transactions.length < 2 ^ 32)
    (spendable : Spendable utxos block) :
    Settles utxos [block] (applyAll block.changes utxos) := by
  intro id out
  simp only [List.mem_singleton, exists_eq_left, forall_eq,
    creates_iff spendable.nonneg]
  constructor
  · intro present
    refine ⟨put_of_applyAll _ _ present, ?_⟩
    intro input
    have absent := applyAll_of_deleted block.changes utxos
      ((deletedKeys_changes block).symm ▸ input)
      (notMem_putKeys_of_input fresh spendable input)
    rw [absent] at present
    cases present
  · rintro ⟨recorded, unspent⟩
    have undeleted : id ∉ deletedKeys block.changes :=
      (deletedKeys_changes block).symm ▸ unspent
    rcases recorded with before | created
    · rw [applyAll_of_untouched _ _ undeleted]
      · exact before
      · intro created
        rw [Block.changes, putKeys_txsChanges] at created
        rw [fresh.unused id (blockNum_of_mem_outputIds created)] at before
        cases before
    · refine applyAll_of_put _ _ created undeleted ?_
      rw [Block.changes, putKeys_txsChanges]
      exact outputIds_nodup _ _ _ (by omega)

theorem spendable_of_verdict {p : Primitives} {signer : EIP155Signer}
    {chain : BlockChain} (small : 1 ≤ block.number ∧ block.number < 2 ^ 63)
    (deposit : ¬ 1000 ∣ block.number → ∃ depositor amount, 0 ≤ amount ∧
      block.transactions = [Operator.depositTx depositor amount])
    (verdict : chain.verdict p signer block = .ok ()) :
    Spendable chain.utxoSet block := by
  have path : block.onDepositPath = true ↔ ¬ 1000 ∣ block.number :=
    Block.onDepositPath_iff (by omega) small.2
  cases onDeposit : block.onDepositPath with
  | true =>
      obtain ⟨depositor, amount, nonneg, txs⟩ := deposit (path.mp onDeposit)
      constructor
      · intro tx member out slot
        rw [txs] at member
        rw [List.mem_singleton.mp member] at slot
        simp only [Transaction.getOutsCopy, Operator.depositTx_outs,
          List.mem_cons, List.not_mem_nil, or_false] at slot
        rcases slot with rfl | rfl
        · exact nonneg
        · exact le_refl _
      · intro id input nonzero
        simp only [Block.inputIds, txs, List.flatMap_cons, List.flatMap_nil,
          List.append_nil, List.mem_cons, List.not_mem_nil, or_false] at input
        rcases input with rfl | rfl <;> exact (nonzero rfl).elim
  | false =>
      obtain ⟨valid, _⟩ := (UtxoBlockValidator.validateTx_ok_iff _ _ _ _).mp
        (validateTx_of_verdict onDeposit verdict)
      constructor
      · intro tx member
        exact (valid tx member).outsNonneg
      · intro id input nonzero
        obtain ⟨tx, member, slot⟩ := List.mem_flatMap.mp input
        have real : id ∈ tx.realInputs := by
          rw [tx.mem_realInputs_iff]
          simp only [List.mem_cons, List.not_mem_nil, or_false] at slot
          exact ⟨slot, nonzero⟩
        have present := (valid tx member).inputs_present id real
        intro absent
        simp [UtxoSet.reader, absent] at present

end Block

/-!
## All blocks
-/

namespace FreshBlocks

variable {initial : UtxoSet} {block : Block} {rest blocks : List Block}

theorem numberU64_toNat (fresh : FreshBlocks initial blocks)
    (member : block ∈ blocks) :
    (block.numberU64.toNat : Int) = block.number := by
  have small := fresh.numbers block member
  have read : block.numberU64.toNat = block.number.natAbs :=
    (uint64_toNat _).trans
      (Nat.mod_eq_of_lt (by unfold Block.number at small; omega))
  omega

theorem freshNumber (fresh : FreshBlocks initial blocks)
    (member : block ∈ blocks) : FreshNumber block.numberU64 initial := by
  have number := fresh.numberU64_toNat member
  refine ⟨?_, ?_, ?_⟩
  · intro zero
    rw [zero] at number
    have positive := (fresh.numbers block member).1
    rw [← number] at positive
    exact absurd positive (by decide)
  · intro id same
    by_contra held
    exact fresh.unused block member id held (by rw [same, number])
  · intro id zero
    by_contra held
    exact fresh.noneAtZero id held zero

theorem perm (fresh : FreshBlocks initial blocks)
    (permutation : blocks.Perm rest) : FreshBlocks initial rest := by
  have member : ∀ block, block ∈ rest → block ∈ blocks :=
    fun block => permutation.mem_iff.mpr
  refine ⟨?_, ?_, ?_, ?_, fresh.noneAtZero, ?_⟩
  · exact fun block inRest => fresh.numbers block (member block inRest)
  · exact (permutation.map Block.number).nodup_iff.mp fresh.distinct
  · exact fun block inRest => fresh.bounded block (member block inRest)
  · exact fun block inRest => fresh.unused block (member block inRest)
  · exact fun block inRest => fresh.deposits block (member block inRest)

/-- After one block the others are still fresh. -/
theorem tail (fresh : FreshBlocks initial (block :: rest)) :
    FreshBlocks (applyAll block.changes initial) rest := by
  have later : ∀ other ∈ rest, other ∈ block :: rest :=
    fun other => List.mem_cons_of_mem block
  obtain ⟨different, distinct⟩ := List.nodup_cons.mp fresh.distinct
  have origin : ∀ id, applyAll block.changes initial id ≠ none →
      initial id ≠ none ∨ id.blockNum = block.numberU64 := by
    intro id held
    obtain ⟨out, present⟩ := Option.ne_none_iff_exists'.mp held
    rcases mem_of_applyAll _ _ present with before | created
    · left
      rw [before]
      exact Option.some_ne_none out
    · right
      rw [Block.changes, putKeys_txsChanges] at created
      exact blockNum_of_mem_outputIds created
  have number := fresh.numberU64_toNat List.mem_cons_self
  refine ⟨fun other member => fresh.numbers other (later other member),
    distinct, fun other member => fresh.bounded other (later other member), ?_,
    ?_, fun other member => fresh.deposits other (later other member)⟩
  · intro other member id held
    rcases origin id held with before | own
    · exact fresh.unused other (later other member) id before
    · rw [own, number]
      intro same
      exact different (List.mem_map.mpr ⟨other, member, same.symm⟩)
  · intro id held
    rcases origin id held with before | own
    · exact fresh.noneAtZero id before
    · rw [own]
      exact (fresh.freshNumber List.mem_cons_self).nonzero

end FreshBlocks

section Order

variable {initial middle final : UtxoSet} {block : Block}
  {rest blocks permuted : List Block}

theorem Settles.perm (settles : Settles initial blocks final)
    (permutation : blocks.Perm permuted) :
    Settles initial permuted final := by
  intro id out
  simp only [← permutation.mem_iff]
  exact settles id out

theorem Settles.unique {other : UtxoSet}
    (settles : Settles initial blocks final)
    (settlesOther : Settles initial blocks other) : final = other := by
  funext id
  apply Option.ext
  intro out
  rw [settles id out, settlesOther id out]

theorem Settles.cons (fresh : FreshBlocks initial (block :: rest))
    (spendable : Spendable initial block)
    (first : Settles initial [block] middle)
    (others : Settles middle rest final) :
    Settles initial (block :: rest) final := by
  have apart : ∀ other ∈ rest, ∀ id out, other.Creates id out →
      id ∉ block.inputIds := by
    rintro other member id out ⟨_, _, _, _, _, _, rfl, _⟩ input
    have number := fresh.freshNumber (List.mem_cons_of_mem block member)
    exact spendable.held _ input number.nonzero (number.unused _ rfl)
  intro id out
  have one := first id out
  simp only [List.mem_singleton, exists_eq_left, forall_eq] at one
  rw [others id out, one]
  simp only [List.mem_cons, exists_eq_or_imp, forall_eq_or_imp]
  constructor
  · rintro ⟨⟨recorded, unspent⟩ | ⟨other, member, creates⟩, later⟩
    · exact ⟨recorded.imp_right .inl, unspent, later⟩
    · exact ⟨.inr (.inr ⟨other, member, creates⟩),
        apart other member id out creates, later⟩
  · rintro ⟨before | own | created, unspent, later⟩
    · exact ⟨.inl ⟨.inl before, unspent⟩, later⟩
    · exact ⟨.inl ⟨.inr own, unspent⟩, later⟩
    · exact ⟨.inr created, later⟩

theorem settles_of_accepts {p : Primitives} {signer : EIP155Signer}
    (blocks : List Block) :
    ∀ {node final : Node}, node.database.Clean →
      FreshBlocks node.utxoSet blocks →
        node.Accepts p signer blocks final →
          Settles node.utxoSet blocks final.utxoSet := by
  induction blocks with
  | nil =>
      rintro node _ _ _ rfl id out
      simp
  | cons block rest induction =>
      rintro node final clean fresh ⟨disk, accepted, others⟩
      obtain ⟨chain, running, _, verdict, written⟩ :=
        node.writeBlock_accepted p signer clean accepted
      have database := Node.database_of_chain running
      have after := Node.database_of_chain written
      have recorded : node.utxoSet = chain.utxoSet := by
        rw [Node.utxoSet, database]
        rfl
      have changed : (node.writeBlock p signer disk block).1.utxoSet =
          applyAll block.changes node.utxoSet := by
        rw [Node.utxoSet, after, recorded]
        exact BlockChain.utxos_writeBatch p chain block
      have spendable : Spendable node.utxoSet block := by
        rw [recorded]
        exact spendable_of_verdict (fresh.numbers block List.mem_cons_self)
          (fresh.deposits block List.mem_cons_self) verdict
      refine .cons fresh spendable
        (settles_block (fresh.freshNumber List.mem_cons_self)
          (fresh.bounded block List.mem_cons_self) spendable) ?_
      rw [← changed]
      refine induction ?_ (changed ▸ fresh.tail) others
      rw [after]
      exact fun _ => rfl

end Order

theorem utxoSet_determined_by_blocks {p : Primitives}
    {signer : EIP155Signer} {node final other otherFinal : Node}
    {initial : UtxoSet} {blocks permuted : List Block}
    (fresh : FreshBlocks initial blocks)
    (permutation : blocks.Perm permuted)
    (start : node.utxoSet = initial) (otherStart : other.utxoSet = initial)
    (clean : node.database.Clean) (otherClean : other.database.Clean)
    (accepts : node.Accepts p signer blocks final)
    (otherAccepts : other.Accepts p signer permuted otherFinal) :
    final.utxoSet = otherFinal.utxoSet ∧
      Settles initial blocks final.utxoSet := by
  subst start
  have settles := settles_of_accepts blocks clean fresh accepts
  have otherFresh : FreshBlocks other.utxoSet permuted := by
    rw [otherStart]
    exact fresh.perm permutation
  have otherSettles := settles_of_accepts permuted otherClean otherFresh
    otherAccepts
  rw [otherStart] at otherSettles
  exact ⟨settles.unique (otherSettles.perm permutation.symm), settles⟩

namespace Sample

/-- A child block without transactions. -/
def emptyBlock : Block := ⟨header 0 emptyRoot 1000, []⟩

def written (node : Node) (block : Block) : Node :=
  (node.writeBlock primitives signer true block).1

end Sample

/-- An operator that writes the deposit first and a validator that writes the
child block first record the same outputs. -/
theorem deposit_and_child_block_commute :
    (Sample.written (Sample.written (.operator Sample.operator)
        Sample.depositBlock) Sample.emptyBlock).utxoSet =
      (Sample.written (Sample.written Sample.validator Sample.emptyBlock)
        Sample.depositBlock).utxoSet := by
  have fresh : FreshBlocks (fun _ => none)
      [Sample.depositBlock, Sample.emptyBlock] := by
    refine ⟨by decide, by decide, by decide, by simp, by simp, ?_⟩
    intro block member odd
    simp only [List.mem_cons, List.not_mem_nil, or_false] at member
    rcases member with rfl | rfl
    · exact ⟨Sample.alice, 5, by decide, rfl⟩
    · exact (odd (by decide)).elim
  have start : (Node.operator Sample.operator).utxoSet = fun _ => none :=
    funext (genesisOperator_utxoSet Sample.primitives Sample.operatorAddr)
  have otherStart : Sample.validator.utxoSet = fun _ => none := start
  have accepts : Node.Accepts Sample.primitives Sample.signer
      (.operator Sample.operator) [Sample.depositBlock, Sample.emptyBlock]
      (Sample.written (Sample.written (.operator Sample.operator)
        Sample.depositBlock) Sample.emptyBlock) :=
    ⟨true, by decide +kernel, true, by decide +kernel, rfl⟩
  have otherAccepts : Node.Accepts Sample.primitives Sample.signer
      Sample.validator [Sample.emptyBlock, Sample.depositBlock]
      (Sample.written (Sample.written Sample.validator Sample.emptyBlock)
        Sample.depositBlock) :=
    ⟨true, by decide +kernel, true, by decide +kernel, rfl⟩
  exact (utxoSet_determined_by_blocks fresh (List.Perm.swap _ _ _) start
    otherStart (fun _ => rfl) (fun _ => rfl) accepts otherAccepts).1

end Plasma.Core
