import Plasma.Core.Node
import Plasma.Core.OperatorRun

/-!
# Delivering a written block again

A block with an encoding that was written on the validated path stays stored
under its number and hash, so that this path recognises it.  The path for
deposit blocks has no such check: there the outputs are written again, and
nothing changes exactly when the recorded outputs already are what the block
made of them.
-/

namespace Plasma.Core

open Plasma.Lib Plasma.Store

/-- A header and a body are stored under the number and hash of the block. -/
def Stored (p : Primitives) (contents : Contents) (block : Block) : Prop :=
  (∃ header, contents (.header block.numberU64 (block.hash p)) =
      some (.header header)) ∧
    ∃ txs, contents (.body block.numberU64 (block.hash p)) = some (.body txs)

def StoredAt (contents : Contents) (number : UInt64) (hash : Hash) : Prop :=
  (∃ header, contents (.header number hash) = some (.header header)) ∧
    ∃ txs, contents (.body number hash) = some (.body txs)

private theorem header_apply {contents : Contents} {number : UInt64}
    {hash : Hash} {change : Change DbKey DbValue}
    (kept : isBlockData change = true)
    (stored : ∃ header, contents (.header number hash) =
      some (.header header)) :
    ∃ header, change.apply contents (.header number hash) =
      some (.header header) := by
  by_cases same : DbKey.header number hash = change.key
  · cases change with
    | delete key =>
        cases same
        cases kept
    | put key value =>
        cases same
        cases value with
        | header header => exact ⟨header, by simp [Change.apply, Change.outcome]⟩
        | _ => cases kept
  · rw [Change.apply_of_ne same]
    exact stored

private theorem body_apply {contents : Contents} {number : UInt64}
    {hash : Hash} {change : Change DbKey DbValue}
    (kept : isBlockData change = true)
    (stored : ∃ txs, contents (.body number hash) = some (.body txs)) :
    ∃ txs, change.apply contents (.body number hash) = some (.body txs) := by
  by_cases same : DbKey.body number hash = change.key
  · cases change with
    | delete key =>
        cases same
        cases kept
    | put key value =>
        cases same
        cases value with
        | body txs => exact ⟨txs, by simp [Change.apply, Change.outcome]⟩
        | _ => cases kept
  · rw [Change.apply_of_ne same]
    exact stored

theorem StoredAt.applyAll {contents : Contents} {number : UInt64}
    {hash : Hash} (stored : StoredAt contents number hash)
    {changes : List (Change DbKey DbValue)}
    (keeps : ∀ change ∈ changes, isBlockData change = true) :
    StoredAt (applyAll changes contents) number hash := by
  induction changes generalizing contents with
  | nil => exact stored
  | cons change changes induction =>
      have kept := keeps change List.mem_cons_self
      refine induction ⟨header_apply kept stored.1, body_apply kept stored.2⟩ ?_
      intro later member
      exact keeps later (List.mem_cons_of_mem _ member)

theorem Stored.applyAll {p : Primitives} {contents : Contents} {block : Block}
    (stored : Stored p contents block) {changes : List (Change DbKey DbValue)}
    (keeps : ∀ change ∈ changes, isBlockData change = true) :
    Stored p (applyAll changes contents) block :=
  StoredAt.applyAll stored keeps

/-- After a write the block is stored exactly when it has an encoding, and
nothing else changes. -/
theorem storedAt_writeBatch_iff (p : Primitives) (chain : BlockChain)
    (block : Block) (number : UInt64) (hash : Hash) :
    StoredAt (applyAll (chain.writeBatch p block) chain.db.db) number hash ↔
      if number = block.numberU64 ∧ hash = block.hash p then
        block.encodes = true
      else StoredAt chain.db.db number hash := by
  split
  · rename_i own
    obtain ⟨rfl, rfl⟩ := own
    rw [StoredAt, BlockChain.writeBatch_header, BlockChain.writeBatch_body,
      Block.encodes_eq, Bool.and_eq_true, Rawdb.headerData, Rawdb.bodyData]
    cases block.header.encodes <;> cases bodyEncodes block.transactions <;>
      simp
  · rename_i other
    have kept : ∀ key, (key = .header number hash ∨ key = .body number hash) →
        applyAll (chain.writeBatch p block) chain.db.db key =
          chain.db.db key := by
      intro key place
      apply applyAll_of_keys
      rintro change member rfl
      have touched := BlockChain.touches_writeBatch p member
      rcases place with same | same <;> rw [same] at touched <;>
        exact other touched
    rw [StoredAt, kept _ (.inl rfl), kept _ (.inr rfl), StoredAt]

/-- No write of the block leaves an entry without data in the place of stored
data: the validated path refuses a block that is stored. -/
def Block.storable (block : Block) : Bool :=
  !block.onDepositPath || block.encodes

theorem Block.storable_of_encodes {block : Block}
    (encodes : block.encodes = true) : block.storable = true := by
  rw [Block.storable, encodes, Bool.or_true]

namespace BlockChain

variable {p : Primitives} {signer : EIP155Signer} {chain : BlockChain}
  {block : Block}

theorem not_stored_of_verdict (path : block.onDepositPath = false)
    (verdict : chain.verdict p signer block = .ok ()) :
    ¬ Stored p chain.db.db block := by
  rintro ⟨⟨header, headerStored⟩, txs, bodyStored⟩
  have known := hasBlock_of_committed p chain headerStored bodyStored
  simp [BlockChain.verdict, path, known,
    UtxoBlockValidator.validateBody] at verdict

/-- A write stores a block with an encoding and keeps what was stored. -/
theorem storedAt_writeBatch (verdict : chain.verdict p signer block = .ok ())
    (storable : block.storable = true) {number : UInt64} {hash : Hash}
    (stored : (number = block.numberU64 ∧ hash = block.hash p ∧
        block.encodes = true) ∨ StoredAt chain.db.db number hash) :
    StoredAt (applyAll (chain.writeBatch p block) chain.db.db) number hash := by
  rw [storedAt_writeBatch_iff]
  split
  · rename_i own
    obtain ⟨rfl, rfl⟩ := own
    rcases stored with ⟨_, _, encodes⟩ | earlier
    · exact encodes
    · cases path : block.onDepositPath with
      | true => simpa [Block.storable, path] using storable
      | false => exact absurd earlier (not_stored_of_verdict path verdict)
  · rename_i other
    rcases stored with ⟨rfl, rfl, _⟩ | earlier
    · exact absurd ⟨rfl, rfl⟩ other
    · exact earlier

end BlockChain

theorem storedAt_of_writeBatch (p : Primitives) (chain : BlockChain)
    (block : Block) {number : UInt64} {hash : Hash}
    (stored : StoredAt (applyAll (chain.writeBatch p block) chain.db.db) number
      hash) :
    number = block.numberU64 ∨ StoredAt chain.db.db number hash := by
  rw [storedAt_writeBatch_iff] at stored
  split at stored
  · rename_i own
    exact .inl own.1
  · exact .inr stored

/-- The path of a block is a matter of the low 64 bits of its number. -/
theorem Block.onDepositPath_congr (block other : Block)
    (same : other.numberU64 = block.numberU64) :
    other.onDepositPath = block.onDepositPath := by
  have low := (uint64_eq_iff _ _).mp same
  have sign : ∀ value : Int, (int64 value).tmod 1000 = 0 ↔
      (signed64 value.natAbs).tmod 1000 = 0 := by
    intro value
    rw [int64]
    split
    · rfl
    · split
      · rename_i least
        rw [least]
      · rw [Int.neg_tmod, neg_eq_zero]
  have view : signed64 other.header.number.natAbs =
      signed64 block.header.number.natAbs := by
    rw [signed64, signed64, low]
  rw [Block.onDepositPath, Block.onDepositPath, Bool.eq_iff_iff, bne_iff_ne,
    bne_iff_ne, ne_eq, ne_eq, sign, sign, view]

/-- What every reached state of a node keeps: no transaction is open and the
written blocks of the validated path that have an encoding are stored. -/
structure NodeState (p : Primitives) (node : Node)
    (history : List NodeEvent) : Prop where
  idle : node.database.Idle
  stored : ∀ block ∈ committedBlocks history, block.onDepositPath = false →
    block.encodes = true → Stored p node.database.db block

theorem committedBlocks_append (first second : List NodeEvent) :
    committedBlocks (first ++ second) =
      committedBlocks first ++ committedBlocks second :=
  List.filterMap_append

section Run

variable (p : Primitives) (signer : EIP155Signer)

variable {p signer} in
theorem NodeState.step {node : Node} {history : List NodeEvent}
    (state : NodeState p node history) (input : NodeStep) :
    NodeState p (node.step p signer input).1
      (history ++ (node.step p signer input).2) := by
  rcases node.step_cases p signer input state.idle with
    ⟨⟨closed, empty, changes, data, contents⟩, silent⟩ |
      ⟨block, ⟨chain, baseDb, verdict, db⟩, written⟩
  · refine ⟨⟨closed, empty⟩, ?_⟩
    intro other member path encodes
    rw [committedBlocks_append, silent, List.append_nil] at member
    rw [contents]
    refine (state.stored other member path encodes).applyAll ?_
    intro change changeMember
    exact isBlockData_of_isStartData (data change changeMember)
  · refine ⟨db ▸ ⟨rfl, rfl⟩, ?_⟩
    intro other member path encodes
    rw [committedBlocks_append, written] at member
    rw [db, ← baseDb]
    apply (storedAt_writeBatch_iff p chain block _ _).mpr
    rcases List.mem_append.mp member with earlier | last
    · have before := state.stored other earlier path encodes
      rw [← baseDb] at before
      rw [if_neg]
      · exact before
      · rintro ⟨number, hash⟩
        refine BlockChain.not_stored_of_verdict ?_ verdict ?_
        · rw [← Block.onDepositPath_congr _ _ number]
          exact path
        · rw [Stored, ← number, ← hash]
          exact before
    · cases List.mem_singleton.mp last
      rw [if_pos ⟨rfl, rfl⟩]
      exact encodes

theorem nodeState_run (disk : Bool) (role : Role) (inputs : List NodeStep) :
    NodeState p
      (execute (Node.step p signer) (Node.start p disk role Database.empty)
        inputs).1
      (execute (Node.step p signer) (Node.start p disk role Database.empty)
        inputs).2 := by
  refine execute_invariant (Node.step p signer)
    (fun _ node history => NodeState p node history) ?_ ?_ inputs
  · intro _ node history input state
    exact state.step input
  · obtain ⟨closed, empty, _⟩ := gainsStartData_start p disk role
      (show Database.empty.inBatch = false from rfl)
    exact ⟨⟨closed, empty⟩, by simp [committedBlocks]⟩

end Run

/-- The recorded outputs already are what the block last made of every
identity it touches. -/
def AlreadyApplied (block : Block) (utxos : UtxoSet) : Prop :=
  ∀ id outcome, lastEffect block.changes id = some outcome →
    utxos id = outcome

/-- Delivering a written block with an encoding again to a running node leaves
the recorded outputs as they were exactly when the block takes the validated path, the
commit fails or the outputs already are what the block made of them. -/
theorem redelivery_keeps_utxos_iff (p : Primitives) (signer : EIP155Signer)
    (startDisk : Bool) (role : Role) (inputs : List NodeStep)
    {chain : BlockChain}
    (running : (execute (Node.step p signer)
      (Node.start p startDisk role Database.empty) inputs).1.chain? =
        some chain)
    {block : Block}
    (written : block ∈ committedBlocks (execute (Node.step p signer)
      (Node.start p startDisk role Database.empty) inputs).2)
    (encodes : block.encodes = true) (disk : Bool) :
    ((execute (Node.step p signer)
        (Node.start p startDisk role Database.empty) inputs).1.writeBlock p
          signer disk block).1.utxoSet =
      (execute (Node.step p signer)
        (Node.start p startDisk role Database.empty) inputs).1.utxoSet ↔
      block.onDepositPath = false ∨ disk = false ∨
        AlreadyApplied block (execute (Node.step p signer)
          (Node.start p startDisk role Database.empty) inputs).1.utxoSet := by
  have state := nodeState_run p signer startDisk role inputs
  generalize execute (Node.step p signer)
    (Node.start p startDisk role Database.empty) inputs = final at *
  have baseDb := Node.database_of_chain running
  have idle : chain.db.Idle := baseDb ▸ state.idle
  rcases Node.writeBlock_cases p signer running idle disk block with
    ⟨verdict, accepted, _, changed⟩ | ⟨refused, _, same⟩
  · have unvalidated : block.onDepositPath = true := by
      by_contra path
      rw [Bool.not_eq_true] at path
      have stored := state.stored block written path encodes
      rw [baseDb] at stored
      exact BlockChain.not_stored_of_verdict path verdict stored
    rw [changed, applyAll_eq_self_iff]
    simp [unvalidated, accepted, AlreadyApplied]
  · refine iff_of_true same ?_
    by_contra condition
    simp only [not_or, Bool.not_eq_false] at condition
    obtain ⟨path, accepted, _⟩ := condition
    refine refused ⟨?_, accepted⟩
    simp [BlockChain.verdict, path]

namespace Sample

def depositAndSpend : List NodeStep :=
  [.depositEvent now true 1 alice 0 5, .sealTxs now true true [spend]]

end Sample

/-- The child block that spent the deposit is delivered again to the
operator. -/
theorem redelivery_keeps_utxos_of_child_block :
    Sample.spendBlock ∈ committedBlocks
        (execute (Node.step Sample.primitives Sample.signer)
          (Node.start Sample.primitives true (.operator Sample.operatorAddr)
            Database.empty) Sample.depositAndSpend).2 ∧
      ((execute (Node.step Sample.primitives Sample.signer)
        (Node.start Sample.primitives true (.operator Sample.operatorAddr)
          Database.empty) Sample.depositAndSpend).1.writeBlock
            Sample.primitives Sample.signer true Sample.spendBlock).1.utxoSet =
        (execute (Node.step Sample.primitives Sample.signer)
          (Node.start Sample.primitives true (.operator Sample.operatorAddr)
            Database.empty) Sample.depositAndSpend).1.utxoSet := by
  have written : Sample.spendBlock ∈ committedBlocks
      (execute (Node.step Sample.primitives Sample.signer)
        (Node.start Sample.primitives true (.operator Sample.operatorAddr)
          Database.empty) Sample.depositAndSpend).2 := by
    decide +kernel
  have running : (execute (Node.step Sample.primitives Sample.signer)
      (Node.start Sample.primitives true (.operator Sample.operatorAddr)
        Database.empty) Sample.depositAndSpend).1.chain?.isSome = true := by
    decide +kernel
  obtain ⟨chain, running⟩ := Option.isSome_iff_exists.mp running
  refine ⟨written, ?_⟩
  exact (redelivery_keeps_utxos_iff Sample.primitives Sample.signer true
    (.operator Sample.operatorAddr) Sample.depositAndSpend running written
    (by decide +kernel) true).mpr (.inl (by decide +kernel))

/-- The deposit block is delivered again after its output was spent: the
output is unspent again. -/
theorem redelivered_deposit_is_unspent_again :
    Sample.depositBlock ∈ committedBlocks
        (execute (Node.step Sample.primitives Sample.signer)
          (Node.start Sample.primitives true (.operator Sample.operatorAddr)
            Database.empty) Sample.depositAndSpend).2 ∧
      (execute (Node.step Sample.primitives Sample.signer)
        (Node.start Sample.primitives true (.operator Sample.operatorAddr)
          Database.empty) Sample.depositAndSpend).1.utxoSet ⟨1, 0, 0⟩ =
        none ∧
      ((execute (Node.step Sample.primitives Sample.signer)
        (Node.start Sample.primitives true (.operator Sample.operatorAddr)
          Database.empty) Sample.depositAndSpend).1.writeBlock
            Sample.primitives Sample.signer true
              Sample.depositBlock).1.utxoSet ⟨1, 0, 0⟩ =
        some ⟨Sample.alice, 5⟩ := by
  refine ⟨?_, ?_, ?_⟩ <;> decide +kernel

end Plasma.Core
