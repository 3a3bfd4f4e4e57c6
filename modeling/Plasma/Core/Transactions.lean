import Plasma.Core.BlockOrder
import Plasma.Core.EventLoop

/-!
# How the users of the database end their transactions

What a failed `WriteBlock` leaves behind, and which of the operations that
open a transaction close it again.
-/

namespace Plasma.Core

open Plasma.Lib Plasma.Store

/-!
## A failed write
-/

/-- When `WriteBlock` returns an error, the committed contents and the heads
are those before the call and the block was not broadcast. -/
def LeavesNoTrace (p : Primitives) (signer : EIP155Signer) (disk : Bool)
    (o : Operator) (block : Block) : Prop :=
  ∀ failure, (o.writeBlock p signer disk block).2.2 = .error failure →
    (o.writeBlock p signer disk block).1.chain.db.db = o.chain.db.db ∧
    (o.writeBlock p signer disk block).1.chain.currentBlock =
      o.chain.currentBlock ∧
    (o.writeBlock p signer disk block).1.chain.currentHeader =
      o.chain.currentHeader ∧
    (o.writeBlock p signer disk block).1.chain.currentFastBlock =
      o.chain.currentFastBlock ∧
    .broadcast block ∉ (o.writeBlock p signer disk block).2.1

/-- The head moves and the block is broadcast before the commit can fail. -/
theorem leavesNoTrace_iff (p : Primitives) (signer : EIP155Signer)
    (disk : Bool) {o : Operator} (idle : o.chain.db.Idle) (block : Block) :
    LeavesNoTrace p signer disk o block ↔
      o.chain.verdict p signer block ≠ .ok () ∨ disk = true := by
  have written := BlockChain.writeWith_of_idle p
    (Operator.buffersDeletions_removeInputs disk) signer disk o.chain block
    idle
  have outcome : ∀ chain events result,
      o.chain.writeWith (Operator.removeInputs disk) p signer disk block =
        (chain, events, result) →
      o.writeBlock p signer disk block =
        ({ o with chain := chain }, events, result) := by
    intro chain events result same
    rw [Operator.writeBlock, same]
  cases verdict : o.chain.verdict p signer block with
  | error failure =>
      rw [verdict] at written
      have refused := outcome _ _ _ written
      constructor
      · intro _
        left
        rintro ⟨⟩
      · intro _ failure _
        rw [refused]
        obtain ⟨block, header, fast⟩ := BlockChain.viewed_heads p o.chain block
        refine ⟨?_, block, header, fast, List.not_mem_nil⟩
        exact congrArg LDBDatabase.db (BlockChain.viewed_db p o.chain _)
  | ok accepted =>
      rw [verdict] at written
      cases disk with
      | true =>
          have done := outcome _ _ _ written
          constructor
          · intro _
            exact .inr rfl
          · intro _ failure failed
            rw [done] at failed
            cases failed
      | false =>
          have broken := outcome _ _ _ written
          constructor
          · intro noTrace
            have traces := noTrace (.db .writeFailed) (by rw [broken])
            rw [broken] at traces
            exact (traces.2.2.2.2 List.mem_cons_self).elim
          · rintro (refused | taken)
            · exact (refused rfl).elim
            · cases taken

theorem refused_block_leaves_no_trace :
    LeavesNoTrace Sample.primitives Sample.signer false Sample.operator
      ⟨Sample.header 0 Sample.emptyRoot 1000, [Sample.spend]⟩ := by
  refine (leavesNoTrace_iff _ _ _ ⟨rfl, rfl⟩ _).mpr (.inl ?_)
  decide +kernel

/-- The commit of the first deposit fails: nothing is stored, but the deposit
block is the head in memory and was broadcast. -/
theorem uncommitted_deposit_leaves_trace :
    (Sample.operator.writeBlock Sample.primitives Sample.signer false
        Sample.depositBlock).2 =
        ([.broadcast Sample.depositBlock], .error (.db .writeFailed)) ∧
      (Sample.operator.writeBlock Sample.primitives Sample.signer false
        Sample.depositBlock).1.chain.currentBlock = Sample.depositBlock ∧
      ¬ LeavesNoTrace Sample.primitives Sample.signer false Sample.operator
        Sample.depositBlock := by
  have outcome : (Sample.operator.writeBlock Sample.primitives Sample.signer
      false Sample.depositBlock).2 =
      ([.broadcast Sample.depositBlock], .error (.db .writeFailed)) := by
    decide +kernel
  refine ⟨outcome, by decide +kernel, ?_⟩
  intro noTrace
  have traces := noTrace (.db .writeFailed) (by rw [outcome])
  rw [outcome] at traces
  exact traces.2.2.2.2 List.mem_cons_self

/-!
## Operations with a transaction of their own
-/

def delLastBlockEventHash (deletes : EventHash → Bool) (commit : Bool)
    (hashList : List EventHash) (d : Database) : Database × List EventHash :=
  match d.beginTx with
  | (_, false) => (d, hashList)
  | (d, true) =>
      let d := hashList.foldl
        (fun d key => (d.delete (deletes key) (.eventMarker key)).1) d
      match d.commitTx commit with
      | (d, .error _) => (d.rollbackTx.1, hashList)
      | (d, .ok _) => (d, [])

inductive TxOperation where
  | writeBlock (disk : Bool) (block : Block)
  | processRemoteBlock (disk subscribed : Bool) (block : Block)
  | delLastBlockEventHash (deletes : EventHash → Bool) (commit : Bool)
      (hashList : List EventHash)

namespace Node

variable (p : Primitives) (signer : EIP155Signer)

/-- One operation, with the answer of its `BeginTx`.  The operator ignores
remote blocks. -/
def performTx (node : Node) (operation : TxOperation) : Node × List Bool :=
  let begun := [node.database.beginTx.2]
  match operation, node with
  | _, .stopped role d => (.stopped role d, [])
  | .writeBlock disk block, node =>
      ((node.writeBlock p signer disk block).1, begun)
  | .processRemoteBlock disk subscribed block, .validator v =>
      (.validator (v.processRemoteBlock p signer disk subscribed block).1, begun)
  | .processRemoteBlock _ _ _, .operator o => (.operator o, [])
  | .delLastBlockEventHash deletes commit hashList, node =>
      (node.withDatabase
        (Core.delLastBlockEventHash deletes commit hashList node.database).1,
        begun)

/-- A validator does not get a remote block that passes `ValidateBody`. -/
def Closes (node : Node) : TxOperation → Prop
  | .processRemoteBlock _ _ block =>
      ∀ v, node = .validator v → ¬ PassesValidation p signer v.chain block
  | _ => True

variable {node : Node}

theorem writeBlock_idle (idle : node.database.Idle) (disk : Bool)
    (block : Block) :
    (node.writeBlock p signer disk block).1.database.Idle := by
  have body : ∀ (removeInputs :
        List UTXO → Database → Database × Except DbError Unit)
      (chain : BlockChain), BuffersDeletions removeInputs → chain.db.Idle →
        (chain.writeWith removeInputs p signer disk block).1.db.Idle := by
    intro removeInputs chain buffers idle
    rcases BlockChain.writeWith_cases p buffers signer disk chain block idle
      with ⟨unchanged, _⟩ | ⟨committed, _⟩
    · rw [unchanged]
      exact idle
    · rw [committed]
      exact ⟨rfl, rfl⟩
  cases node with
  | operator o =>
      exact body _ o.chain (Operator.buffersDeletions_removeInputs disk) idle
  | validator v =>
      exact body _ v.chain (Validator.buffersDeletions_removeInputs disk) idle
  | stopped role d => exact idle

end Node

private theorem foldl_delete_inBatch (deletes : EventHash → Bool)
    (hashList : List EventHash) (contents : Contents)
    (batch : List (Change DbKey DbValue)) :
    hashList.foldl
        (fun (d : Database) key =>
          (d.delete (deletes key) (.eventMarker key)).1)
        ⟨contents, true, batch⟩ =
      ⟨contents, true,
        batch ++ hashList.map fun key => .delete (.eventMarker key)⟩ := by
  induction hashList generalizing batch with
  | nil => simp
  | cons key keys induction =>
      rw [List.foldl_cons, LDBDatabase.delete_inBatch, induction]
      simp

theorem delLastBlockEventHash_of_idle (deletes : EventHash → Bool)
    (commit : Bool) (hashList : List EventHash) {d : Database}
    (idle : d.Idle) :
    delLastBlockEventHash deletes commit hashList d =
      if commit then
        (⟨applyAll (hashList.map fun key => .delete (.eventMarker key)) d.db,
          false, []⟩, [])
      else (d, hashList) := by
  rw [delLastBlockEventHash, LDBDatabase.beginTx_of_idle idle]
  simp only [foldl_delete_inBatch, List.nil_append,
    LDBDatabase.commitTx_inBatch]
  cases commit with
  | true => rfl
  | false =>
      simp only [Bool.false_eq_true, if_false, LDBDatabase.rollbackTx_inBatch]
      rw [← idle.eq_mk]

theorem processRemoteBlock_of_idle (p : Primitives) (signer : EIP155Signer)
    (disk subscribed : Bool) {v : Validator} (idle : v.chain.db.Idle)
    (block : Block) :
    (PassesValidation p signer v.chain block →
      (v.processRemoteBlock p signer disk subscribed block).1.chain.db =
        ⟨v.chain.db.db, true, Rawdb.blockChanges p block⟩) ∧
    (¬ PassesValidation p signer v.chain block →
      (v.processRemoteBlock p signer disk subscribed block).1.chain.db =
        v.chain.db) := by
  simp only [Validator.processRemoteBlock, LDBDatabase.beginTx_of_idle idle,
    BlockChain.writeBlock_inBatch, PassesValidation]
  cases UtxoBlockValidator.validateBody p signer
    (v.chain.hasBlock p (block.hash p) block.numberU64).2
    (Rawdb.readUTXO v.chain.db) block with
  | error failure =>
      refine ⟨nofun, fun _ => ?_⟩
      simp only [BlockChain.rollback, LDBDatabase.rollbackTx_inBatch]
      exact idle.eq_mk.symm
  | ok accepted => exact ⟨fun _ => rfl, fun refused => (refused rfl).elim⟩

namespace Node

variable (p : Primitives) (signer : EIP155Signer) {node : Node}

theorem performTx_of_idle (idle : node.database.Idle)
    (operation : TxOperation) :
    (∀ answer ∈ (node.performTx p signer operation).2, answer = true) ∧
      (node.Closes p signer operation →
        (node.performTx p signer operation).1.database.Idle) ∧
      (¬ node.Closes p signer operation →
        (node.performTx p signer operation).1.database.inBatch = true) := by
  have begun : ∀ answer ∈ [node.database.beginTx.2], answer = true := by
    intro answer member
    rw [List.mem_singleton.mp member, LDBDatabase.beginTx_of_idle idle]
  have deleted : ∀ deletes commit hashList,
      (delLastBlockEventHash deletes commit hashList
        node.database).1.Idle := by
    intro deletes commit hashList
    rw [delLastBlockEventHash_of_idle deletes commit hashList idle]
    cases commit with
    | true => exact ⟨rfl, rfl⟩
    | false => exact idle
  have written := writeBlock_idle p signer idle
  cases operation with
  | writeBlock disk block =>
      refine ⟨?_, fun _ => ?_, fun open' => (open' trivial).elim⟩
      · cases node with
        | stopped role d => exact nofun
        | operator o => exact begun
        | validator v => exact begun
      · cases node with
        | stopped role d => exact idle
        | operator o => exact written disk block
        | validator v => exact written disk block
  | delLastBlockEventHash deletes commit hashList =>
      refine ⟨?_, fun _ => ?_, fun open' => (open' trivial).elim⟩
      · cases node with
        | stopped role d => exact nofun
        | operator o => exact begun
        | validator v => exact begun
      · cases node with
        | stopped role d => exact idle
        | operator o => exact deleted deletes commit hashList
        | validator v => exact deleted deletes commit hashList
  | processRemoteBlock disk subscribed block =>
      cases node with
      | stopped role d =>
          refine ⟨?_, fun _ => idle, fun open' => (open' ?_).elim⟩
          · intro answer member
            cases member
          · intro v same
            cases same
      | operator o =>
          refine ⟨?_, fun _ => idle, fun open' => (open' ?_).elim⟩
          · intro answer member
            cases member
          · intro v same
            cases same
      | validator v =>
          obtain ⟨passed, refused⟩ := processRemoteBlock_of_idle p signer
            disk subscribed idle block
          refine ⟨begun, ?_, ?_⟩
          · intro closes
            have same : (performTx p signer (.validator v)
                (.processRemoteBlock disk subscribed block)).1.database =
                v.chain.db := refused (closes v rfl)
            rw [same]
            exact idle
          · intro open'
            by_contra closed
            refine open' ?_
            rintro _ ⟨⟩ passes
            have same : (performTx p signer (.validator v)
                (.processRemoteBlock disk subscribed block)).1.database =
                ⟨v.chain.db.db, true, Rawdb.blockChanges p block⟩ :=
              passed passes
            rw [same] at closed
            exact closed rfl

variable {p signer}

/-- Which operations close their transaction, and that `BeginTx` always
succeeds in a serial run of operations that do. -/
theorem transactions_closed (idle : node.database.Idle) :
    (∀ operation,
      (node.performTx p signer operation).1.database.inBatch = false ↔
        node.Closes p signer operation) ∧
    ∀ operations, StepsMeet (performTx p signer) (Closes p signer) node
        operations →
      (∀ answer ∈ (execute (performTx p signer) node operations).2,
        answer = true) ∧
      (execute (performTx p signer) node operations).1.database.inBatch =
        false := by
  constructor
  · intro operation
    obtain ⟨_, closed, opened⟩ :=
      performTx_of_idle p signer idle operation
    constructor
    · intro closes
      by_contra stays
      rw [opened stays] at closes
      cases closes
    · intro closes
      exact (closed closes).1
  · intro operations closes
    have final := execute_induction (performTx p signer) (Closes p signer)
      (fun _ node answers => node.database.Idle ∧
        ∀ answer ∈ answers, answer = true)
      (by
        intro _ node answers operation holds closes
        obtain ⟨begun, closed, _⟩ :=
          performTx_of_idle p signer holds.1 operation
        refine ⟨closed closes, ?_⟩
        intro answer member
        rcases List.mem_append.mp member with earlier | last
        · exact holds.2 answer earlier
        · exact begun answer last)
      ⟨idle, nofun⟩ closes
    exact ⟨final.2, final.1.1⟩

end Node

theorem deposit_and_markers_closed :
    (execute (Node.performTx Sample.primitives Sample.signer)
        Sample.validator
        [.writeBlock true Sample.depositBlock,
          .delLastBlockEventHash (fun _ => true) true [0]]).2 =
        [true, true] ∧
      (execute (Node.performTx Sample.primitives Sample.signer)
        Sample.validator
        [.writeBlock true Sample.depositBlock,
          .delLastBlockEventHash (fun _ => true) true
            [0]]).1.database.inBatch = false := by
  have idle : Sample.validator.database.Idle := ⟨rfl, rfl⟩
  have closes : StepsMeet (Node.performTx Sample.primitives Sample.signer)
      (Node.Closes Sample.primitives Sample.signer) Sample.validator
      [.writeBlock true Sample.depositBlock,
        .delLastBlockEventHash (fun _ => true) true [0]] :=
    ⟨trivial, trivial, trivial⟩
  refine ⟨by decide +kernel, ?_⟩
  exact ((Node.transactions_closed idle).2 _ closes).2

/-- A valid remote block: the transaction stays open and the next block is
refused. -/
theorem remote_block_leaves_transaction_open :
    (execute (Node.performTx Sample.primitives Sample.signer)
        Sample.validator
        [.processRemoteBlock true true Sample.emptyBlock,
          .writeBlock true Sample.depositBlock]).2 = [true, false] ∧
      ((Sample.validator.performTx Sample.primitives Sample.signer
        (.processRemoteBlock true true
          Sample.emptyBlock)).1.database.inBatch = true) := by
  constructor
  · decide +kernel
  · decide +kernel

end Plasma.Core
