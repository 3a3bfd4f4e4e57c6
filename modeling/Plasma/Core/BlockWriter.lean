import Plasma.Core.BlockChain

/-!
# Writing a block inside one database transaction

`Operator.WriteBlock` and `Validator.WriteBlock` open a database transaction,
write the block on one of two paths, move the head, broadcast the block,
replace the spent outputs by the created ones and commit.  They differ in how
the loop over the outputs treats a failed deletion, which is a parameter here.
-/

namespace Plasma.Core

open Plasma.Lib Plasma.Store

inductive WriteError where
  | databaseRace
  | block (failure : BlockError)
  | db (failure : DbError)
deriving DecidableEq, Repr

inductive NodeEvent where
  | broadcast (block : Block)
  | committed (block : Block)
  | submitted (block : Block)
deriving DecidableEq, Repr

def committedBlocks (events : List NodeEvent) : List Block :=
  events.filterMap fun event =>
    match event with
    | .committed block => some block
    | _ => none

/-- The two writers take `WriteDepositBlock` when this holds. -/
def Block.onDepositPath (block : Block) : Bool :=
  (int64 block.header.number).tmod 1000 != 0

/-- A small number tells which path its block takes. -/
theorem Block.onDepositPath_iff {block : Block} (nonneg : 0 ≤ block.number)
    (small : block.number < 2 ^ 63) :
    block.onDepositPath = true ↔ ¬ 1000 ∣ block.number := by
  have read : int64 block.header.number = block.number :=
    int64_of_small nonneg small
  rw [Block.onDepositPath, read, bne_iff_ne, ne_eq, Int.dvd_iff_tmod_eq_zero]

/-- The output a position of a block creates. -/
def createdUTXO (number : UInt64) (txIdx outIdx : Nat) (out : TxOut) : UTXO :=
  { utxoid := ⟨number, UInt32.ofNat txIdx, UInt8.ofNat outIdx⟩
    txOut := ⟨out.owner, out.amount⟩ }

/-- The loop over the outputs of one transaction. -/
def putOutputs (disk : Bool) (number : UInt64) (txIdx : Nat) :
    Nat → List TxOut → Database → Database × Except DbError Unit
  | _, [], d => (d, .ok ())
  | outIdx, out :: rest, d =>
      match Rawdb.writeUTXO disk (createdUTXO number txIdx outIdx out) d with
      | (d, .error failure) => (d, .error failure)
      | (d, .ok _) => putOutputs disk number txIdx (outIdx + 1) rest d

/-- The loop over the transactions of a block, with the loop over the inputs of
one transaction as a parameter. -/
def replaceOutputs
    (removeInputs : List UTXO → Database → Database × Except DbError Unit)
    (disk : Bool) (number : UInt64) :
    Nat → List Transaction → Database → Database × Except DbError Unit
  | _, [], d => (d, .ok ())
  | txIdx, tx :: rest, d =>
      match removeInputs tx.getInsCopy d with
      | (d, .error failure) => (d, .error failure)
      | (d, .ok _) =>
          match putOutputs disk number txIdx 0 tx.getOutsCopy d with
          | (d, .error failure) => (d, .error failure)
          | (d, .ok _) =>
              replaceOutputs removeInputs disk number (txIdx + 1) rest d

namespace BlockChain

def rollback (chain : BlockChain) : BlockChain :=
  { chain with db := chain.db.rollbackTx.1 }

/-- The path of a block is chosen by its number alone. -/
def writeByNumber (p : Primitives) (signer : EIP155Signer) (disk : Bool)
    (chain : BlockChain) (block : Block) :
    BlockChain × Except BlockError Unit :=
  if block.onDepositPath then chain.writeDepositBlock p disk block
  else chain.writeBlock p signer disk block

/-- Only a block with a larger number than the current one becomes the
head. -/
def advanceHead (p : Primitives) (disk : Bool) (chain : BlockChain)
    (block : Block) : BlockChain :=
  if block.number > chain.currentBlock.number then
    chain.replaceHead p disk block
  else chain

/-- Loop over the outputs and commit; any failure is rolled back. -/
def finishWrite
    (removeInputs : List UTXO → Database → Database × Except DbError Unit)
    (disk : Bool) (chain : BlockChain) (block : Block) :
    BlockChain × List NodeEvent × Except WriteError Unit :=
  match replaceOutputs removeInputs disk block.numberU64 0 block.transactions
      chain.db with
  | (db, .error failure) =>
      (rollback { chain with db := db }, [], .error (.db failure))
  | (db, .ok _) =>
      match db.commitTx disk with
      | (db, .error failure) =>
          (rollback { chain with db := db }, [], .error (.db failure))
      | (db, .ok _) => ({ chain with db := db }, [.committed block], .ok ())

/-- The common body of the two writers. -/
def writeWith
    (removeInputs : List UTXO → Database → Database × Except DbError Unit)
    (p : Primitives) (signer : EIP155Signer) (disk : Bool)
    (chain : BlockChain) (block : Block) :
    BlockChain × List NodeEvent × Except WriteError Unit :=
  match chain.db.beginTx with
  | (_, false) => (chain, [], .error .databaseRace)
  | (db, true) =>
      match writeByNumber p signer disk { chain with db := db } block with
      | (chain, .error failure) =>
          (chain.rollback, [], .error (.block failure))
      | (chain, .ok _) =>
          let (chain, events, result) :=
            (chain.advanceHead p disk block).finishWrite removeInputs disk block
          (chain, .broadcast block :: events, result)

end BlockChain

/-- The changes one transaction makes to the outputs, in order. -/
def txChanges (number : UInt64) (txIdx : Nat) (tx : Transaction) :
    List (Change UTXOID StoredOut) :=
  [.delete tx.ins.1.id, .delete tx.ins.2.id,
    .put ⟨number, UInt32.ofNat txIdx, 0⟩
      ⟨tx.outs.1.owner, tx.outs.1.amount.natAbs⟩,
    .put ⟨number, UInt32.ofNat txIdx, 1⟩
      ⟨tx.outs.2.owner, tx.outs.2.amount.natAbs⟩]

def txsChanges (number : UInt64) :
    Nat → List Transaction → List (Change UTXOID StoredOut)
  | _, [] => []
  | txIdx, tx :: rest =>
      txChanges number txIdx tx ++ txsChanges number (txIdx + 1) rest

/-- The changes a written block makes to the outputs. -/
def Block.changes (block : Block) : List (Change UTXOID StoredOut) :=
  txsChanges block.numberU64 0 block.transactions

/-- A put of block data: a header, a body, a number or a head pointer under its
own key. -/
def isBlockData : Change DbKey DbValue → Bool
  | .put (.canonicalHash _) (.hash _) => true
  | .put (.headerNumber _) (.number _) => true
  | .put (.header _ _) (.header _) => true
  | .put (.body _ _) (.body _) => true
  | .put .headHeader (.hash _) => true
  | .put .headBlock (.hash _) => true
  | .put .headFastBlock (.hash _) => true
  | _ => false

/-- A change of the outputs as a change of the database. -/
def outputChange : Change UTXOID StoredOut → Change DbKey DbValue
  | .delete id => .delete (.utxo id)
  | .put id out => .put (.utxo id) (.utxo out)

@[simp] theorem utxoChanges_map_outputChange
    (changes : List (Change UTXOID StoredOut)) :
    Rawdb.utxoChanges (changes.map outputChange) = changes := by
  induction changes with
  | nil => rfl
  | cons change changes induction =>
      cases change <;> simp [outputChange, Rawdb.utxoChanges, induction]

/-- Inside a transaction the loop over the inputs only appends deletions. -/
def BuffersDeletions
    (removeInputs : List UTXO → Database → Database × Except DbError Unit) :
    Prop :=
  ∀ ins contents batch,
    removeInputs ins ⟨contents, true, batch⟩ =
      (⟨contents, true,
        batch ++ ins.map fun input => .delete (.utxo input.id)⟩, .ok ())

theorem replaceOutputs_inBatch
    {removeInputs : List UTXO → Database → Database × Except DbError Unit}
    (buffers : BuffersDeletions removeInputs) (disk : Bool)
    (number : UInt64) (txIdx : Nat) (txs : List Transaction)
    (contents : Contents) (batch : List (Change DbKey DbValue)) :
    replaceOutputs removeInputs disk number txIdx txs
        ⟨contents, true, batch⟩ =
      (⟨contents, true,
        batch ++ (txsChanges number txIdx txs).map outputChange⟩,
        .ok ()) := by
  induction txs generalizing txIdx batch with
  | nil => simp [replaceOutputs, txsChanges]
  | cons tx txs induction =>
      rw [replaceOutputs, buffers]
      simp [putOutputs, Transaction.getOutsCopy, Transaction.getInsCopy,
        Rawdb.writeUTXO, createdUTXO, UTXO.id, induction, txsChanges,
        txChanges, outputChange]

namespace BlockChain

variable (p : Primitives)

/-- The answer of the path a block takes. -/
def verdict (signer : EIP155Signer) (chain : BlockChain) (block : Block) :
    Except BlockError Unit :=
  if block.onDepositPath then .ok ()
  else
    UtxoBlockValidator.validateBody p signer
      (chain.hasBlock p (block.hash p) block.numberU64).2
      (Rawdb.readUTXO chain.db) block

/-- The chain after the lookup the validated path makes. -/
def viewed (chain : BlockChain) (block : Block) : BlockChain :=
  if block.onDepositPath then chain
  else (chain.hasBlock p (block.hash p) block.numberU64).1

/-- The head pointers in memory after a block has been written. -/
def headed (chain : BlockChain) (block : Block) : BlockChain :=
  if block.number > chain.currentBlock.number then
    if Rawdb.readCanonicalHash chain.db block.numberU64 != block.hash p then
      { chain with
        currentBlock := block
        currentHeader := block.header
        currentFastBlock := block }
    else { chain with currentBlock := block }
  else chain

/-- The batch that writing a block fills. -/
def writeBatch (chain : BlockChain) (block : Block) :
    List (Change DbKey DbValue) :=
  Rawdb.blockChanges p block ++
    (if block.number > chain.currentBlock.number then
      chain.headChanges p block
    else []) ++ block.changes.map outputChange

@[simp] theorem viewed_db (chain : BlockChain) (block : Block) :
    (chain.viewed p block).db = chain.db := by
  unfold viewed
  split
  · rfl
  · exact hasBlock_db p chain _ _

theorem viewed_heads (chain : BlockChain) (block : Block) :
    (chain.viewed p block).currentBlock = chain.currentBlock ∧
      (chain.viewed p block).currentHeader = chain.currentHeader ∧
      (chain.viewed p block).currentFastBlock = chain.currentFastBlock := by
  unfold viewed
  split
  · exact ⟨rfl, rfl, rfl⟩
  · exact hasBlock_heads p chain _ _

@[simp] theorem viewed_currentBlock (chain : BlockChain) (block : Block) :
    (chain.viewed p block).currentBlock = chain.currentBlock :=
  (viewed_heads p chain block).1

@[simp] theorem headed_db (chain : BlockChain) (block : Block) :
    (chain.headed p block).db = chain.db := by
  unfold headed
  split
  · split <;> rfl
  · rfl

@[simp] theorem headed_currentBlock (chain : BlockChain) (block : Block) :
    (chain.headed p block).currentBlock =
      if block.number > chain.currentBlock.number then block
      else chain.currentBlock := by
  unfold headed
  split
  · split <;> rfl
  · rfl

@[simp] theorem utxoChanges_writeBatch (chain : BlockChain) (block : Block) :
    Rawdb.utxoChanges (chain.writeBatch p block) = block.changes := by
  unfold writeBatch
  split <;> simp [Rawdb.utxoChanges_append]

/-- The keys a write of the block can touch. -/
def touches (block : Block) : DbKey → Prop
  | .canonicalHash number => number = block.numberU64
  | .headerNumber hash => hash = block.hash p
  | .header number hash => number = block.numberU64 ∧ hash = block.hash p
  | .body number hash => number = block.numberU64 ∧ hash = block.hash p
  | .utxo _ => True
  | .headHeader => True
  | .headBlock => True
  | .headFastBlock => True
  | .fromBlock => False
  | .eventMarker _ => False

private theorem touches_headChanges {chain : BlockChain} {block : Block}
    {change : Change DbKey DbValue}
    (member : change ∈ chain.headChanges p block) :
    touches p block change.key := by
  unfold headChanges at member
  rcases List.mem_append.mp member with first | heads
  · simp only [List.mem_cons, List.not_mem_nil, or_false] at first
    rcases first with rfl | rfl
    · exact rfl
    · trivial
  · split at heads
    · simp only [List.mem_cons, List.not_mem_nil, or_false] at heads
      rcases heads with rfl | rfl <;> trivial
    · cases heads

theorem touches_writeBatch {chain : BlockChain} {block : Block}
    {change : Change DbKey DbValue}
    (member : change ∈ chain.writeBatch p block) :
    touches p block change.key := by
  rcases List.mem_append.mp member with front | output
  · rcases List.mem_append.mp front with data | head
    · simp only [Rawdb.blockChanges, List.mem_cons, List.not_mem_nil,
        or_false] at data
      rcases data with rfl | rfl | rfl
      · exact ⟨rfl, rfl⟩
      · exact rfl
      · exact ⟨rfl, rfl⟩
    · split at head
      · exact touches_headChanges p head
      · cases head
  · obtain ⟨effect, _, rfl⟩ := List.mem_map.mp output
    cases effect <;> trivial

private theorem writeBatch_own {chain : BlockChain} {block : Block}
    {key : DbKey} (head : ∀ change ∈ chain.headChanges p block,
      change.key ≠ key) (output : ∀ id, key ≠ .utxo id) :
    applyAll (chain.writeBatch p block) chain.db.db key =
      applyAll (Rawdb.blockChanges p block) chain.db.db key := by
  rw [writeBatch, List.append_assoc, applyAll_append]
  apply applyAll_of_keys
  intro change member
  rcases List.mem_append.mp member with front | last
  · split at front
    · exact head change front
    · cases front
  · obtain ⟨effect, _, rfl⟩ := List.mem_map.mp last
    cases effect with
    | delete id => exact (output id).symm
    | put id out => exact (output id).symm

private theorem headChanges_key {chain : BlockChain} {block : Block}
    {change : Change DbKey DbValue}
    (member : change ∈ chain.headChanges p block) :
    (∀ number hash, change.key ≠ .header number hash) ∧
      ∀ number hash, change.key ≠ .body number hash := by
  unfold headChanges at member
  rcases List.mem_append.mp member with first | heads
  · simp only [List.mem_cons, List.not_mem_nil, or_false] at first
    rcases first with rfl | rfl <;> simp [Change.key]
  · split at heads
    · simp only [List.mem_cons, List.not_mem_nil, or_false] at heads
      rcases heads with rfl | rfl <;> simp [Change.key]
    · cases heads

theorem writeBatch_header (chain : BlockChain) (block : Block) :
    applyAll (chain.writeBatch p block) chain.db.db
      (.header block.numberU64 (block.hash p)) =
        some (Rawdb.headerData block.header) := by
  rw [writeBatch_own p (fun change member => (headChanges_key p member).1 _ _)
    (by simp)]
  simp [Rawdb.blockChanges, Change.apply, Change.outcome]

theorem writeBatch_body (chain : BlockChain) (block : Block) :
    applyAll (chain.writeBatch p block) chain.db.db
      (.body block.numberU64 (block.hash p)) =
        some (Rawdb.bodyData block.transactions) := by
  rw [writeBatch_own p (fun change member => (headChanges_key p member).2 _ _)
    (by simp)]
  simp [Rawdb.blockChanges, Change.apply, Change.outcome]

/-- The validated path inside a transaction. -/
theorem writeBlock_inBatch (signer : EIP155Signer) (disk : Bool)
    (chain : BlockChain) (block : Block) :
    writeBlock p signer disk { chain with db := ⟨chain.db.db, true, []⟩ }
        block =
      match UtxoBlockValidator.validateBody p signer
          (chain.hasBlock p (block.hash p) block.numberU64).2
          (Rawdb.readUTXO chain.db) block with
      | .error failure =>
          ({ (chain.hasBlock p (block.hash p) block.numberU64).1 with
              db := ⟨chain.db.db, true, []⟩ }, .error failure)
      | .ok _ =>
          ({ (chain.hasBlock p (block.hash p) block.numberU64).1 with
              db := ⟨chain.db.db, true, Rawdb.blockChanges p block⟩ },
            .ok ()) := by
  have lookup : ∀ hash number,
      ({ chain with db := ⟨chain.db.db, true, []⟩ } : BlockChain).hasBlock p
          hash number =
        ({ (chain.hasBlock p hash number).1 with
            db := ⟨chain.db.db, true, []⟩ },
          (chain.hasBlock p hash number).2) := by
    intro hash number
    simp only [hasBlock, getBlock, Rawdb.readBlock, Rawdb.readHeader,
      Rawdb.readBody, LDBDatabase.get]
    cases BlockCache.find chain.blockCache hash with
    | some found => rfl
    | none => grind
  have reader : Rawdb.readUTXO ⟨chain.db.db, true, []⟩ =
      Rawdb.readUTXO chain.db := rfl
  simp only [writeBlock, lookup, reader]
  cases UtxoBlockValidator.validateBody p signer
    (chain.hasBlock p (block.hash p) block.numberU64).2
    (Rawdb.readUTXO chain.db) block with
  | error failure => rfl
  | ok accepted => simp [Rawdb.writeBlock_inBatch]

private theorem writeByNumber_inBatch (signer : EIP155Signer) (disk : Bool)
    (chain : BlockChain) (block : Block) :
    writeByNumber p signer disk
        { chain with db := ⟨chain.db.db, true, []⟩ } block =
      match chain.verdict p signer block with
      | .error failure =>
          ({ chain.viewed p block with db := ⟨chain.db.db, true, []⟩ },
            .error failure)
      | .ok _ =>
          ({ chain.viewed p block with
              db := ⟨chain.db.db, true, Rawdb.blockChanges p block⟩ },
            .ok ()) := by
  unfold writeByNumber verdict viewed
  cases path : block.onDepositPath with
  | true => simp [writeDepositBlock, Rawdb.writeBlock_inBatch]
  | false => simp only [Bool.false_eq_true, if_false, writeBlock_inBatch]

private theorem advanceHead_inBatch (disk : Bool) (chain : BlockChain)
    (block : Block) (batch : List (Change DbKey DbValue)) :
    advanceHead p disk { chain with db := ⟨chain.db.db, true, batch⟩ } block =
      { chain.headed p block with
        db := ⟨chain.db.db, true, batch ++
          if block.number > chain.currentBlock.number then
            chain.headChanges p block
          else []⟩ } := by
  unfold advanceHead headed
  by_cases larger : block.number > chain.currentBlock.number
  · have committedView :
        Rawdb.readCanonicalHash ⟨chain.db.db, true, batch⟩ block.numberU64 =
          Rawdb.readCanonicalHash chain.db block.numberU64 := rfl
    simp only [larger, if_true, replaceHead, insert, headChanges,
      committedView]
    cases Rawdb.readCanonicalHash chain.db block.numberU64 != block.hash p <;>
      simp [setCurrentHeader, Rawdb.writeCanonicalHash,
        Rawdb.writeHeadBlockHash, Rawdb.writeHeadHeaderHash,
        Rawdb.writeHeadFastBlockHash, Block.hash]
  · simp [larger]

section

variable {removeInputs :
  List UTXO → Database → Database × Except DbError Unit}

private theorem finishWrite_inBatch (buffers : BuffersDeletions removeInputs)
    (disk : Bool) (chain : BlockChain) (block : Block) (contents : Contents)
    (batch : List (Change DbKey DbValue)) :
    finishWrite removeInputs disk
        { chain with db := ⟨contents, true, batch⟩ } block =
      if disk then
        ({ chain with
            db := ⟨applyAll (batch ++ block.changes.map outputChange)
              contents, false, []⟩ }, [.committed block], .ok ())
      else
        ({ chain with db := ⟨contents, false, []⟩ }, [],
          .error (.db .writeFailed)) := by
  simp only [finishWrite]
  rw [replaceOutputs_inBatch buffers]
  cases disk with
  | true => rfl
  | false => rfl

theorem writeWith_of_busy (signer : EIP155Signer) (disk : Bool)
    {chain : BlockChain} (block : Block) (busy : chain.db.inBatch = true) :
    writeWith removeInputs p signer disk chain block =
      (chain, [], .error .databaseRace) := by
  unfold writeWith
  rw [LDBDatabase.beginTx_of_open busy]

/-- What writing a block does when no transaction is open. -/
theorem writeWith_of_idle (buffers : BuffersDeletions removeInputs)
    (signer : EIP155Signer) (disk : Bool) (chain : BlockChain)
    (block : Block) (idle : chain.db.Idle) :
    writeWith removeInputs p signer disk chain block =
      match chain.verdict p signer block with
      | .error failure =>
          (chain.viewed p block, [], .error (.block failure))
      | .ok _ =>
          if disk then
            ({ (chain.viewed p block).headed p block with
                db := ⟨applyAll (chain.writeBatch p block) chain.db.db,
                  false, []⟩ },
              [.broadcast block, .committed block], .ok ())
          else
            ((chain.viewed p block).headed p block, [.broadcast block],
              .error (.db .writeFailed)) := by
  have closed := idle.eq_mk
  have restored : ∀ view : BlockChain, view.db = chain.db →
      { view with db := ⟨chain.db.db, false, []⟩ } = view := by
    intro view same
    rw [← closed, ← same]
  unfold writeWith
  rw [LDBDatabase.beginTx_of_idle idle]
  simp only [writeByNumber_inBatch]
  cases chain.verdict p signer block with
  | error failure =>
      simp only [rollback, LDBDatabase.rollbackTx_inBatch]
      rw [restored _ (viewed_db p chain block)]
  | ok accepted =>
      have committedView : chain.db.db = (chain.viewed p block).db.db := by
        rw [viewed_db]
      have headView : (chain.viewed p block).headChanges p block =
          chain.headChanges p block := by
        simp only [headChanges, viewed_db]
      simp only [committedView, advanceHead_inBatch,
        finishWrite_inBatch buffers]
      cases disk with
      | true => simp [writeBatch, headView]
      | false =>
          simp only [viewed_db, Bool.false_eq_true, if_false]
          rw [restored _ (by simp)]

/-- A write leaves the database as it was and reports an error, or commits the
batch of the block. A higher block becomes the head even when the commit
fails. -/
theorem writeWith_head (buffers : BuffersDeletions removeInputs)
    (signer : EIP155Signer) (disk : Bool) (chain : BlockChain)
    (block : Block) (idle : chain.db.Idle) :
    ((writeWith removeInputs p signer disk chain block).1.db = chain.db ∧
      committedBlocks
        (writeWith removeInputs p signer disk chain block).2.1 = [] ∧
      (∃ failure, (writeWith removeInputs p signer disk chain block).2.2 =
        .error failure) ∧
      ¬ (chain.verdict p signer block = .ok () ∧ disk = true) ∧
      ((writeWith removeInputs p signer disk chain block).1.currentBlock =
          chain.currentBlock ∨
        (chain.verdict p signer block = .ok () ∧ disk = false ∧
          block.number > chain.currentBlock.number ∧
          (writeWith removeInputs p signer disk chain block).1.currentBlock =
            block))) ∨
    ((writeWith removeInputs p signer disk chain block).1.db =
        ⟨applyAll (chain.writeBatch p block) chain.db.db, false, []⟩ ∧
      (writeWith removeInputs p signer disk chain block).2 =
        ([.broadcast block, .committed block], .ok ()) ∧
      chain.verdict p signer block = .ok () ∧ disk = true ∧
      (writeWith removeInputs p signer disk chain block).1.currentBlock =
        if block.number > chain.currentBlock.number then block
        else chain.currentBlock) := by
  have head : ((chain.viewed p block).headed p block).currentBlock =
      if block.number > chain.currentBlock.number then block
      else chain.currentBlock := by simp
  rw [writeWith_of_idle p buffers signer disk chain block idle]
  cases verdict : chain.verdict p signer block with
  | error failure =>
      left
      refine ⟨viewed_db p chain block, rfl, ⟨_, rfl⟩, ?_,
        .inl (viewed_currentBlock p chain block)⟩
      rintro ⟨⟨⟩, _⟩
  | ok accepted =>
      cases disk with
      | false =>
          left
          have same : ((chain.viewed p block).headed p block).db =
              chain.db := by simp
          refine ⟨same, rfl, ⟨_, rfl⟩, ?_, ?_⟩
          · rintro ⟨_, ⟨⟩⟩
          · by_cases raises : block.number > chain.currentBlock.number
            · rw [if_pos raises] at head
              exact .inr ⟨rfl, rfl, raises, head⟩
            · rw [if_neg raises] at head
              exact .inl head
      | true =>
          right
          exact ⟨rfl, rfl, rfl, rfl, head⟩

theorem writeWith_cases (buffers : BuffersDeletions removeInputs)
    (signer : EIP155Signer) (disk : Bool) (chain : BlockChain)
    (block : Block) (idle : chain.db.Idle) :
    ((writeWith removeInputs p signer disk chain block).1.db = chain.db ∧
      committedBlocks
        (writeWith removeInputs p signer disk chain block).2.1 = [] ∧
      (∃ failure, (writeWith removeInputs p signer disk chain block).2.2 =
        .error failure) ∧
      ¬ (chain.verdict p signer block = .ok () ∧ disk = true)) ∨
    ((writeWith removeInputs p signer disk chain block).1.db =
        ⟨applyAll (chain.writeBatch p block) chain.db.db, false, []⟩ ∧
      (writeWith removeInputs p signer disk chain block).2 =
        ([.broadcast block, .committed block], .ok ()) ∧
      chain.verdict p signer block = .ok () ∧ disk = true) := by
  rcases writeWith_head p buffers signer disk chain block idle with
    ⟨same, silent, failed, refused, _⟩ |
      ⟨applied, outcome, verdict, commits, _⟩
  · exact .inl ⟨same, silent, failed, refused⟩
  · exact .inr ⟨applied, outcome, verdict, commits⟩

/-- A write that succeeds found no transaction open and an accepted block. -/
theorem writeWith_of_ok (buffers : BuffersDeletions removeInputs)
    {signer : EIP155Signer} {disk : Bool} {chain : BlockChain} {block : Block}
    (clean : chain.db.Clean)
    (success : (writeWith removeInputs p signer disk chain block).2.2 =
      .ok ()) :
    chain.db.Idle ∧ chain.verdict p signer block = .ok () ∧
      (writeWith removeInputs p signer disk chain block).1 =
        { (chain.viewed p block).headed p block with
          db := ⟨applyAll (chain.writeBatch p block) chain.db.db, false,
            []⟩ } := by
  cases busy : chain.db.inBatch with
  | true =>
      rw [writeWith_of_busy p signer disk block busy] at success
      cases success
  | false =>
      have idle : chain.db.Idle := ⟨busy, clean busy⟩
      have written := writeWith_of_idle p buffers signer disk chain block idle
      cases verdict : chain.verdict p signer block with
      | error failure =>
          rw [written, verdict] at success
          cases success
      | ok valid =>
          cases disk with
          | false =>
              rw [written, verdict] at success
              cases success
          | true =>
              rw [verdict] at written
              exact ⟨idle, rfl, congrArg Prod.fst written⟩

/-- The recorded outputs after a committed write. -/
theorem utxos_writeBatch (chain : BlockChain) (block : Block) :
    Rawdb.utxos (applyAll (chain.writeBatch p block) chain.db.db) =
      applyAll block.changes chain.utxoSet := by
  rw [Rawdb.utxos_applyAll, utxoChanges_writeBatch]
  rfl

end

end BlockChain

end Plasma.Core
