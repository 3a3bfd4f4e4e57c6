import Plasma.Core.BlockValidator
import Plasma.Core.Rawdb

/-!
# The block chain

The parts of `BlockChain` and `HeaderChain` that writing a block runs: block
lookup through the LRU cache, the two ways of writing a block, and the update
of the head pointers in memory and in the database.
-/

namespace Plasma.Core

open Plasma.Lib Plasma.Store

def blockCacheLimit : Nat := 256

/-- Most recently used entries first. -/
abbrev BlockCache := List (Hash × Block)

namespace BlockCache

def find (cache : BlockCache) (hash : Hash) : Option Block :=
  (List.find? (fun entry => entry.1 == hash) cache).map Prod.snd

/-- Move or add an entry to the front and evict the oldest one beyond the
limit. -/
def touch (cache : BlockCache) (hash : Hash) (block : Block) : BlockCache :=
  ((hash, block) :: cache.filter fun entry => entry.1 != hash).take
    blockCacheLimit

end BlockCache

abbrev UtxoSet := UTXOID → Option StoredOut

structure BlockChain where
  db : Database
  currentBlock : Block
  currentHeader : Header
  currentFastBlock : Block
  blockCache : BlockCache

namespace BlockChain

section

variable (p : Primitives)

def getBlock (chain : BlockChain) (hash : Hash) (number : UInt64) :
    BlockChain × Option Block :=
  match BlockCache.find chain.blockCache hash with
  | some block =>
      ({ chain with
          blockCache := BlockCache.touch chain.blockCache hash block },
        some block)
  | none =>
      match Rawdb.readBlock chain.db hash number with
      | none => (chain, none)
      | some block =>
          ({ chain with
              blockCache :=
                BlockCache.touch chain.blockCache (block.hash p) block },
            some block)

def hasBlock (chain : BlockChain) (hash : Hash) (number : UInt64) :
    BlockChain × Bool :=
  let (chain, found) := chain.getBlock p hash number
  (chain, found.isSome)

/-- Validate the body first, then write the block. -/
def writeBlock (signer : EIP155Signer) (disk : Bool) (chain : BlockChain)
    (block : Block) : BlockChain × Except BlockError Unit :=
  let (chain, known) :=
    chain.hasBlock p (block.hash p) block.numberU64
  match UtxoBlockValidator.validateBody p signer known
      (Rawdb.readUTXO chain.db) block with
  | .error failure => (chain, .error failure)
  | .ok _ =>
      ({ chain with db := Rawdb.writeBlock disk p block chain.db }, .ok ())

/-- Write the block without any validation. -/
def writeDepositBlock (disk : Bool) (chain : BlockChain) (block : Block) :
    BlockChain × Except BlockError Unit :=
  ({ chain with db := Rawdb.writeBlock disk p block chain.db }, .ok ())

def setCurrentHeader (disk : Bool) (chain : BlockChain) (head : Header) :
    BlockChain :=
  { chain with
    db := Rawdb.writeHeadHeaderHash disk (p.headerHash head) chain.db
    currentHeader := head }

/-- Make a block the head of the chain.  The canonical index is read from the
committed contents. -/
def insert (disk : Bool) (chain : BlockChain) (block : Block) : BlockChain :=
  let updateHeads :=
    Rawdb.readCanonicalHash chain.db block.numberU64 != block.hash p
  let db := Rawdb.writeCanonicalHash disk (block.hash p) block.numberU64
    chain.db
  let db := Rawdb.writeHeadBlockHash disk (block.hash p) db
  let chain := { chain with db := db, currentBlock := block }
  if updateHeads then
    let chain := chain.setCurrentHeader p disk block.header
    { chain with
      db := Rawdb.writeHeadFastBlockHash disk (block.hash p) chain.db
      currentFastBlock := block }
  else chain

def replaceHead (disk : Bool) (chain : BlockChain) (block : Block) :
    BlockChain :=
  chain.insert p disk block

end

/-- The recorded outputs a chain has committed. -/
def utxoSet (chain : BlockChain) : UtxoSet :=
  Rawdb.utxos chain.db.db

@[simp] theorem getBlock_db (p : Primitives) (chain : BlockChain)
    (hash : Hash) (number : UInt64) :
    (chain.getBlock p hash number).1.db = chain.db := by
  unfold getBlock
  split
  · rfl
  · split <;> rfl

@[simp] theorem hasBlock_db (p : Primitives) (chain : BlockChain)
    (hash : Hash) (number : UInt64) :
    (chain.hasBlock p hash number).1.db = chain.db := by
  simp [hasBlock]

/-- `HasBlock` keeps the head pointers. -/
theorem hasBlock_heads (p : Primitives) (chain : BlockChain)
    (hash : Hash) (number : UInt64) :
    (chain.hasBlock p hash number).1.currentBlock = chain.currentBlock ∧
      (chain.hasBlock p hash number).1.currentHeader =
        chain.currentHeader ∧
      (chain.hasBlock p hash number).1.currentFastBlock =
        chain.currentFastBlock := by
  unfold hasBlock getBlock
  cases BlockCache.find chain.blockCache hash with
  | some block => exact ⟨rfl, rfl, rfl⟩
  | none =>
      cases Rawdb.readBlock chain.db hash number with
      | none => exact ⟨rfl, rfl, rfl⟩
      | some block => exact ⟨rfl, rfl, rfl⟩

/-- A block whose header and body are committed is known. -/
theorem hasBlock_of_committed (p : Primitives) (chain : BlockChain)
    {hash : Hash} {number : UInt64} {header : Header}
    {transactions : List Transaction}
    (headerStored : chain.db.db (.header number hash) =
      some (.header header))
    (bodyStored : chain.db.db (.body number hash) =
      some (.body transactions)) :
    (chain.hasBlock p hash number).2 = true := by
  have stored : Rawdb.readBlock chain.db hash number =
      some ⟨header, transactions⟩ := by
    simp [Rawdb.readBlock, Rawdb.readHeader, Rawdb.readBody,
      LDBDatabase.get, headerStored, bodyStored]
  unfold hasBlock getBlock
  cases BlockCache.find chain.blockCache hash with
  | some block => rfl
  | none => simp [stored]

/-- The changes of the head pointers that `insert` issues. -/
def headChanges (p : Primitives) (chain : BlockChain) (block : Block) :
    List (Change DbKey DbValue) :=
  [.put (.canonicalHash block.numberU64) (.hash (block.hash p)),
    .put .headBlock (.hash (block.hash p))] ++
  if Rawdb.readCanonicalHash chain.db block.numberU64 != block.hash p then
    [.put .headHeader (.hash (block.hash p)),
      .put .headFastBlock (.hash (block.hash p))]
  else []

theorem insert_inBatch (p : Primitives) (disk : Bool) (chain : BlockChain)
    (block : Block) {contents : Contents}
    {batch : List (Change DbKey DbValue)}
    (buffered : chain.db = ⟨contents, true, batch⟩) :
    (chain.insert p disk block).db =
      ⟨contents, true, batch ++ chain.headChanges p block⟩ := by
  unfold insert headChanges
  split <;> simp_all [Rawdb.writeCanonicalHash, Rawdb.writeHeadBlockHash,
    Rawdb.writeHeadHeaderHash, Rawdb.writeHeadFastBlockHash,
    setCurrentHeader, Block.hash]

@[simp] theorem utxoChanges_headChanges (p : Primitives)
    (chain : BlockChain) (block : Block) :
    Rawdb.utxoChanges (chain.headChanges p block) = [] := by
  unfold headChanges
  split <;> rfl

end BlockChain

end Plasma.Core
