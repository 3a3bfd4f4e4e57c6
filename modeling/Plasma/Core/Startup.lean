import Plasma.Core.Operator

/-!
# Starting a node

`SetupGenesisBlock` writes the genesis block into an empty database,
`NewBlockChain` loads the heads from the database and `NewOperator` derives the
counter of child blocks from the head header.  The caches of the header chain
are empty at this point and only repeat what the database holds.
-/

namespace Plasma.Core

open Plasma.Lib Plasma.Store

inductive StartError where
  | genesisNumber
  | genesisMismatch (stored new : Hash)
  | noGenesis
  | headNotFound
  | headBlockNotFound
deriving DecidableEq, Repr

structure Genesis where
  number : UInt64
  timestamp : UInt64
  parentHash : Hash
  extraData : List UInt8
  coinbase : Address
deriving DecidableEq, Repr

namespace Genesis

def toBlock (p : Primitives) (g : Genesis) : Block :=
  Block.newBlock p
    { parentHash := g.parentHash
      coinbase := g.coinbase
      txHash := 0
      number := g.number.toNat
      time := g.timestamp.toNat
      extra := g.extraData } []

/-- The writes go to the disk directly; their answers are not looked at. -/
def commit (p : Primitives) (disk : Bool) (g : Genesis) (d : Database) :
    Except StartError (Database × Block) :=
  let block := g.toBlock p
  if block.number ≠ 0 then .error .genesisNumber
  else
    let d := Rawdb.writeBlock disk p block d
    let d := Rawdb.writeCanonicalHash disk (block.hash p) block.numberU64 d
    let d := Rawdb.writeHeadBlockHash disk (block.hash p) d
    let d := Rawdb.writeHeadHeaderHash disk (block.hash p) d
    .ok (d, block)

def defaultGenesisBlock : Genesis :=
  { number := 0
    timestamp := 0
    parentHash := 0
    extraData :=
      [0x11, 0xbb, 0xe8, 0xdb, 0x4e, 0x34, 0x7b, 0x4e, 0x8c, 0x93, 0x7c,
        0x1c, 0x83, 0x70, 0xe4, 0xb5, 0xed, 0x33, 0xad, 0xb3, 0xdb, 0x69,
        0xcb, 0xdb, 0x7a, 0x38, 0xe1, 0xe5, 0x0b, 0x1b, 0x82, 0xfa]
    coinbase := 0 }

end Genesis

/-- A stored genesis block is only compared with a given one. -/
def setupGenesisBlock (p : Primitives) (disk : Bool)
    (genesis : Option Genesis) (d : Database) :
    Database × Except StartError Unit :=
  let stored := Rawdb.readCanonicalHash d 0
  if stored = 0 then
    match (genesis.getD Genesis.defaultGenesisBlock).commit p disk d with
    | .error failure => (d, .error failure)
    | .ok (d, _) => (d, .ok ())
  else
    match genesis with
    | none => (d, .ok ())
    | some given =>
        let hash := (given.toBlock p).hash p
        if hash ≠ stored then (d, .error (.genesisMismatch stored hash))
        else (d, .ok ())

namespace BlockChain

def getBlockByHash (p : Primitives) (chain : BlockChain) (hash : Hash) :
    BlockChain × Option Block :=
  match Rawdb.readHeaderNumber chain.db hash with
  | none => (chain, none)
  | some number => chain.getBlock p hash number

def getHeaderByHash (chain : BlockChain) (hash : Hash) : Option Header :=
  match Rawdb.readHeaderNumber chain.db hash with
  | none => none
  | some number => Rawdb.readHeader chain.db hash number

def getBlockByNumber (p : Primitives) (chain : BlockChain)
    (number : UInt64) : BlockChain × Option Block :=
  let hash := Rawdb.readCanonicalHash chain.db number
  if hash = 0 then (chain, none) else chain.getBlock p hash number

/-- The fast head falls back to the head block. -/
def loadFastBlock (p : Primitives) (chain : BlockChain) : BlockChain :=
  let chain := { chain with currentFastBlock := chain.currentBlock }
  let head := Rawdb.readHeadFastBlockHash chain.db
  if head = 0 then chain
  else
    match chain.getBlockByHash p head with
    | (chain, none) => chain
    | (chain, some block) => { chain with currentFastBlock := block }

/-- The head header falls back to the header of the head block. -/
def loadHeader (p : Primitives) (disk : Bool) (chain : BlockChain) :
    BlockChain :=
  let head := Rawdb.readHeadHeaderHash chain.db
  let currentHeader :=
    if head = 0 then chain.currentBlock.header
    else (chain.getHeaderByHash head).getD chain.currentBlock.header
  chain.setCurrentHeader p disk currentHeader

def loadLastState (p : Primitives) (disk : Bool) (chain : BlockChain) :
    Except StartError BlockChain :=
  let head := Rawdb.readHeadBlockHash chain.db
  if head = 0 then .error .headNotFound
  else
    match chain.getBlockByHash p head with
    | (_, none) => .error .headBlockNotFound
    | (chain, some block) =>
        let chain := { chain with currentBlock := block }
        .ok ((chain.loadHeader p disk).loadFastBlock p)

/-- The heads of the record are placeholders until the genesis block and the
last state have been loaded. -/
def newBlockChain (p : Primitives) (disk : Bool) (d : Database) :
    Except StartError BlockChain :=
  let hash := Rawdb.readCanonicalHash d 0
  if hash = 0 then .error .noGenesis
  else
    match Rawdb.readBlock d hash 0 with
    | none => .error .noGenesis
    | some genesisBlock =>
        let chain : BlockChain :=
          { db := d
            currentBlock := genesisBlock
            currentHeader := genesisBlock.header
            currentFastBlock := genesisBlock
            blockCache := [] }
        loadLastState p disk (chain.getBlock p hash 0).1

end BlockChain

/-- The start of a node's block chain over a database. -/
def startChain (p : Primitives) (disk : Bool) (d : Database) :
    Except StartError BlockChain :=
  match setupGenesisBlock p disk none d with
  | (_, .error failure) => .error failure
  | (d, .ok _) => BlockChain.newBlockChain p disk d

/-- The start of an operator process over a database. -/
def startOperator (p : Primitives) (disk : Bool) (addr : Address)
    (d : Database) : Except StartError Operator :=
  match startChain p disk d with
  | .error failure => .error failure
  | .ok chain => .ok (Operator.newOperator addr chain ⟨[], []⟩)

/-- A freshly created database. -/
def Database.empty : Database := ⟨fun _ => none, false, []⟩

section FirstStart

variable (p : Primitives)

def genesisBlock : Block := Genesis.defaultGenesisBlock.toBlock p

/-- The committed contents after the genesis commit. -/
def genesisContents : Contents :=
  applyAll
    (Rawdb.blockChanges p (genesisBlock p) ++
      [.put (.canonicalHash 0) (.hash ((genesisBlock p).hash p)),
        .put .headBlock (.hash ((genesisBlock p).hash p)),
        .put .headHeader (.hash ((genesisBlock p).hash p))]) fun _ => none

/-- The operator after the first start. -/
def genesisOperator (addr : Address) : Operator :=
  { addr := addr
    chain :=
      { db := ⟨genesisContents p, false, []⟩
        currentBlock := genesisBlock p
        currentHeader := (genesisBlock p).header
        currentFastBlock := genesisBlock p
        blockCache := [((genesisBlock p).hash p, genesisBlock p)] }
    txPool := ⟨[], []⟩
    currentChildBlock := 0 }

@[simp] theorem genesisBlock_number : (genesisBlock p).header.number = 0 := by
  simp [genesisBlock, Genesis.toBlock, Genesis.defaultGenesisBlock]

theorem Genesis.toBlock_encodes (g : Genesis) :
    (g.toBlock p).encodes = true := by
  simp [Block.encodes_eq, Header.encodes_eq, bodyEncodes_eq, Genesis.toBlock]

theorem genesisBlock_encodes : (genesisBlock p).encodes = true :=
  Genesis.toBlock_encodes p _

private theorem genesisContents_reads (key : DbKey) :
    genesisContents p key =
      match key with
      | .canonicalHash number =>
          if number = 0 then some (.hash ((genesisBlock p).hash p)) else none
      | .headerNumber hash =>
          if hash = (genesisBlock p).hash p then some (.number 0) else none
      | .header number hash =>
          if number = 0 ∧ hash = (genesisBlock p).hash p then
            some (.header (genesisBlock p).header)
          else none
      | .body number hash =>
          if number = 0 ∧ hash = (genesisBlock p).hash p then
            some (.body [])
          else none
      | .headBlock => some (.hash ((genesisBlock p).hash p))
      | .headHeader => some (.hash ((genesisBlock p).hash p))
      | _ => none := by
  have number : (genesisBlock p).numberU64 = 0 := by
    simp [Block.numberU64, uint64]
  have header := Rawdb.headerData_of_encodes
    (Block.encodes_header (genesisBlock_encodes p))
  have body : Rawdb.bodyData (genesisBlock p).transactions = .body [] := by
    simp [genesisBlock, Genesis.toBlock, Rawdb.bodyData, bodyEncodes_eq]
  cases key <;> simp [genesisContents, Rawdb.blockChanges, Change.apply,
    Function.update_apply, Change.key, Change.outcome, number, header, body]

/-- The only header after the first start is that of the genesis block. -/
theorem genesisContents_header {number : UInt64} {hash : Hash}
    {value : DbValue}
    (stored : genesisContents p (.header number hash) = some value) :
    number = 0 := by
  by_contra other
  simp [genesisContents_reads, other] at stored

/-- No output is recorded after the first start. -/
theorem genesisOperator_utxoSet (addr : Address) (id : UTXOID) :
    (genesisOperator p addr).chain.utxoSet id = none := by
  simp [genesisOperator, BlockChain.utxoSet, Rawdb.utxos,
    genesisContents_reads]

private theorem setupGenesisBlock_empty :
    setupGenesisBlock p true none Database.empty =
      (⟨genesisContents p, false, []⟩, .ok ()) := by
  simp only [setupGenesisBlock, Database.empty]
  rfl

private theorem genesis_canonicalHash :
    Rawdb.readCanonicalHash ⟨genesisContents p, false, []⟩ 0 =
      (genesisBlock p).hash p := by
  simp [Rawdb.readCanonicalHash, Rawdb.readHash, LDBDatabase.get,
    genesisContents_reads]

theorem startOperator_empty (addr : Address)
    (nonzero : (genesisBlock p).hash p ≠ 0) :
    startOperator p true addr Database.empty =
      .ok (genesisOperator p addr) := by
  have stored : Rawdb.readBlock ⟨genesisContents p, false, []⟩
      ((genesisBlock p).hash p) 0 = some (genesisBlock p) := by
    simp [Rawdb.readBlock, Rawdb.readHeader, Rawdb.readBody, LDBDatabase.get,
      genesisContents_reads]
    simp [genesisBlock, Genesis.toBlock, Block.newBlock]
  have rewritten :
      (Change.put DbKey.headHeader
        (DbValue.hash ((genesisBlock p).hash p))).apply (genesisContents p) =
        genesisContents p := by
    funext key
    cases key <;> simp [Change.apply, Change.key, Change.outcome,
      genesisContents_reads]
  have cached : ∀ chain : BlockChain,
      chain.blockCache = [((genesisBlock p).hash p, genesisBlock p)] →
        chain.getBlock p ((genesisBlock p).hash p) 0 =
          (chain, some (genesisBlock p)) := by
    intro chain cache
    cases chain
    simp_all [BlockChain.getBlock, BlockCache.find, BlockCache.touch,
      blockCacheLimit]
  have first : ∀ chain : BlockChain, chain.blockCache = [] →
      chain.db = ⟨genesisContents p, false, []⟩ →
        chain.getBlock p ((genesisBlock p).hash p) 0 =
          ({ chain with
              blockCache := [((genesisBlock p).hash p, genesisBlock p)] },
            some (genesisBlock p)) := by
    intro chain empty contents
    simp [BlockChain.getBlock, empty, contents, stored, BlockCache.find,
      BlockCache.touch, blockCacheLimit]
  unfold startOperator startChain
  simp only [setupGenesisBlock_empty, BlockChain.newBlockChain,
    genesis_canonicalHash, nonzero, stored, first, if_false]
  simp only [BlockChain.loadLastState, Rawdb.readHeadBlockHash,
    Rawdb.readHash, LDBDatabase.get, genesisContents_reads, nonzero, if_false,
    BlockChain.getBlockByHash, Rawdb.readHeaderNumber, if_true, cached,
    BlockChain.loadHeader, Rawdb.readHeadHeaderHash,
    BlockChain.getHeaderByHash, Rawdb.readHeader, and_self, Option.getD_some,
    BlockChain.setCurrentHeader, Rawdb.writeHeadHeaderHash]
  have again : LDBDatabase.put true DbKey.headHeader
      (DbValue.hash (p.headerHash (genesisBlock p).header))
      ⟨genesisContents p, false, []⟩ =
        (⟨genesisContents p, false, []⟩, .ok ()) := by
    rw [LDBDatabase.put_direct]
    exact congrArg (fun contents => (LDBDatabase.mk contents false [], _))
      rewritten
  rw [again]
  simp [BlockChain.loadFastBlock, Rawdb.readHeadFastBlockHash,
    Rawdb.readHash, LDBDatabase.get, genesisContents_reads,
    Operator.newOperator, genesisOperator, uint64]

/-- A first start that succeeds gives the genesis operator. -/
theorem eq_genesisOperator (addr : Address) {o : Operator}
    (started : startOperator p true addr Database.empty = .ok o) :
    o = genesisOperator p addr := by
  by_cases zero : (genesisBlock p).hash p = 0
  · have missing : startOperator p true addr Database.empty =
        .error .noGenesis := by
      simp only [startOperator, startChain, setupGenesisBlock_empty,
        BlockChain.newBlockChain, genesis_canonicalHash, zero, if_true]
    rw [missing] at started
    cases started
  · rw [startOperator_empty p addr zero] at started
    cases started
    rfl

end FirstStart

end Plasma.Core
