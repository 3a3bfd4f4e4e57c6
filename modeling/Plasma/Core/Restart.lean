import Plasma.Core.Startup

/-!
# Loading the heads from the database

`NewBlockChain` finds the genesis block through the canonical index and the
heads through the stored head hashes and the index from hashes to numbers.
What it loads is read off the records of the database, with the block cache
filled on the way.
-/

namespace Plasma.Core

open Plasma.Lib Plasma.Store

namespace BlockCache

/-- Every entry the cache can answer with is admitted. -/
def Caches (cache : BlockCache) (Admitted : Hash → Block → Prop) : Prop :=
  ∀ hash block, find cache hash = some block → Admitted hash block

theorem caches_nil (Admitted : Hash → Block → Prop) :
    Caches [] Admitted := by
  intro hash block found
  cases found

private theorem find_touch {cache : BlockCache} {key hash : Hash}
    {block found : Block}
    (answer : find (touch cache key block) hash = some found) :
    (hash = key ∧ found = block) ∨ find cache hash = some found := by
  obtain ⟨entry, located, rfl⟩ := Option.map_eq_some_iff.mp answer
  have whole := (List.take_prefix _ _).find?_eq_some located
  rw [List.find?_cons] at whole
  by_cases same : key = hash
  · simp only [same, beq_self_eq_true] at whole
    cases whole
    exact Or.inl ⟨same.symm, rfl⟩
  · right
    simp only [beq_eq_false_iff_ne.mpr same, List.find?_filter] at whole
    have unfiltered : (fun entry : Hash × Block =>
        decide ((entry.1 != key) = true ∧ (entry.1 == hash) = true)) =
          fun entry => entry.1 == hash := by
      funext entry
      by_cases hit : entry.1 = hash
      · simp [hit, Ne.symm same]
      · simp [hit]
    rw [unfiltered] at whole
    simp [find, whole]

theorem Caches.touch {cache : BlockCache} {Admitted : Hash → Block → Prop}
    (caches : Caches cache Admitted) {key : Hash} {block : Block}
    (admitted : Admitted key block) :
    Caches (BlockCache.touch cache key block) Admitted := by
  intro hash found answer
  rcases find_touch answer with ⟨rfl, rfl⟩ | earlier
  · exact admitted
  · exact caches hash found earlier

end BlockCache

namespace BlockChain

section

variable (p : Primitives)

/-- A stored block is served, from the cache or from the database. -/
theorem getBlock_stored (chain : BlockChain) {hash : Hash} {number : UInt64}
    {block : Block} {Admitted : Hash → Block → Prop}
    (caches : BlockCache.Caches chain.blockCache Admitted)
    (faithful : ∀ cached, Admitted hash cached → cached = block)
    (stored : Rawdb.readBlock chain.db hash number = some block)
    (hashed : block.hash p = hash) (admitted : Admitted hash block) :
    ∃ cache, chain.getBlock p hash number =
        ({ chain with blockCache := cache }, some block) ∧
      BlockCache.Caches cache Admitted := by
  unfold getBlock
  cases found : BlockCache.find chain.blockCache hash with
  | some cached =>
      have same := faithful cached (caches hash cached found)
      subst same
      exact ⟨_, rfl, caches.touch admitted⟩
  | none =>
      simp only [stored]
      rw [hashed]
      exact ⟨_, rfl, caches.touch admitted⟩

end

end BlockChain

/-- The records `NewBlockChain` loads the heads from, with the transactions
the database holds for the head. -/
structure HeadRecords (p : Primitives) (contents : Contents) (head : Header)
    (transactions : List Transaction) : Prop where
  headBlock : contents .headBlock = some (.hash (p.headerHash head))
  headHeader : contents .headHeader = some (.hash (p.headerHash head))
  headFastBlock : contents .headFastBlock = none ∨
    contents .headFastBlock = some (.hash (p.headerHash head))
  headerNumber : contents (.headerNumber (p.headerHash head)) =
    some (.number (uint64 head.number))
  header : contents (.header (uint64 head.number) (p.headerHash head)) =
    some (Rawdb.headerData head)
  body : contents (.body (uint64 head.number) (p.headerHash head)) =
    some (Rawdb.bodyData transactions)

/-- The records of the genesis block. -/
structure GenesisRecords (p : Primitives) (contents : Contents)
    (genesis : Header) (transactions : List Transaction) : Prop where
  number : uint64 genesis.number = 0
  canonicalHash : contents (.canonicalHash 0) =
    some (.hash (p.headerHash genesis))
  header : contents (.header 0 (p.headerHash genesis)) =
    some (.header genesis)
  body : contents (.body 0 (p.headerHash genesis)) =
    some (.body transactions)

section

variable {p : Primitives} {contents : Contents} {head : Header}
  {transactions : List Transaction}

theorem HeadRecords.header_of_encodes
    (records : HeadRecords p contents head transactions)
    (encodes : Block.encodes ⟨head, transactions⟩ = true) :
    contents (.header (uint64 head.number) (p.headerHash head)) =
      some (.header head) := by
  rw [records.header,
    Rawdb.headerData_of_encodes (Block.encodes_header encodes)]

theorem HeadRecords.body_of_encodes
    (records : HeadRecords p contents head transactions)
    (encodes : Block.encodes ⟨head, transactions⟩ = true) :
    contents (.body (uint64 head.number) (p.headerHash head)) =
      some (.body transactions) := by
  rw [records.body, Rawdb.bodyData_of_encodes (Block.encodes_body encodes)]

end

theorem readHash_of_record {d : Database} {key : DbKey} {hash : Hash}
    (record : d.db key = some (.hash hash)) : Rawdb.readHash d key = hash := by
  simp [Rawdb.readHash, LDBDatabase.get, record]

theorem record_of_readHash {d : Database} {key : DbKey}
    (nonzero : Rawdb.readHash d key ≠ 0) :
    d.db key = some (.hash (Rawdb.readHash d key)) := by
  unfold Rawdb.readHash LDBDatabase.get at nonzero ⊢
  split at nonzero
  · rename_i value present
    simp [present]
  · exact absurd rfl nonzero

/-- What was stored for a block is read back exactly when the block has an
encoding. -/
theorem readBlock_of_data {d : Database} {hash : Hash} {number : UInt64}
    (block : Block)
    (headerStored : d.db (.header number hash) =
      some (Rawdb.headerData block.header))
    (bodyStored : d.db (.body number hash) =
      some (Rawdb.bodyData block.transactions)) :
    Rawdb.readBlock d hash number =
      if block.encodes then some block else none := by
  rw [Block.encodes_eq, Rawdb.readBlock, Rawdb.readHeader, Rawdb.readBody,
    LDBDatabase.get, LDBDatabase.get, headerStored, bodyStored,
    Rawdb.headerData, Rawdb.bodyData]
  cases block.header.encodes <;> cases bodyEncodes block.transactions <;> rfl

theorem readBlock_of_records {d : Database} {hash : Hash} {number : UInt64}
    {header : Header} {transactions : List Transaction}
    (headerStored : d.db (.header number hash) = some (.header header))
    (bodyStored : d.db (.body number hash) = some (.body transactions)) :
    Rawdb.readBlock d hash number = some ⟨header, transactions⟩ := by
  simp [Rawdb.readBlock, Rawdb.readHeader, Rawdb.readBody, LDBDatabase.get,
    headerStored, bodyStored]

/-- Writing what is already recorded changes nothing. -/
theorem put_recorded (disk : Bool) {d : Database} {key : DbKey}
    {value : DbValue} (idle : d.Idle) (record : d.db key = some value) :
    (d.put disk key value).1 = d := by
  rw [idle.eq_mk]
  cases disk with
  | false => rfl
  | true =>
      rw [LDBDatabase.put_direct]
      have same : (Change.put key value).apply d.db = d.db := by
        funext other
        by_cases hit : other = key
        · subst hit
          simp [Change.apply, Change.key, Change.outcome, record]
        · simp [Change.apply, Change.key, hit]
      rw [same]

namespace BlockChain

section Load

variable {p : Primitives} {d : Database} {genesis head : Header}
  {genesisBody transactions : List Transaction}

/-- The blocks a start puts into the cache. -/
def LoadedBlock (p : Primitives) (genesis : Header)
    (genesisBody : List Transaction) (head : Header)
    (transactions : List Transaction) (hash : Hash) (block : Block) : Prop :=
  (hash = p.headerHash genesis ∧ block = ⟨genesis, genesisBody⟩) ∨
    (hash = p.headerHash head ∧ block = ⟨head, transactions⟩)

private theorem LoadedBlock.eq_head {block : Block}
    (root : GenesisRecords p d.db genesis genesisBody)
    (records : HeadRecords p d.db head transactions)
    (encodes : Block.encodes ⟨head, transactions⟩ = true)
    (agree : p.headerHash head = p.headerHash genesis → head = genesis)
    (loaded : LoadedBlock p genesis genesisBody head transactions
      (p.headerHash head) block) :
    block = ⟨head, transactions⟩ := by
  rcases loaded with ⟨same, rfl⟩ | ⟨_, rfl⟩
  · have header := agree same
    subst header
    have body := records.body_of_encodes encodes
    rw [root.number, root.body] at body
    cases body
    rfl
  · rfl

/-- The head is found by its hash. -/
private theorem getBlockByHash_head
    (root : GenesisRecords p d.db genesis genesisBody)
    (records : HeadRecords p d.db head transactions)
    (encodes : Block.encodes ⟨head, transactions⟩ = true)
    (agree : p.headerHash head = p.headerHash genesis → head = genesis)
    (chain : BlockChain) (base : chain.db = d)
    (caches : BlockCache.Caches chain.blockCache
      (LoadedBlock p genesis genesisBody head transactions)) :
    ∃ cache, chain.getBlockByHash p (p.headerHash head) =
        ({ chain with blockCache := cache }, some ⟨head, transactions⟩) ∧
      BlockCache.Caches cache
        (LoadedBlock p genesis genesisBody head transactions) := by
  have number : Rawdb.readHeaderNumber chain.db (p.headerHash head) =
      some (uint64 head.number) := by
    simp [Rawdb.readHeaderNumber, LDBDatabase.get, base,
      records.headerNumber]
  have stored : Rawdb.readBlock chain.db (p.headerHash head)
      (uint64 head.number) = some ⟨head, transactions⟩ := by
    rw [base]
    exact readBlock_of_records (records.header_of_encodes encodes)
      (records.body_of_encodes encodes)
  simp only [getBlockByHash, number]
  exact getBlock_stored p chain caches
    (fun cached loaded => loaded.eq_head root records encodes agree) stored rfl
    (Or.inr ⟨rfl, rfl⟩)

private theorem loadHeader_head (disk : Bool) (idle : d.Idle)
    (records : HeadRecords p d.db head transactions)
    (encodes : Block.encodes ⟨head, transactions⟩ = true)
    (nonzero : p.headerHash head ≠ 0)
    {chain : BlockChain} (base : chain.db = d) :
    chain.loadHeader p disk = { chain with currentHeader := head } := by
  have hash : Rawdb.readHeadHeaderHash d = p.headerHash head :=
    readHash_of_record records.headHeader
  have found : chain.getHeaderByHash (p.headerHash head) = some head := by
    simp [getHeaderByHash, Rawdb.readHeaderNumber, Rawdb.readHeader,
      LDBDatabase.get, base, records.headerNumber,
      records.header_of_encodes encodes]
  have kept : Rawdb.writeHeadHeaderHash disk (p.headerHash head) d = d :=
    put_recorded disk idle records.headHeader
  simp only [loadHeader, base, hash, if_neg nonzero, found, Option.getD_some,
    setCurrentHeader, kept]

private theorem loadFastBlock_head
    (root : GenesisRecords p d.db genesis genesisBody)
    (records : HeadRecords p d.db head transactions)
    (encodes : Block.encodes ⟨head, transactions⟩ = true)
    (nonzero : p.headerHash head ≠ 0)
    (agree : p.headerHash head = p.headerHash genesis → head = genesis)
    (chain : BlockChain) (base : chain.db = d)
    (current : chain.currentBlock = ⟨head, transactions⟩)
    (caches : BlockCache.Caches chain.blockCache
      (LoadedBlock p genesis genesisBody head transactions)) :
    ∃ cache, chain.loadFastBlock p =
        { chain with
          currentFastBlock := ⟨head, transactions⟩, blockCache := cache } ∧
      BlockCache.Caches cache
        (LoadedBlock p genesis genesisBody head transactions) := by
  rcases records.headFastBlock with absent | present
  · have hash : Rawdb.readHeadFastBlockHash chain.db = 0 := by
      simp [Rawdb.readHeadFastBlockHash, Rawdb.readHash, LDBDatabase.get,
        base, absent]
    refine ⟨chain.blockCache, ?_, caches⟩
    simp [loadFastBlock, hash, current]
  · have hash : Rawdb.readHeadFastBlockHash chain.db = p.headerHash head := by
      rw [base]
      exact readHash_of_record present
    obtain ⟨cache, found, admitted⟩ := getBlockByHash_head root records
      encodes agree { chain with currentFastBlock := chain.currentBlock } base
      caches
    refine ⟨cache, ?_, admitted⟩
    simp only [loadFastBlock, hash, if_neg nonzero]
    rw [found]

/-- A chain whose head pointers all name one block. -/
def atHead (d : Database) (block : Block) (cache : BlockCache) : BlockChain :=
  { db := d
    currentBlock := block
    currentHeader := block.header
    currentFastBlock := block
    blockCache := cache }

/-- A start over a database with the records of a genesis block and of a head
loads that head into all head pointers and leaves the database as it is. -/
theorem newBlockChain_head (disk : Bool) (idle : d.Idle)
    (root : GenesisRecords p d.db genesis genesisBody)
    (records : HeadRecords p d.db head transactions)
    (encodes : Block.encodes ⟨head, transactions⟩ = true)
    (genesisNonzero : p.headerHash genesis ≠ 0)
    (nonzero : p.headerHash head ≠ 0)
    (agree : p.headerHash head = p.headerHash genesis → head = genesis) :
    ∃ cache, newBlockChain p disk d =
        .ok (atHead d ⟨head, transactions⟩ cache) ∧
      BlockCache.Caches cache
        (LoadedBlock p genesis genesisBody head transactions) := by
  have canonical : Rawdb.readCanonicalHash d 0 = p.headerHash genesis :=
    readHash_of_record root.canonicalHash
  have stored : Rawdb.readBlock d (p.headerHash genesis) 0 =
      some ⟨genesis, genesisBody⟩ :=
    readBlock_of_records root.header root.body
  have hash : Rawdb.readHeadBlockHash d = p.headerHash head :=
    readHash_of_record records.headBlock
  obtain ⟨first, served, firstAdmitted⟩ := getBlock_stored p
    (atHead d ⟨genesis, genesisBody⟩ [])
    (BlockCache.caches_nil fun hash block =>
      hash = p.headerHash genesis ∧ block = ⟨genesis, genesisBody⟩)
    (fun cached admitted => admitted.2) stored rfl ⟨rfl, rfl⟩
  obtain ⟨second, found, secondAdmitted⟩ := getBlockByHash_head root records
    encodes agree (atHead d ⟨genesis, genesisBody⟩ first) rfl
    (fun hash block answer => Or.inl (firstAdmitted hash block answer))
  obtain ⟨third, fast, thirdAdmitted⟩ := loadFastBlock_head root records
    encodes nonzero agree
    { atHead d ⟨genesis, genesisBody⟩ second with
      currentBlock := ⟨head, transactions⟩, currentHeader := head } rfl rfl
    secondAdmitted
  refine ⟨third, ?_, thirdAdmitted⟩
  unfold atHead at served found fast ⊢
  simp only [newBlockChain, canonical, if_neg genesisNonzero, stored, served]
  simp only [loadLastState, hash, if_neg nonzero, found]
  rw [loadHeader_head disk idle records encodes nonzero rfl, fast]

/-- A start over a database whose head was written without an encoding
fails. -/
theorem newBlockChain_unencodable (disk : Bool)
    (root : GenesisRecords p d.db genesis genesisBody)
    (records : HeadRecords p d.db head transactions)
    (lost : Block.encodes ⟨head, transactions⟩ = false)
    (genesisNonzero : p.headerHash genesis ≠ 0)
    (nonzero : p.headerHash head ≠ 0)
    (agree : p.headerHash head = p.headerHash genesis → head = genesis) :
    newBlockChain p disk d = .error .headBlockNotFound := by
  have canonical : Rawdb.readCanonicalHash d 0 = p.headerHash genesis :=
    readHash_of_record root.canonicalHash
  have stored : Rawdb.readBlock d (p.headerHash genesis) 0 =
      some ⟨genesis, genesisBody⟩ :=
    readBlock_of_records root.header root.body
  have hash : Rawdb.readHeadBlockHash d = p.headerHash head :=
    readHash_of_record records.headBlock
  have number : Rawdb.readHeaderNumber d (p.headerHash head) =
      some (uint64 head.number) := by
    simp [Rawdb.readHeaderNumber, LDBDatabase.get, records.headerNumber]
  have read : Rawdb.readBlock d (p.headerHash head) (uint64 head.number) =
      none := by
    rw [readBlock_of_data ⟨head, transactions⟩ records.header records.body,
      lost]
    rfl
  have other : p.headerHash head ≠ p.headerHash genesis := by
    intro same
    rw [same, agree same, root.number, stored] at read
    cases read
  obtain ⟨first, served, admitted⟩ := getBlock_stored p
    (atHead d ⟨genesis, genesisBody⟩ [])
    (BlockCache.caches_nil fun hash block =>
      hash = p.headerHash genesis ∧ block = ⟨genesis, genesisBody⟩)
    (fun cached admitted => admitted.2) stored rfl ⟨rfl, rfl⟩
  have absent : BlockCache.find first (p.headerHash head) = none := by
    cases found : BlockCache.find first (p.headerHash head) with
    | none => rfl
    | some cached => exact absurd (admitted _ _ found).1 other
  unfold atHead at served
  simp only [newBlockChain, canonical, if_neg genesisNonzero, stored, served]
  simp only [loadLastState, hash, if_neg nonzero, getBlockByHash, number,
    getBlock, absent, read]

end Load

end BlockChain

end Plasma.Core
