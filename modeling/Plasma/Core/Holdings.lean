import Plasma.Core.Replay
import Plasma.Core.Restart

/-!
# What a node holds

A node holds a hash when a header and a body are stored under it.  The block
cache only answers with blocks the node holds, under their own hash, and this
survives every call of a node.  With a working disk a block is broadcast
exactly when the node comes to hold it.
-/

namespace Plasma.Core

open Plasma.Lib Plasma.Store

/-- A header and a body are stored under the hash. -/
def HoldsHash (contents : Contents) (hash : Hash) : Prop :=
  ∃ number, StoredAt contents number hash

theorem HoldsHash.applyAll {contents : Contents} {hash : Hash}
    (holds : HoldsHash contents hash) {changes : List (Change DbKey DbValue)}
    (keeps : ∀ change ∈ changes, isBlockData change = true) :
    HoldsHash (applyAll changes contents) hash := by
  obtain ⟨number, stored⟩ := holds
  exact ⟨number, stored.applyAll keeps⟩

/-- What holds of every stored header, its number and its hash. -/
def HeadersMeet (Ok : UInt64 → Hash → Header → Prop) (contents : Contents) :
    Prop :=
  ∀ number hash header,
    contents (.header number hash) = some (.header header) →
      Ok number hash header

/-- A change that stores no other header. -/
def PutsMeet (Ok : UInt64 → Hash → Header → Prop) :
    Change DbKey DbValue → Prop
  | .put (.header number hash) (.header header) => Ok number hash header
  | _ => True

section Headers

variable {Ok : UInt64 → Hash → Header → Prop} {contents : Contents}
  {d : Database}

theorem HeadersMeet.mono {Other : UInt64 → Hash → Header → Prop}
    (meets : HeadersMeet Ok contents)
    (weaker : ∀ number hash header, Ok number hash header →
      Other number hash header) : HeadersMeet Other contents := by
  intro number hash header stored
  exact weaker number hash header (meets number hash header stored)

theorem HeadersMeet.apply (meets : HeadersMeet Ok contents)
    {change : Change DbKey DbValue} (own : PutsMeet Ok change) :
    HeadersMeet Ok (change.apply contents) := by
  intro number hash header stored
  by_cases same : DbKey.header number hash = change.key
  · cases change with
    | delete key =>
        cases same
        simp [Change.apply, Change.outcome] at stored
    | put key value =>
        cases same
        simp only [Change.apply, Change.key, Change.outcome,
          Function.update_self, Option.some.injEq] at stored
        subst stored
        exact own
  · rw [Change.apply_of_ne same] at stored
    exact meets number hash header stored

theorem HeadersMeet.applyAll (meets : HeadersMeet Ok contents)
    {changes : List (Change DbKey DbValue)}
    (own : ∀ change ∈ changes, PutsMeet Ok change) :
    HeadersMeet Ok (applyAll changes contents) := by
  induction changes generalizing contents with
  | nil => exact meets
  | cons change changes induction =>
      refine induction (meets.apply (own change List.mem_cons_self)) ?_
      intro later member
      exact own later (List.mem_cons_of_mem _ member)

theorem HeadersMeet.put (meets : HeadersMeet Ok d.db) (disk : Bool)
    {key : DbKey} {value : DbValue} (own : PutsMeet Ok (.put key value)) :
    HeadersMeet Ok (d.put disk key value).1.db := by
  obtain ⟨contents, inBatch, batch⟩ := d
  cases inBatch with
  | true => exact meets
  | false =>
      cases disk with
      | false => exact meets
      | true => exact meets.apply own

theorem HeadersMeet.putHash (meets : HeadersMeet Ok d.db) (disk : Bool)
    (key : DbKey) (hash : Hash) :
    HeadersMeet Ok (d.put disk key (.hash hash)).1.db := by
  apply meets.put disk
  cases key <;> trivial

theorem putsMeet_headerData {number : UInt64} {hash : Hash} {header : Header}
    (own : Ok number hash header) :
    PutsMeet Ok (.put (.header number hash) (Rawdb.headerData header)) := by
  rw [Rawdb.headerData]
  split
  · exact own
  · trivial

theorem HeadersMeet.writeBlock {p : Primitives} (meets : HeadersMeet Ok d.db)
    (disk : Bool) {block : Block}
    (own : Ok block.numberU64 (block.hash p) block.header) :
    HeadersMeet Ok (Rawdb.writeBlock disk p block d).db := by
  have body : HeadersMeet Ok (Rawdb.writeBody disk (block.hash p)
      block.numberU64 block.transactions d).db := meets.put disk trivial
  have number := body.put disk
    (show PutsMeet Ok (.put (.headerNumber (p.headerHash block.header))
      (.number (uint64 block.header.number))) from trivial)
  exact number.put disk (putsMeet_headerData own)

end Headers

/-- Headers are stored under their own hash. -/
def Authentic (p : Primitives) (contents : Contents) : Prop :=
  HeadersMeet (fun _ hash header => p.headerHash header = hash) contents

/-- The cache answers with held blocks under their own hash. -/
def BlockChain.CacheHeld (p : Primitives) (chain : BlockChain) : Prop :=
  BlockCache.Caches chain.blockCache fun hash block =>
    block.hash p = hash ∧ HoldsHash chain.db.db hash

namespace BlockChain

variable {p : Primitives}

theorem CacheHeld.mono {chain next : BlockChain} (held : chain.CacheHeld p)
    (cache : next.blockCache = chain.blockCache)
    (kept : ∀ hash, HoldsHash chain.db.db hash →
      HoldsHash next.db.db hash) : next.CacheHeld p := by
  intro hash block found
  rw [cache] at found
  obtain ⟨own, holds⟩ := held hash block found
  exact ⟨own, kept hash holds⟩

theorem storedAt_of_readBlock {d : Database} {hash : Hash} {number : UInt64}
    {block : Block} (read : Rawdb.readBlock d hash number = some block) :
    d.db (.header number hash) = some (.header block.header) ∧
      StoredAt d.db number hash := by
  unfold Rawdb.readBlock Rawdb.readHeader Rawdb.readBody LDBDatabase.get at read
  grind [StoredAt]

/-- What holds of every block the database can answer with. -/
def Reads (p : Primitives) (chain : BlockChain) (Ok : Hash → Block → Prop) :
    Prop :=
  ∀ hash number block, Rawdb.readBlock chain.db hash number = some block →
    block.hash p = hash ∧ Ok hash block

/-- What holds of every block that can be read holds of every cached one and
of every answer. -/
theorem getBlock_caches {chain : BlockChain} {Ok : Hash → Block → Prop}
    (caches : BlockCache.Caches chain.blockCache Ok)
    (reads : chain.Reads p Ok) (hash : Hash) (number : UInt64) :
    BlockCache.Caches (chain.getBlock p hash number).1.blockCache Ok ∧
      ∀ block, (chain.getBlock p hash number).2 = some block →
        Ok hash block := by
  unfold getBlock
  cases found : BlockCache.find chain.blockCache hash with
  | some block =>
      have admitted := caches hash block found
      refine ⟨BlockCache.Caches.touch caches admitted, ?_⟩
      intro answer same
      cases same
      exact admitted
  | none =>
      cases read : Rawdb.readBlock chain.db hash number with
      | none => exact ⟨caches, by simp⟩
      | some block =>
          obtain ⟨own, admitted⟩ := reads hash number block read
          subst own
          refine ⟨BlockCache.Caches.touch caches admitted, ?_⟩
          intro answer same
          cases same
          exact admitted

theorem viewed_caches {chain : BlockChain} {Ok : Hash → Block → Prop}
    (caches : BlockCache.Caches chain.blockCache Ok)
    (reads : chain.Reads p Ok) (block : Block) :
    BlockCache.Caches (chain.viewed p block).blockCache Ok := by
  unfold viewed
  split
  · exact caches
  · exact (getBlock_caches caches reads _ _).1

theorem reads_held {chain : BlockChain}
    (authentic : Authentic p chain.db.db) :
    chain.Reads p fun hash block =>
      block.hash p = hash ∧ HoldsHash chain.db.db hash := by
  intro hash number block read
  obtain ⟨header, stored⟩ := storedAt_of_readBlock read
  have own : block.hash p = hash := authentic number hash block.header header
  exact ⟨own, own, number, stored⟩

/-- A lookup answers with a held block and keeps the cache in order. -/
theorem getBlock_cacheHeld {chain : BlockChain} (held : chain.CacheHeld p)
    (authentic : Authentic p chain.db.db) (hash : Hash) (number : UInt64) :
    (chain.getBlock p hash number).1.CacheHeld p ∧
      ∀ block, (chain.getBlock p hash number).2 = some block →
        block.hash p = hash ∧ HoldsHash chain.db.db hash := by
  obtain ⟨caches, answers⟩ :=
    getBlock_caches held (reads_held authentic) hash number
  refine ⟨?_, answers⟩
  rw [CacheHeld, getBlock_db]
  exact caches

theorem getBlockByHash_cacheHeld {chain : BlockChain}
    (held : chain.CacheHeld p) (authentic : Authentic p chain.db.db)
    (hash : Hash) : (chain.getBlockByHash p hash).1.CacheHeld p := by
  unfold getBlockByHash
  split
  · exact held
  · exact (getBlock_cacheHeld held authentic hash _).1

theorem hasBlock_cacheHeld {chain : BlockChain} (held : chain.CacheHeld p)
    (authentic : Authentic p chain.db.db) (hash : Hash) (number : UInt64) :
    (chain.hasBlock p hash number).1.CacheHeld p ∧
      ((chain.hasBlock p hash number).2 = true →
        HoldsHash chain.db.db hash) := by
  obtain ⟨cache, answers⟩ := getBlock_cacheHeld held authentic hash number
  refine ⟨cache, ?_⟩
  intro known
  obtain ⟨block, found⟩ := Option.isSome_iff_exists.mp known
  exact (answers block found).2

theorem viewed_cacheHeld {chain : BlockChain} (held : chain.CacheHeld p)
    (authentic : Authentic p chain.db.db) (block : Block) :
    (chain.viewed p block).CacheHeld p := by
  rw [CacheHeld, viewed_db]
  exact viewed_caches held (reads_held authentic) block

theorem headed_blockCache (chain : BlockChain) (block : Block) :
    (chain.headed p block).blockCache = chain.blockCache := by
  unfold headed
  split
  · split <;> rfl
  · rfl

theorem putsMeet_writeBatch {Ok : UInt64 → Hash → Header → Prop}
    (chain : BlockChain) {block : Block}
    (own : Ok block.numberU64 (block.hash p) block.header) :
    ∀ change ∈ chain.writeBatch p block, PutsMeet Ok change := by
  intro change member
  rcases List.mem_append.mp member with front | output
  · rcases List.mem_append.mp front with data | head
    · simp only [Rawdb.blockChanges, List.mem_cons, List.not_mem_nil,
        or_false] at data
      rcases data with rfl | rfl | rfl
      · trivial
      · trivial
      · exact putsMeet_headerData own
    · split at head
      · unfold headChanges at head
        split at head
        · simp only [List.cons_append, List.nil_append, List.mem_cons,
            List.not_mem_nil, or_false] at head
          rcases head with rfl | rfl | rfl | rfl <;> trivial
        · simp only [List.append_nil, List.mem_cons, List.not_mem_nil,
            or_false] at head
          rcases head with rfl | rfl <;> trivial
      · cases head
  · obtain ⟨effect, _, rfl⟩ := List.mem_map.mp output
    cases effect <;> trivial

/-- Writing a block with an encoding adds its own hash to the held ones and no
other; a block without one adds none. -/
theorem holdsHash_writeBatch {signer : EIP155Signer} {chain : BlockChain}
    {block : Block} (verdict : chain.verdict p signer block = .ok ())
    (storable : block.storable = true) (hash : Hash) :
    HoldsHash (applyAll (chain.writeBatch p block) chain.db.db) hash ↔
      (hash = block.hash p ∧ block.encodes = true) ∨
        HoldsHash chain.db.db hash := by
  constructor
  · rintro ⟨number, stored⟩
    rw [storedAt_writeBatch_iff] at stored
    split at stored
    · rename_i own
      exact .inl ⟨own.2, stored⟩
    · exact .inr ⟨number, stored⟩
  · rintro (⟨rfl, encodes⟩ | ⟨number, stored⟩)
    · exact ⟨block.numberU64, storedAt_writeBatch verdict storable
        (.inl ⟨rfl, rfl, encodes⟩)⟩
    · exact ⟨number, storedAt_writeBatch verdict storable (.inr stored)⟩

/-- The contents gain a block with an encoding and keep the others; a block on
the validated path is new. -/
def Adds (p : Primitives) (chain : BlockChain) (block : Block)
    (contents : Contents) : Prop :=
  (∀ other, (other = block ∧ block.encodes = true) ∨
      Stored p chain.db.db other → Stored p contents other) ∧
    (block.onDepositPath = false → ¬ Stored p chain.db.db block)

/-- What a chain has in order between two calls. -/
structure InOrder (p : Primitives) (chain : BlockChain) : Prop where
  idle : chain.db.Idle
  authentic : Authentic p chain.db.db
  cached : chain.CacheHeld p

end BlockChain

/-- The blocks a call broadcasts. -/
def broadcastBlocks (events : List NodeEvent) : List Block :=
  events.filterMap fun event =>
    match event with
    | .broadcast block => some block
    | _ => none

namespace UtxoBlockValidator

theorem markSpent_ne_knownBlock (reader : UtxoReader) (ins : List UTXO)
    (spent : List UTXOID) :
    markSpent reader ins spent ≠ .error .knownBlock := by
  induction ins generalizing spent with
  | nil =>
      intro failed
      cases failed
  | cons input ins induction =>
      simp only [markSpent]
      split
      · exact induction spent
      · split
        · simp
        · split
          · simp
          · exact induction _

theorem validateTxFrom_ne_knownBlock (p : Primitives) (signer : EIP155Signer)
    (reader : UtxoReader) (txs : List Transaction) (spent : List UTXOID) :
    validateTxFrom p signer reader txs spent ≠ .error .knownBlock := by
  induction txs generalizing spent with
  | nil =>
      intro failed
      cases failed
  | cons tx txs induction =>
      simp only [validateTxFrom]
      split
      · simp
      · split
        · rename_i failure marked
          intro known
          cases known
          exact markSpent_ne_knownBlock reader tx.getInsCopy spent marked
        · exact induction _

/-- Only a block that is known is refused as known. -/
theorem known_of_validateBody {p : Primitives} {signer : EIP155Signer}
    {known : Bool} {reader : UtxoReader} {block : Block}
    (refused : validateBody p signer known reader block =
      .error .knownBlock) : known = true := by
  by_contra unknown
  simp only [validateBody, unknown, if_false] at refused
  split at refused
  · cases refused
  · exact validateTxFrom_ne_knownBlock p signer reader _ _ refused

end UtxoBlockValidator

namespace BlockChain

section

variable {p : Primitives} {removeInputs :
  List UTXO → Database → Database × Except DbError Unit}

/-- With a working disk a write broadcasts the block and adds its hash, or
refuses it; the path for deposit blocks does not refuse. -/
theorem writeWith_inOrder (buffers : BuffersDeletions removeInputs)
    (signer : EIP155Signer) {chain : BlockChain} (inOrder : chain.InOrder p)
    {block : Block} (storable : block.storable = true) :
    (writeWith removeInputs p signer true chain block).1.InOrder p ∧
      ((broadcastBlocks
            (writeWith removeInputs p signer true chain block).2.1 = [block] ∧
          (writeWith removeInputs p signer true chain block).2.2 = .ok () ∧
          chain.Adds p block
            (writeWith removeInputs p signer true chain block).1.db.db ∧
          ∀ hash, HoldsHash
              (writeWith removeInputs p signer true chain block).1.db.db hash ↔
            (hash = block.hash p ∧ block.encodes = true) ∨
              HoldsHash chain.db.db hash) ∨
        (broadcastBlocks
            (writeWith removeInputs p signer true chain block).2.1 = [] ∧
          (writeWith removeInputs p signer true chain block).1.db = chain.db ∧
          block.onDepositPath = false ∧
          ∃ failure,
            (writeWith removeInputs p signer true chain block).2.2 =
                .error (.block failure) ∧
              (failure = .knownBlock →
                HoldsHash chain.db.db (block.hash p)))) := by
  rw [writeWith_of_idle p buffers signer true chain block inOrder.idle]
  cases verdict : chain.verdict p signer block with
  | error failure =>
      have path : block.onDepositPath = false := by
        by_contra deposit
        rw [Bool.not_eq_false] at deposit
        simp [BlockChain.verdict, deposit] at verdict
      refine ⟨⟨?_, ?_, ?_⟩, .inr ⟨rfl, viewed_db p chain block, path, failure,
        rfl, ?_⟩⟩
      · simpa using inOrder.idle
      · simpa using inOrder.authentic
      · exact viewed_cacheHeld inOrder.cached inOrder.authentic block
      · intro known
        subst known
        rw [BlockChain.verdict, path] at verdict
        exact (hasBlock_cacheHeld inOrder.cached inOrder.authentic _ _).2
          (UtxoBlockValidator.known_of_validateBody verdict)
  | ok accepted =>
      have kept : ∀ hash, HoldsHash (applyAll (chain.writeBatch p block)
            chain.db.db) hash ↔
          (hash = block.hash p ∧ block.encodes = true) ∨
            HoldsHash chain.db.db hash :=
        holdsHash_writeBatch verdict storable
      refine ⟨⟨⟨rfl, rfl⟩, ?_, ?_⟩, .inl ⟨rfl, rfl, ?_, kept⟩⟩
      · exact inOrder.authentic.applyAll (putsMeet_writeBatch chain rfl)
      · apply (viewed_cacheHeld inOrder.cached inOrder.authentic block).mono
        · exact headed_blockCache _ _
        · intro hash holds
          rw [viewed_db] at holds
          exact (kept hash).mpr (.inr holds)
      · refine ⟨?_, fun path => not_stored_of_verdict path verdict⟩
        rintro other (⟨rfl, encodes⟩ | earlier)
        · exact storedAt_writeBatch verdict storable (.inl ⟨rfl, rfl, encodes⟩)
        · exact storedAt_writeBatch verdict storable (.inr earlier)

/-- Whatever a write does, it only caches blocks that can be read. -/
theorem writeWith_caches (buffers : BuffersDeletions removeInputs)
    (signer : EIP155Signer) (disk : Bool) {chain : BlockChain}
    (idle : chain.db.Idle) {Ok : Hash → Block → Prop}
    (caches : BlockCache.Caches chain.blockCache Ok)
    (reads : chain.Reads p Ok) (block : Block) :
    BlockCache.Caches
      (chain.writeWith removeInputs p signer disk block).1.blockCache Ok := by
  have viewed := viewed_caches caches reads block
  rw [writeWith_of_idle p buffers signer disk chain block idle]
  cases chain.verdict p signer block with
  | error failure => exact viewed
  | ok accepted =>
      cases disk with
      | false =>
          simp only [Bool.false_eq_true, if_false]
          rw [headed_blockCache]
          exact viewed
      | true =>
          simp only [if_true]
          rw [headed_blockCache]
          exact viewed

/-- Whatever the disk answers, a write leaves the chain in order. -/
theorem InOrder.writeWith (buffers : BuffersDeletions removeInputs)
    (signer : EIP155Signer) (disk : Bool) {chain : BlockChain}
    (inOrder : chain.InOrder p) {block : Block}
    (storable : block.storable = true) :
    (chain.writeWith removeInputs p signer disk block).1.InOrder p := by
  cases disk with
  | true => exact (writeWith_inOrder buffers signer inOrder storable).1
  | false =>
      have viewed := viewed_cacheHeld inOrder.cached inOrder.authentic block
      rw [writeWith_of_idle p buffers signer false chain block inOrder.idle]
      cases chain.verdict p signer block with
      | error failure =>
          refine ⟨?_, ?_, viewed⟩
          · simpa using inOrder.idle
          · simpa using inOrder.authentic
      | ok accepted =>
          refine ⟨?_, ?_, viewed.mono (headed_blockCache _ _) ?_⟩
          · simpa using inOrder.idle
          · simpa using inOrder.authentic
          · intro hash holds
            simpa using holds

end

end BlockChain

namespace Node

variable (p : Primitives) (signer : EIP155Signer)

/-- What a node has in order between two calls. -/
structure InOrder (node : Node) : Prop where
  idle : node.database.Idle
  authentic : Authentic p node.database.db
  cached : ∀ chain, node.chain? = some chain → chain.CacheHeld p

def HoldsHash (node : Node) (hash : Hash) : Prop :=
  Core.HoldsHash node.database.db hash

variable {p signer}

theorem InOrder.chain {node : Node} (inOrder : node.InOrder p)
    {chain : BlockChain} (running : node.chain? = some chain) :
    chain.InOrder p := by
  have same := database_of_chain running
  refine ⟨?_, ?_, inOrder.cached chain running⟩
  · rw [← same]
    exact inOrder.idle
  · rw [← same]
    exact inOrder.authentic

theorem InOrder.of_chain {node : Node} {chain : BlockChain}
    (running : node.chain? = some chain) (inOrder : chain.InOrder p) :
    node.InOrder p := by
  have same := database_of_chain running
  refine ⟨?_, ?_, ?_⟩
  · rw [same]
    exact inOrder.idle
  · rw [same]
    exact inOrder.authentic
  · intro other found
    rw [running] at found
    cases found
    exact inOrder.cached

theorem chain_withChain {node : Node} {chain : BlockChain}
    (running : node.chain? = some chain) (next : BlockChain) :
    (node.withChain next).chain? = some next := by
  cases node with
  | operator o => rfl
  | validator v => rfl
  | stopped role d => cases running

/-- What writing a block does to a node with a working disk: the block is
broadcast and its hash added if it has an encoding, or the block is refused.
Deposit blocks are not refused. -/
structure Wrote (p : Primitives) (signer : EIP155Signer) (node next : Node)
    (block : Block) (broadcasts : List Block)
    (result : Except WriteError Unit) : Prop where
  inOrder : next.InOrder p
  effect : (broadcasts = [block] ∧ result = .ok () ∧
      (∀ other, (other = block ∧ block.encodes = true) ∨
        Stored p node.database.db other → Stored p next.database.db other) ∧
      (block.onDepositPath = false → ¬ Stored p node.database.db block) ∧
      ∀ hash, next.HoldsHash hash ↔
        (hash = block.hash p ∧ block.encodes = true) ∨ node.HoldsHash hash) ∨
    (broadcasts = [] ∧ next.database = node.database ∧
      block.onDepositPath = false ∧
      ∃ failure, result = .error (.block failure) ∧
        (failure = .knownBlock → node.HoldsHash (block.hash p)))
  outputs : broadcasts ≠ [] →
    next.utxoSet = applyAll block.changes node.utxoSet ∧
      ∃ chain, node.chain? = some chain ∧
        chain.verdict p signer block = .ok ()

section

variable {removeInputs :
  List UTXO → Database → Database × Except DbError Unit}

theorem Wrote.of_writeWith (buffers : BuffersDeletions removeInputs)
    {node next : Node} {chain : BlockChain} (inOrder : node.InOrder p)
    (running : node.chain? = some chain) {block : Block}
    (storable : block.storable = true)
    (moved : next.chain? =
      some (chain.writeWith removeInputs p signer true block).1)
    {broadcasts : List Block}
    (sent : broadcasts = broadcastBlocks
      (chain.writeWith removeInputs p signer true block).2.1) :
    Wrote p signer node next block broadcasts
      (chain.writeWith removeInputs p signer true block).2.2 := by
  obtain ⟨after, effect⟩ := BlockChain.writeWith_inOrder buffers signer
    (inOrder.chain running) storable
  have before := database_of_chain running
  have later := database_of_chain moved
  refine ⟨.of_chain moved after, ?_, ?_⟩
  · rw [sent]
    rcases effect with
      ⟨one, success, ⟨stored, fresh⟩, holds⟩ | ⟨none, same, path, failure⟩
    · left
      rw [← before] at stored fresh
      rw [← later] at stored
      refine ⟨one, success, stored, fresh, ?_⟩
      intro hash
      rw [HoldsHash, HoldsHash, before, later]
      exact holds hash
    · right
      refine ⟨none, ?_, path, ?_⟩
      · rw [before, later, same]
      · rw [HoldsHash, before]
        exact failure
  · intro some
    rw [sent] at some
    rcases BlockChain.writeWith_cases p buffers signer true chain block
        (inOrder.chain running).idle with
      ⟨_, _, ⟨failure, failed⟩, _⟩ | ⟨db, _, verdict, _⟩
    · rcases effect with ⟨_, success, _⟩ | ⟨none, _⟩
      · rw [success] at failed
        cases failed
      · exact absurd none some
    · refine ⟨?_, chain, running, verdict⟩
      rw [utxoSet, utxoSet, before, later, db]
      exact BlockChain.utxos_writeBatch p chain block

end

theorem wrote_writeBlock (signer : EIP155Signer) {node : Node}
    {chain : BlockChain} (inOrder : node.InOrder p)
    (running : node.chain? = some chain) {block : Block}
    (storable : block.storable = true) :
    ∃ result, (node.writeBlock p signer true block).2.2 = some result ∧
      Wrote p signer node (node.writeBlock p signer true block).1 block
        (broadcastBlocks (node.writeBlock p signer true block).2.1) result := by
  cases node with
  | operator o =>
      cases running
      exact ⟨_, rfl, .of_writeWith (Operator.buffersDeletions_removeInputs true)
        inOrder rfl storable rfl rfl⟩
  | validator v =>
      cases running
      exact ⟨_, rfl,
        .of_writeWith (Validator.buffersDeletions_removeInputs true)
          inOrder rfl storable rfl rfl⟩
  | stopped role d => cases running

theorem wrote_depositEvent (signer : EIP155Signer) {o : Operator}
    (inOrder : (Node.operator o).InOrder p) {time number : Int}
    {depositor token : Address} {amount : Int}
    (storable : (o.constructDepositBlock p time number
      (Operator.depositTx depositor amount)).storable = true) :
    ∃ block result, Wrote p signer (.operator o)
      ((Node.operator o).step p signer
        (.depositEvent time true number depositor token amount)).1 block
      (broadcastBlocks ((Node.operator o).step p signer
        (.depositEvent time true number depositor token amount)).2) result :=
  ⟨_, _, .of_writeWith (Operator.buffersDeletions_removeInputs true) inOrder
    rfl storable rfl rfl⟩

theorem broadcastBlocks_append (first second : List NodeEvent) :
    broadcastBlocks (first ++ second) =
      broadcastBlocks first ++ broadcastBlocks second :=
  List.filterMap_append

theorem wrote_sealTxs (signer : EIP155Signer) {o : Operator}
    (inOrder : (Node.operator o).InOrder p) {time : Int} (submits : Bool)
    {txs : List Transaction}
    (storable : (o.constructBlock p time txs).2.storable = true) :
    ∃ block result, Wrote p signer (.operator o)
      ((Node.operator o).step p signer (.sealTxs time true submits txs)).1 block
      (broadcastBlocks ((Node.operator o).step p signer
        (.sealTxs time true submits txs)).2) result := by
  have moved := Operator.sealTxs_chain p signer o time true submits txs
  have sent : broadcastBlocks
      (o.sealTxs p signer time true submits txs).2.1 =
        broadcastBlocks (o.sealWrite p signer time true txs).2.1 := by
    cases outcome : (o.sealWrite p signer time true txs).2.2 with
    | error failure =>
        rw [Operator.sealTxs_of_error p signer o time true submits txs outcome]
    | ok written =>
        rw [Operator.sealTxs_of_ok p signer o time true submits txs outcome,
          broadcastBlocks_append]
        cases submits <;> simp [broadcastBlocks]
  refine ⟨(o.constructBlock p time txs).2,
    (o.sealWrite p signer time true txs).2.2, ?_⟩
  apply Wrote.of_writeWith (Operator.buffersDeletions_removeInputs true) inOrder
    rfl storable
  · exact congrArg some moved
  · exact sent

/-! ## The start of a process -/

theorem authentic_setup (disk : Bool) {d : Database}
    (authentic : Authentic p d.db) :
    Authentic p (setupGenesisBlock p disk none d).1.db := by
  simp only [setupGenesisBlock]
  split
  · split
    · exact authentic
    · rename_i committed
      simp only [Genesis.commit] at committed
      split at committed
      · cases committed
      · cases committed
        exact (((HeadersMeet.writeBlock authentic disk rfl).putHash disk _
          _).putHash disk _ _).putHash disk _ _
  · exact authentic

end Node

namespace BlockChain

variable {p : Primitives}

theorem getBlockByHash_db (chain : BlockChain) (hash : Hash) :
    (chain.getBlockByHash p hash).1.db = chain.db := by
  unfold getBlockByHash
  split
  · rfl
  · exact getBlock_db p chain _ _

/-- What is served for a number is held. -/
theorem getBlockByNumber_inOrder {chain : BlockChain}
    (inOrder : chain.InOrder p) (number : UInt64) :
    (chain.getBlockByNumber p number).1.InOrder p ∧
      (chain.getBlockByNumber p number).1.db = chain.db ∧
      ∀ block, (chain.getBlockByNumber p number).2 = some block →
        HoldsHash chain.db.db (block.hash p) := by
  simp only [getBlockByNumber]
  split
  · exact ⟨inOrder, rfl, by simp⟩
  · obtain ⟨cached, answers⟩ := getBlock_cacheHeld inOrder.cached
      inOrder.authentic (Rawdb.readCanonicalHash chain.db number) number
    refine ⟨⟨?_, ?_, cached⟩, getBlock_db p chain _ _, ?_⟩
    · rw [getBlock_db]
      exact inOrder.idle
    · rw [getBlock_db]
      exact inOrder.authentic
    · intro block found
      obtain ⟨own, holds⟩ := answers block found
      rw [own]
      exact holds

theorem getBlockByHash_inOrder {chain : BlockChain} (inOrder : chain.InOrder p)
    (hash : Hash) : (chain.getBlockByHash p hash).1.InOrder p := by
  have kept := getBlockByHash_db (p := p) chain hash
  refine ⟨?_, ?_, getBlockByHash_cacheHeld inOrder.cached inOrder.authentic
    hash⟩
  · rw [kept]
    exact inOrder.idle
  · rw [kept]
    exact inOrder.authentic

theorem loadFastBlock_inOrder {chain : BlockChain} (inOrder : chain.InOrder p) :
    (chain.loadFastBlock p).InOrder p := by
  have start : ({ chain with currentFastBlock := chain.currentBlock } :
      BlockChain).InOrder p :=
    ⟨inOrder.idle, inOrder.authentic, inOrder.cached⟩
  have found := getBlockByHash_inOrder start
    (Rawdb.readHeadFastBlockHash chain.db)
  simp only [loadFastBlock]
  split
  · exact start
  · split
    · rename_i answer
      rw [answer] at found
      exact found
    · rename_i answer
      rw [answer] at found
      exact ⟨found.idle, found.authentic, found.cached⟩

theorem loadHeader_inOrder (disk : Bool) {chain : BlockChain}
    (inOrder : chain.InOrder p) : (chain.loadHeader p disk).InOrder p := by
  have gains : GainsStartData chain.db (chain.loadHeader p disk).db :=
    .put inOrder.idle.1 disk _ _ rfl
  obtain ⟨closed, empty, changes, data, contents⟩ := gains
  refine ⟨⟨closed.trans inOrder.idle.1, empty.trans inOrder.idle.2⟩,
    HeadersMeet.putHash inOrder.authentic disk _ _,
    inOrder.cached.mono rfl ?_⟩
  intro hash holds
  rw [contents]
  apply holds.applyAll
  intro change member
  exact isBlockData_of_isStartData (data change member)

theorem loadLastState_inOrder {disk : Bool} {chain loaded : BlockChain}
    (inOrder : chain.InOrder p)
    (outcome : chain.loadLastState p disk = .ok loaded) :
    loaded.InOrder p := by
  have head := getBlockByHash_inOrder inOrder
    (Rawdb.readHeadBlockHash chain.db)
  simp only [loadLastState] at outcome
  split at outcome
  · cases outcome
  · split at outcome
    · cases outcome
    · rename_i answer
      rw [answer] at head
      cases outcome
      apply loadFastBlock_inOrder
      apply loadHeader_inOrder
      exact ⟨head.idle, head.authentic, head.cached⟩

theorem newBlockChain_inOrder {disk : Bool} {d : Database} (idle : d.Idle)
    (authentic : Authentic p d.db) {chain : BlockChain}
    (loaded : newBlockChain p disk d = .ok chain) : chain.InOrder p := by
  simp only [newBlockChain] at loaded
  split at loaded
  · cases loaded
  · split at loaded
    · cases loaded
    · rename_i genesis _
      apply loadLastState_inOrder _ loaded
      have empty : (⟨d, genesis, genesis.header, genesis, []⟩ :
          BlockChain).CacheHeld p := BlockCache.caches_nil _
      refine ⟨?_, ?_, (getBlock_cacheHeld empty authentic _ 0).1⟩
      · simpa using idle
      · simpa using authentic

end BlockChain

namespace Node

variable {p : Primitives} {signer : EIP155Signer}

theorem startChain_inOrder {disk : Bool} {d : Database} (idle : d.Idle)
    (authentic : Authentic p d.db) {chain : BlockChain}
    (started : startChain p disk d = .ok chain) : chain.InOrder p := by
  obtain ⟨closed, empty, _⟩ := gainsStartData_setup p disk d idle.1
  have genesis := authentic_setup disk authentic
  unfold startChain at started
  split at started
  · cases started
  · rename_i outcome
    rw [outcome] at closed empty genesis
    exact BlockChain.newBlockChain_inOrder
      ⟨closed.trans idle.1, empty.trans idle.2⟩ genesis started

theorem utxos_of_gainsStartData {before after : Database}
    (gains : GainsStartData before after) :
    Rawdb.utxos after.db = Rawdb.utxos before.db := by
  obtain ⟨_, _, changes, data, contents⟩ := gains
  have kept : ∀ id, after.db (.utxo id) = before.db (.utxo id) := by
    intro id
    rw [contents]
    apply applyAll_of_keys
    intro change member key
    have start := data change member
    unfold isStartData at start
    split at start <;> first | cases key | cases start
  funext id
  rw [Rawdb.utxos, Rawdb.utxos, kept]

/-- A started node is in order and stores what the database stored. -/
theorem start_inOrder (disk : Bool) (role : Role) {d : Database}
    (idle : d.Idle) (authentic : Authentic p d.db) :
    (start p disk role d).InOrder p ∧
      ∀ number hash, StoredAt d.db number hash →
        StoredAt (start p disk role d).database.db number hash := by
  constructor
  · obtain ⟨closed, empty, _⟩ := gainsStartData_setup p disk d idle.1
    have stopped : ∀ role, (Node.stopped role
        (setupGenesisBlock p disk none d).1).InOrder p := by
      intro role
      refine ⟨⟨closed.trans idle.1, empty.trans idle.2⟩,
        authentic_setup disk authentic, ?_⟩
      intro chain running
      cases running
    cases started : startChain p disk d with
    | error failure =>
        cases role with
        | operator addr =>
            simp only [start, startOperator, started]
            exact stopped _
        | validator =>
            simp only [start, startValidator, started]
            exact stopped _
    | ok chain =>
        have inOrder := startChain_inOrder idle authentic started
        cases role with
        | operator addr =>
            simp only [start, startOperator, started]
            exact .of_chain rfl inOrder
        | validator =>
            simp only [start, startValidator, started]
            exact .of_chain rfl inOrder
  · intro number hash stored
    obtain ⟨_, _, changes, data, contents⟩ :=
      gainsStartData_start p disk role idle.1
    rw [contents]
    apply stored.applyAll
    intro change member
    exact isBlockData_of_isStartData (data change member)

end Node

end Plasma.Core
