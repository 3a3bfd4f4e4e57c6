import Plasma.Core.BlockOrder
import Plasma.Core.Heads

/-!
# Agreement of the heads and service by number

Over a run of successful calls of `Operator.WriteBlock`, the heads in memory
and in the database denote the first block with the greatest number, and
`GetBlockByNumber` serves the blocks that became the head.
-/

namespace Plasma.Core

open Plasma.Lib Plasma.Store

/-- All heads of a run denote one block by its hash: the first of the blocks
with the greatest number written so far.  A restart over the same database
loads a block with that hash or fails, and it only fails when a block without
an encoding was written. -/
structure HeadsDenote (p : Primitives) (genesis : Block) (run : WriteRun) :
    Prop where
  currentHeader : run.operator.chain.currentHeader =
    run.operator.chain.currentBlock.header
  currentFastBlock : run.operator.chain.currentFastBlock =
    run.operator.chain.currentBlock
  lastBlock : Rawdb.readHeadBlockHash run.operator.chain.db =
    run.operator.chain.currentBlock.hash p
  lastHeader : Rawdb.readHeadHeaderHash run.operator.chain.db =
    run.operator.chain.currentBlock.hash p
  first : Leads (genesis :: run.blocks) run.operator.chain.currentBlock
  greatest : ∀ block ∈ genesis :: run.blocks,
    block.number ≤ run.operator.chain.currentBlock.number
  loaded : ∀ disk chain,
    BlockChain.newBlockChain p disk run.operator.chain.db = .ok chain →
      chain.db = run.operator.chain.db ∧
      chain.currentBlock.header = run.operator.chain.currentBlock.header ∧
      chain.currentHeader = run.operator.chain.currentHeader ∧
      chain.currentFastBlock.header =
        run.operator.chain.currentFastBlock.header
  restored : (∀ block ∈ run.blocks, block.encodes = true) → ∀ disk, ∃ chain,
    BlockChain.newBlockChain p disk run.operator.chain.db = .ok chain

/-- All heads of a run are one block, and a restart over the same database
loads exactly this block. -/
def HeadsAgree (p : Primitives) (genesis : Block) (run : WriteRun) : Prop :=
  HeadsDenote p genesis run ∧
    ∀ disk, ∃ chain,
      BlockChain.newBlockChain p disk run.operator.chain.db = .ok chain ∧
        chain.currentBlock = run.operator.chain.currentBlock ∧
          chain.currentFastBlock = run.operator.chain.currentFastBlock

/-- A block that becomes the head has an encoding, and a block with the header
of the head has its transactions too. -/
def KeepsHead (run : WriteRun) (block : Block) : Prop :=
  (block.number > run.operator.chain.currentBlock.number →
    block.encodes = true) ∧
  (block.header = run.operator.chain.currentBlock.header →
    block.transactions = run.operator.chain.currentBlock.transactions)

instance (run : WriteRun) : DecidablePred (KeepsHead run) := by
  intro block
  unfold KeepsHead
  infer_instance

private theorem block_eq {first second : Block}
    (header : first.header = second.header)
    (transactions : first.transactions = second.transactions) :
    first = second := by
  cases first
  cases second
  cases header
  cases transactions
  rfl

namespace HeadState

section

variable {p : Primitives} {genesis : Block} {all : List Block} {run : WriteRun}

theorem restart (state : HeadState p genesis all run)
    (apart : HashesApart p (genesis :: all)) {stored : Block}
    (head : stored.header = run.operator.chain.currentBlock.header)
    (records : HeadRecords p run.operator.chain.db.db stored.header
      stored.transactions) (disk : Bool) :
    (stored.encodes = true ∧ ∃ cache,
      BlockChain.newBlockChain p disk run.operator.chain.db =
        .ok (BlockChain.atHead run.operator.chain.db stored cache)) ∨
      (stored.encodes = false ∧
        BlockChain.newBlockChain p disk run.operator.chain.db =
          .error .headBlockNotFound) := by
  have genesisNonzero := apart.nonzero genesis List.mem_cons_self
  have nonzero : p.headerHash stored.header ≠ 0 := by
    rw [head]
    exact apart.nonzero _ state.current_mem
  have agree : p.headerHash stored.header = p.headerHash genesis.header →
      stored.header = genesis.header := by
    rw [head]
    exact apart.apart _ state.current_mem genesis List.mem_cons_self
  cases encodes : stored.encodes with
  | true =>
      obtain ⟨cache, loaded, _⟩ := BlockChain.newBlockChain_head disk state.idle
        state.root records encodes genesisNonzero nonzero agree
      exact .inl ⟨rfl, cache, loaded⟩
  | false =>
      exact .inr ⟨rfl, BlockChain.newBlockChain_unencodable disk state.root
        records encodes genesisNonzero nonzero agree⟩

theorem headsDenote (state : HeadState p genesis all run)
    (start : genesis.encodes = true)
    (apart : HashesApart p (genesis :: all)) : HeadsDenote p genesis run := by
  obtain ⟨stored, member, head, records⟩ := state.records
  have restart := state.restart apart head records
  refine ⟨state.currentHeader, state.currentFastBlock,
    (readHash_of_record records.headBlock).trans (congrArg p.headerHash head),
    (readHash_of_record records.headHeader).trans (congrArg p.headerHash head),
    state.leads, state.greatest, ?_, ?_⟩
  · intro disk chain restarted
    rcases restart disk with ⟨_, cache, loaded⟩ | ⟨_, failed⟩
    · rw [loaded] at restarted
      cases restarted
      rw [state.currentHeader, state.currentFastBlock]
      exact ⟨rfl, head, head, head⟩
    · rw [failed] at restarted
      cases restarted
  · intro encodes disk
    rcases restart disk with ⟨_, cache, loaded⟩ | ⟨lost, _⟩
    · exact ⟨_, loaded⟩
    · rcases List.mem_cons.mp member with rfl | written
      · rw [start] at lost
        cases lost
      · rw [encodes stored written] at lost
        cases lost

theorem headsAgree_iff (state : HeadState p genesis all run)
    (start : genesis.encodes = true)
    (apart : HashesApart p (genesis :: all)) (stored : Block)
    (head : stored.header = run.operator.chain.currentBlock.header)
    (records : HeadRecords p run.operator.chain.db.db stored.header
      stored.transactions) :
    HeadsAgree p genesis run ↔
      stored.transactions = run.operator.chain.currentBlock.transactions ∧
        stored.encodes = true := by
  constructor
  · rintro ⟨_, restored⟩
    obtain ⟨chain, restarted, current, _⟩ := restored true
    rcases state.restart apart head records true with
      ⟨encodes, cache, loaded⟩ | ⟨_, failed⟩
    · rw [loaded] at restarted
      cases restarted
      exact ⟨congrArg Block.transactions current, encodes⟩
    · rw [failed] at restarted
      cases restarted
  · rintro ⟨own, encodes⟩
    have same : stored = run.operator.chain.currentBlock :=
      block_eq head own
    refine ⟨state.headsDenote start apart, ?_⟩
    intro disk
    rcases state.restart apart head records disk with
      ⟨_, cache, loaded⟩ | ⟨lost, _⟩
    · exact ⟨_, loaded, same, same.trans state.currentFastBlock.symm⟩
    · rw [encodes] at lost
      cases lost

theorem headsAgree_write_iff (state : HeadState p genesis all run)
    (start : genesis.number = 0) (genesisEncodes : genesis.encodes = true)
    (apart : HashesApart p (genesis :: all))
    {signer : EIP155Signer} {block : Block} (member : block ∈ all)
    (small : block.number < 2 ^ 63)
    (success : run.Succeeds p signer block)
    (agree : HeadsAgree p genesis run) :
    HeadsAgree p genesis (run.write p signer block).1 ↔
      KeepsHead run block := by
  have listed : block ∈ genesis :: all := List.mem_cons_of_mem _ member
  have unindexed := state.unindexed start small (apart.nonzero block listed)
  have next := state.write start apart member small success
  obtain ⟨stored, _, head, records⟩ := state.records
  obtain ⟨own, encodes⟩ :=
    (state.headsAgree_iff genesisEncodes apart stored head records).mp agree
  have same : stored = run.operator.chain.currentBlock := block_eq head own
  subst same
  have kept := records.write unindexed
    (apart.apart block listed _ state.current_mem)
  obtain ⟨_, result⟩ := WriteRun.write_of_success state.idle success unindexed
  have current : (run.write p signer block).1.operator.chain.currentBlock =
      if block.number > run.operator.chain.currentBlock.number then block
      else run.operator.chain.currentBlock := by
    rw [result]
    dsimp only
    split <;> rfl
  have header : (run.write p signer block).1.operator.chain.currentBlock.header =
      run.operator.chain.headAfter block
        run.operator.chain.currentBlock.header := by
    rw [current]
    exact apply_ite Block.header _ _ _
  have contents : (run.write p signer block).1.operator.chain.db.db =
      applyAll (run.operator.chain.writeBatch p block)
        run.operator.chain.db.db := by
    rw [result]
  rw [next.headsAgree_iff genesisEncodes apart
    ⟨run.operator.chain.headAfter block
        run.operator.chain.currentBlock.header,
      run.operator.chain.bodyAfter block
        run.operator.chain.currentBlock.header
        run.operator.chain.currentBlock.transactions⟩ header.symm
    (by rw [contents]; exact kept), current]
  unfold BlockChain.headAfter BlockChain.bodyAfter KeepsHead
  by_cases raises : block.number > run.operator.chain.currentBlock.number
  · have other : block.header ≠ run.operator.chain.currentBlock.header := by
      intro same
      simp only [Block.number, same] at raises
      exact absurd raises (lt_irrefl _)
    simp [raises, other]
  · by_cases same : block.header = run.operator.chain.currentBlock.header
    · simp only [raises, same, if_false, or_true, if_true, false_implies,
        true_and, true_implies]
      refine ⟨And.left, fun equal => ⟨equal, ?_⟩⟩
      rw [equal]
      exact encodes
    · simp [raises, same, encodes]

end

end HeadState

instance (p : Primitives) (signer : EIP155Signer) (run : WriteRun) :
    DecidablePred (run.Succeeds p signer) := by
  intro block
  unfold WriteRun.Succeeds
  infer_instance

namespace Sample

theorem startedWithGenesis :
    startWithGenesis primitives operatorAddr none = .ok operator :=
  (startOperator_eq_startWithGenesis _ _).symm.trans started

def emptiedDeposit : Block := ⟨depositBlock.header, []⟩

end Sample

/-- What a run over blocks with different numbers keeps besides the heads: the
data of every written block is stored and only the genesis block is cached. -/
structure StoredBlocks (p : Primitives) (genesis : Block) (run : WriteRun) :
    Prop where
  stored : ∀ block ∈ genesis :: run.blocks,
    run.operator.chain.db.db (.header block.numberU64 (block.hash p)) =
        some (Rawdb.headerData block.header) ∧
      run.operator.chain.db.db (.body block.numberU64 (block.hash p)) =
        some (Rawdb.bodyData block.transactions)
  cached : BlockCache.Caches run.operator.chain.blockCache fun hash block =>
    hash = genesis.hash p ∧ block = genesis
  later : ∀ block ∈ run.blocks, block.header ≠ genesis.header

def UnwrittenNumber (run : WriteRun) (block : Block) : Prop :=
  block.number ∉ run.blocks.map Block.number

theorem unwrittenNumber_steps (p : Primitives) (signer : EIP155Signer)
    {blocks : List Block} (run : WriteRun)
    (distinct : ((run.blocks ++ blocks).map Block.number).Nodup) :
    StepsMeet (WriteRun.write p signer) UnwrittenNumber run blocks := by
  induction blocks generalizing run with
  | nil => trivial
  | cons block blocks induction =>
      constructor
      · intro earlier
        rw [List.map_append] at distinct
        exact (List.nodup_append.mp distinct).2.2 _ earlier _
          (by simp) rfl
      · apply induction
        change ((run.blocks ++ [block] ++ blocks).map Block.number).Nodup
        simpa using distinct

namespace StoredBlocks

section

variable {p : Primitives} {genesis : Block} {all : List Block} {run : WriteRun}

theorem write (blocks : StoredBlocks p genesis run)
    (state : HeadState p genesis all run) (start : genesis.number = 0)
    (apart : HashesApart p (genesis :: all)) {signer : EIP155Signer}
    {block : Block} (member : block ∈ all) (small : block.number < 2 ^ 63)
    (success : run.Succeeds p signer block) (fresh : UnwrittenNumber run block) :
    StoredBlocks p genesis (run.write p signer block).1 := by
  have listed : block ∈ genesis :: all := List.mem_cons_of_mem _ member
  have unindexed := state.unindexed start small (apart.nonzero block listed)
  obtain ⟨accepted, next⟩ :=
    WriteRun.write_of_success state.idle success unindexed
  have other := state.root.header_ne accepted
  have different : ∀ earlier ∈ genesis :: run.blocks,
      earlier.hash p ≠ block.hash p := by
    intro earlier written sameHash
    rcases List.mem_cons.mp written with rfl | before
    · exact other (apart.apart _ listed _ List.mem_cons_self sameHash.symm)
    · have sameHeader := apart.apart _
        (List.mem_cons_of_mem _ (state.known _ before)) _ listed sameHash
      apply fresh
      rw [show block.number = earlier.number from
        congrArg Header.number sameHeader.symm]
      exact List.mem_map_of_mem before
  rw [next]
  refine ⟨?_, ?_, ?_⟩
  · intro earlier written
    rw [← List.cons_append] at written
    change applyAll (run.operator.chain.writeBatch p block)
        run.operator.chain.db.db _ = _ ∧
      applyAll (run.operator.chain.writeBatch p block)
        run.operator.chain.db.db _ = _
    rw [BlockChain.record_writeBatch p unindexed (by simp),
      BlockChain.record_writeBatch p unindexed (by simp)]
    rcases List.mem_append.mp written with before | last
    · have hash := different earlier before
      simpa [BlockChain.recordAfter, hash] using blocks.stored earlier before
    · rw [List.mem_singleton.mp last]
      simp [BlockChain.recordAfter]
  · split
    · exact blocks.cached
    · exact blocks.cached
  · intro later written
    rcases List.mem_append.mp written with before | last
    · exact blocks.later later before
    · rw [List.mem_singleton.mp last]
      exact other

/-- A written block is served by its number exactly when it became the head
and has an encoding. -/
theorem getBlockByNumber_iff (blocks : StoredBlocks p genesis run)
    (state : HeadState p genesis all run)
    (apart : HashesApart p (genesis :: all)) {block : Block}
    (member : block ∈ run.blocks) :
    (run.operator.chain.getBlockByNumber p block.numberU64).2 = some block ↔
      Leads (genesis :: run.blocks) block ∧ block.encodes = true := by
  have listed : block ∈ genesis :: all :=
    List.mem_cons_of_mem _ (state.known block member)
  constructor
  · intro served
    simp only [BlockChain.getBlockByNumber] at served
    split at served
    · cases served
    · rename_i nonzero
      obtain ⟨leader, leads, number, hash⟩ :=
        (state.canonical _ _).mp (record_of_readHash nonzero)
      obtain ⟨header, body⟩ := blocks.stored leader leads.mem
      rw [number, hash] at header body
      unfold BlockChain.getBlock at served
      cases found : BlockCache.find run.operator.chain.blockCache
          (Rawdb.readCanonicalHash run.operator.chain.db block.numberU64) with
      | some cached =>
          simp only [found, Option.some.injEq] at served
          have genesisServed := (blocks.cached _ _ found).2
          exact absurd (congrArg Block.header (served.symm.trans genesisServed))
            (blocks.later block member)
      | none =>
          have read : Rawdb.readBlock run.operator.chain.db
              (Rawdb.readCanonicalHash run.operator.chain.db block.numberU64)
              block.numberU64 = if leader.encodes then some leader else none :=
            readBlock_of_data leader header body
          simp only [found, read] at served
          cases encodes : leader.encodes with
          | true =>
              simp only [encodes, if_true, Option.some.injEq] at served
              rw [← served]
              exact ⟨leads, encodes⟩
          | false => simp [encodes] at served
  · rintro ⟨leads, encodes⟩
    have record := (state.canonical _ _).mpr ⟨block, leads, rfl, rfl⟩
    have hash : Rawdb.readCanonicalHash run.operator.chain.db
        block.numberU64 = block.hash p := readHash_of_record record
    obtain ⟨header, body⟩ := blocks.stored block
      (List.mem_cons_of_mem _ member)
    unfold BlockChain.getBlockByNumber BlockChain.getBlock
    rw [hash, if_neg (apart.nonzero block listed)]
    cases found : BlockCache.find run.operator.chain.blockCache
        (block.hash p) with
    | some cached =>
        have same := (blocks.cached _ _ found).1
        exact absurd (apart.apart _ listed _ List.mem_cons_self same)
          (blocks.later block member)
    | none => simp [readBlock_of_data block header body, encodes]

end

end StoredBlocks

/-- Over a run of successful writes of blocks with different numbers, every
written block is served by its number exactly when the numbers increase and
every block has an encoding. -/
theorem served_by_number_iff (p : Primitives) (signer : EIP155Signer)
    {addr : Address} {genesis : Option Genesis} {o : Operator}
    (started : startWithGenesis p addr genesis = .ok o) {blocks : List Block}
    (successful : StepsMeet (WriteRun.write p signer)
      (WriteRun.Succeeds p signer) ⟨o, []⟩ blocks)
    (distinct : (blocks.map Block.number).Nodup)
    (small : ∀ block ∈ blocks, block.number < 2 ^ 63)
    (apart : HashesApart p (chosenGenesis p genesis :: blocks)) :
    (∀ block ∈ blocks,
      ((execute (WriteRun.write p signer) ⟨o, []⟩
        blocks).1.operator.chain.getBlockByNumber p block.numberU64).2 =
          some block) ↔
      (0 :: blocks.map Block.number).Pairwise (· < ·) ∧
        ∀ block ∈ blocks, block.encodes = true := by
  have nonzero := apart.nonzero _ List.mem_cons_self
  obtain ⟨initial, start, records, cached⟩ :=
    headState_start started nonzero blocks
  have first : o.chain.currentBlock = chosenGenesis p genesis :=
    List.mem_singleton.mp initial.leads.mem
  have initialBlocks : StoredBlocks p (chosenGenesis p genesis) ⟨o, []⟩ := by
    refine ⟨?_, cached, by simp⟩
    intro block member
    rw [List.mem_singleton.mp member]
    rw [first] at records
    exact ⟨records.header, records.body⟩
  have admitted := (successful.and (unwrittenNumber_steps p signer ⟨o, []⟩
    distinct)).and_forall (Q := fun block => block ∈ blocks)
      fun _ member => member
  obtain ⟨state, stored, written⟩ := execute_induction _ _
    (fun past run _ =>
      HeadState p (chosenGenesis p genesis) blocks run ∧
        StoredBlocks p (chosenGenesis p genesis) run ∧ run.blocks = past)
    (by
      rintro past run history block ⟨state, stored, rfl⟩
        ⟨⟨success, unwritten⟩, member⟩
      exact ⟨state.write start apart member (small block member) success,
        stored.write state start apart member (small block member) success
          unwritten, rfl⟩)
    ⟨initial, initialBlocks, rfl⟩ admitted
  generalize (execute (WriteRun.write p signer) ⟨o, []⟩ blocks).1 = final
    at state stored written ⊢
  have served : ∀ block ∈ blocks,
      (final.operator.chain.getBlockByNumber p block.numberU64).2 =
          some block ↔
        Leads (chosenGenesis p genesis :: blocks) block ∧
          block.encodes = true := by
    intro block member
    rw [← written] at member ⊢
    exact stored.getBlockByNumber_iff state apart member
  have nodup : (chosenGenesis p genesis :: blocks).Nodup := by
    refine List.nodup_cons.mpr ⟨?_, List.Nodup.of_map _ distinct⟩
    intro member
    rw [← written] at member
    exact stored.later _ member rfl
  have numbers : (0 :: blocks.map Block.number).Pairwise (· < ·) ↔
      (chosenGenesis p genesis :: blocks).Pairwise
        fun before after => before.number < after.number := by
    rw [← start, ← List.map_cons, List.pairwise_map]
  rw [numbers, ← forall_leads_iff nodup, List.forall_mem_cons]
  constructor
  · intro all
    refine ⟨⟨leads_first _ _, ?_⟩, ?_⟩
    · intro block member
      exact ((served block member).mp (all block member)).1
    · intro block member
      exact ((served block member).mp (all block member)).2
  · rintro ⟨⟨_, leads⟩, encodes⟩ block member
    exact (served block member).mpr
      ⟨leads block member, encodes block member⟩

theorem deposit_and_child_block_served :
    ((execute (WriteRun.write Sample.primitives Sample.signer)
      ⟨Sample.operator, []⟩ [Sample.depositBlock,
        Sample.emptyBlock]).1.operator.chain.getBlockByNumber
          Sample.primitives Sample.depositBlock.numberU64).2 =
        some Sample.depositBlock ∧
      ((execute (WriteRun.write Sample.primitives Sample.signer)
        ⟨Sample.operator, []⟩ [Sample.depositBlock,
          Sample.emptyBlock]).1.operator.chain.getBlockByNumber
            Sample.primitives Sample.emptyBlock.numberU64).2 =
        some Sample.emptyBlock := by
  have increasing : (0 :: [Sample.depositBlock, Sample.emptyBlock].map
      Block.number).Pairwise (· < ·) := by
    decide
  have served := (served_by_number_iff Sample.primitives Sample.signer
    Sample.startedWithGenesis (by decide +kernel) (by decide) (by decide)
    ⟨by decide, by decide⟩).mpr ⟨increasing, by decide +kernel⟩
  exact ⟨served _ (by simp), served _ (by simp)⟩

/-- A deposit block written after a child block is stored, but not served by
its number. -/
theorem late_deposit_not_served :
    StepsMeet (WriteRun.write Sample.primitives Sample.signer)
        (WriteRun.Succeeds Sample.primitives Sample.signer)
        ⟨Sample.operator, []⟩ [Sample.emptyBlock, Sample.depositBlock] ∧
      ((execute (WriteRun.write Sample.primitives Sample.signer)
        ⟨Sample.operator, []⟩ [Sample.emptyBlock,
          Sample.depositBlock]).1.operator.chain.getBlockByNumber
            Sample.primitives 1).2 = none := by
  constructor <;> decide +kernel

end Plasma.Core
