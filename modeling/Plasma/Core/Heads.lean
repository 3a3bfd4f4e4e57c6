import Plasma.Core.Replay
import Plasma.Core.Restart
import Plasma.Lib.Trace

/-!
# The heads of the chain over runs of written blocks

A written block becomes the head when its number exceeds the number of the
head.  Over a run of successful calls of `Operator.WriteBlock` the head
pointers in memory, the stored head hashes and the canonical index are related
to the blocks written so far, and a restart loads the head again.
-/

namespace Plasma.Core

open Plasma.Lib Plasma.Store

namespace BlockChain

section

variable (p : Primitives)

/-- What a key holds after a block has been written whose number is not yet in
the canonical index.  The keys of outputs are left out. -/
def recordAfter (chain : BlockChain) (block : Block) : DbKey → Option DbValue
  | .canonicalHash number =>
      if block.number > chain.currentBlock.number ∧
          number = block.numberU64 then
        some (.hash (block.hash p))
      else chain.db.db (.canonicalHash number)
  | .headerNumber hash =>
      if hash = block.hash p then some (.number block.numberU64)
      else chain.db.db (.headerNumber hash)
  | .header number hash =>
      if number = block.numberU64 ∧ hash = block.hash p then
        some (Rawdb.headerData block.header)
      else chain.db.db (.header number hash)
  | .body number hash =>
      if number = block.numberU64 ∧ hash = block.hash p then
        some (Rawdb.bodyData block.transactions)
      else chain.db.db (.body number hash)
  | .headHeader =>
      if block.number > chain.currentBlock.number then
        some (.hash (block.hash p))
      else chain.db.db .headHeader
  | .headBlock =>
      if block.number > chain.currentBlock.number then
        some (.hash (block.hash p))
      else chain.db.db .headBlock
  | .headFastBlock =>
      if block.number > chain.currentBlock.number then
        some (.hash (block.hash p))
      else chain.db.db .headFastBlock
  | .utxo id => chain.db.db (.utxo id)
  | .fromBlock => chain.db.db .fromBlock
  | .eventMarker marker => chain.db.db (.eventMarker marker)

/-- The block is not yet the one the canonical index names, if it is to become
the head. -/
def Unindexed (chain : BlockChain) (block : Block) : Prop :=
  block.number > chain.currentBlock.number →
    Rawdb.readCanonicalHash chain.db block.numberU64 ≠ block.hash p

theorem record_writeBatch {chain : BlockChain} {block : Block}
    (unindexed : chain.Unindexed p block) {key : DbKey}
    (plain : ∀ id, key ≠ .utxo id) :
    applyAll (chain.writeBatch p block) chain.db.db key =
      chain.recordAfter p block key := by
  have outputs : ∀ contents : Contents,
      applyAll (block.changes.map outputChange) contents key =
        contents key := by
    intro contents
    apply applyAll_of_keys
    intro change member
    obtain ⟨effect, _, rfl⟩ := List.mem_map.mp member
    cases effect with
    | delete id => exact (plain id).symm
    | put id out => exact (plain id).symm
  rw [writeBatch, applyAll_append, outputs, applyAll_append]
  by_cases raises : block.number > chain.currentBlock.number
  · have fresh := unindexed raises
    cases key <;> simp [headChanges, raises, fresh, recordAfter,
      Rawdb.blockChanges, Change.apply, Change.key, Change.outcome,
      Function.update_apply]
  · cases key <;> simp [raises, recordAfter, Rawdb.blockChanges,
      Change.apply, Change.key, Change.outcome, Function.update_apply]

theorem headed_of_unindexed {chain : BlockChain} {block : Block}
    (unindexed : chain.Unindexed p block) :
    chain.headed p block =
      if block.number > chain.currentBlock.number then
        { chain with
          currentBlock := block
          currentHeader := block.header
          currentFastBlock := block }
      else chain := by
  unfold headed
  split
  · rename_i raises
    rw [if_pos (bne_iff_ne.mpr (unindexed raises))]
  · rfl

/-- An accepted block was not known, so that looking it up left the cache as
it was. -/
theorem viewed_of_accepted {signer : EIP155Signer} {chain : BlockChain}
    {block : Block} (accepted : chain.verdict p signer block = .ok ()) :
    chain.viewed p block = chain := by
  unfold verdict at accepted
  unfold viewed
  split at accepted
  · rename_i deposit
    rw [if_pos deposit]
  · rename_i child
    rw [if_neg child]
    cases known : (chain.hasBlock p (block.hash p) block.numberU64).2 with
    | true =>
        rw [known] at accepted
        cases accepted
    | false =>
        unfold hasBlock getBlock at known ⊢
        cases found : BlockCache.find chain.blockCache (block.hash p) with
        | some cached => simp [found] at known
        | none =>
            cases read : Rawdb.readBlock chain.db (block.hash p)
                block.numberU64 with
            | some stored => simp [found, read] at known
            | none => rfl

end

end BlockChain

/-- The block stands in the list with smaller numbers only before it. -/
def Leads (blocks : List Block) (block : Block) : Prop :=
  ∃ earlier later, blocks = earlier ++ block :: later ∧
    ∀ before ∈ earlier, before.number < block.number

theorem Leads.mem {blocks : List Block} {block : Block}
    (leads : Leads blocks block) : block ∈ blocks := by
  obtain ⟨earlier, later, rfl, _⟩ := leads
  simp

theorem leads_first (first : Block) (blocks : List Block) :
    Leads (first :: blocks) first :=
  ⟨[], blocks, rfl, by simp⟩

theorem leads_snoc {blocks : List Block} {last block : Block} :
    Leads (blocks ++ [last]) block ↔
      Leads blocks block ∨
        (block = last ∧ ∀ before ∈ blocks, before.number < last.number) := by
  constructor
  · rintro ⟨earlier, later, split, smaller⟩
    rcases List.eq_nil_or_concat later with rfl | ⟨rest, final, rfl⟩
    · obtain ⟨same, tail⟩ := List.append_inj' split rfl
      cases tail
      subst same
      exact Or.inr ⟨rfl, smaller⟩
    · left
      have regrouped : blocks ++ [last] =
          (earlier ++ block :: rest) ++ [final] := by
        simpa using split
      exact ⟨earlier, rest, (List.append_inj' regrouped rfl).1, smaller⟩
  · rintro (⟨earlier, later, rfl, smaller⟩ | ⟨rfl, smaller⟩)
    · exact ⟨earlier, later ++ [last], by simp, smaller⟩
    · exact ⟨blocks, [], rfl, smaller⟩

/-- A block that leads a list is the first one or has a larger number. -/
theorem Leads.first_le {first : Block} {blocks : List Block} {block : Block}
    (leads : Leads (first :: blocks) block) :
    first.number ≤ block.number := by
  obtain ⟨earlier, later, split, smaller⟩ := leads
  cases earlier with
  | nil =>
      cases split
      exact le_refl _
  | cons before rest =>
      cases split
      exact (smaller first List.mem_cons_self).le

/-- All blocks of a list lead it exactly when the numbers increase. -/
theorem forall_leads_iff {blocks : List Block} (nodup : blocks.Nodup) :
    (∀ block ∈ blocks, Leads blocks block) ↔
      blocks.Pairwise fun before after => before.number < after.number := by
  constructor
  · intro leads
    induction blocks using List.reverseRecOn with
    | nil => exact List.Pairwise.nil
    | append_singleton blocks last induction =>
        obtain ⟨distinct, _, apart⟩ := List.nodup_append.mp nodup
        have fresh : last ∉ blocks := by
          intro member
          exact apart last member last (by simp) rfl
        refine List.pairwise_append.mpr ⟨induction distinct ?_, by simp, ?_⟩
        · intro block member
          rcases leads_snoc.mp (leads block (by simp [member])) with
            before | ⟨rfl, _⟩
          · exact before
          · exact absurd member fresh
        · intro before member after single
          rw [List.mem_singleton.mp single]
          rcases leads_snoc.mp (leads last (by simp)) with
            earlier | ⟨_, smaller⟩
          · exact absurd earlier.mem fresh
          · exact smaller before member
  · intro increasing block member
    obtain ⟨earlier, later, rfl⟩ := List.append_of_mem member
    refine ⟨earlier, later, rfl, ?_⟩
    intro before earlierMember
    exact (List.pairwise_append.mp increasing).2.2 before earlierMember block
      List.mem_cons_self

/-- Different headers have different hashes and no hash is zero. -/
structure HashesApart (p : Primitives) (blocks : List Block) : Prop where
  nonzero : ∀ block ∈ blocks, block.hash p ≠ 0
  apart : ∀ block ∈ blocks, ∀ other ∈ blocks,
    block.hash p = other.hash p → block.header = other.header

/-- An operator with the blocks written so far. -/
structure WriteRun where
  operator : Operator
  blocks : List Block

namespace WriteRun

def write (p : Primitives) (signer : EIP155Signer) (run : WriteRun)
    (block : Block) : WriteRun × List NodeEvent :=
  let (operator, events, _) := run.operator.writeBlock p signer true block
  (⟨operator, run.blocks ++ [block]⟩, events)

def Succeeds (p : Primitives) (signer : EIP155Signer) (run : WriteRun)
    (block : Block) : Prop :=
  (run.operator.writeBlock p signer true block).2.2 = .ok ()

/-- What a successful call leaves behind. -/
theorem write_of_success {p : Primitives} {signer : EIP155Signer}
    {run : WriteRun} {block : Block} (idle : run.operator.chain.db.Idle)
    (success : run.Succeeds p signer block)
    (unindexed : run.operator.chain.Unindexed p block) :
    run.operator.chain.verdict p signer block = .ok () ∧
      (run.write p signer block).1 =
        { operator :=
            { run.operator with
              chain :=
                { (if block.number > run.operator.chain.currentBlock.number then
                    BlockChain.atHead run.operator.chain.db block
                      run.operator.chain.blockCache
                  else run.operator.chain) with
                  db := ⟨applyAll (run.operator.chain.writeBatch p block)
                    run.operator.chain.db.db, false, []⟩ } }
          blocks := run.blocks ++ [block] } := by
  obtain ⟨_, accepted, chain⟩ := BlockChain.writeWith_of_ok p
    (Operator.buffersDeletions_removeInputs true) idle.clean success
  refine ⟨accepted, ?_⟩
  rw [BlockChain.viewed_of_accepted p accepted,
    BlockChain.headed_of_unindexed p unindexed] at chain
  simp only [write, Operator.writeBlock, chain]
  rfl

end WriteRun

/-- What every state reached by written blocks keeps, for a run whose blocks
are all taken from `all`. -/
structure HeadState (p : Primitives) (genesis : Block) (all : List Block)
    (run : WriteRun) : Prop where
  idle : run.operator.chain.db.Idle
  known : ∀ block ∈ run.blocks, block ∈ all
  currentHeader : run.operator.chain.currentHeader =
    run.operator.chain.currentBlock.header
  currentFastBlock : run.operator.chain.currentFastBlock =
    run.operator.chain.currentBlock
  leads : Leads (genesis :: run.blocks) run.operator.chain.currentBlock
  greatest : ∀ block ∈ genesis :: run.blocks,
    block.number ≤ run.operator.chain.currentBlock.number
  small : run.operator.chain.currentBlock.number < 2 ^ 63
  records : ∃ stored ∈ genesis :: run.blocks,
    stored.header = run.operator.chain.currentBlock.header ∧
      HeadRecords p run.operator.chain.db.db stored.header stored.transactions
  root : GenesisRecords p run.operator.chain.db.db genesis.header
    genesis.transactions
  canonical : ∀ number hash,
    run.operator.chain.db.db (.canonicalHash number) = some (.hash hash) ↔
      ∃ block, Leads (genesis :: run.blocks) block ∧
        block.numberU64 = number ∧ block.hash p = hash

namespace HeadState

section

variable {p : Primitives} {genesis : Block} {all : List Block} {run : WriteRun}

theorem current_mem (state : HeadState p genesis all run) :
    run.operator.chain.currentBlock ∈ genesis :: all := by
  rcases List.mem_cons.mp state.leads.mem with first | written
  · exact List.mem_cons.mpr (Or.inl first)
  · exact List.mem_cons_of_mem _ (state.known _ written)

/-- A block with a larger number than the head is not in the canonical
index. -/
theorem canonical_above (state : HeadState p genesis all run)
    (start : genesis.number = 0) {block : Block}
    (small : block.number < 2 ^ 63)
    (raises : block.number > run.operator.chain.currentBlock.number)
    {indexed : Block} (leads : Leads (genesis :: run.blocks) indexed) :
    indexed.numberU64 ≠ block.numberU64 := by
  intro same
  have below := state.greatest indexed leads.mem
  have nonneg := leads.first_le
  have bound := state.small
  have equal := (uint64_eq_iff _ _).mp same
  simp only [Block.number] at below nonneg small raises bound start
  rw [Nat.mod_eq_of_lt (by omega), Nat.mod_eq_of_lt (by omega)] at equal
  omega

theorem unindexed (state : HeadState p genesis all run)
    (start : genesis.number = 0) {block : Block}
    (small : block.number < 2 ^ 63) (nonzero : block.hash p ≠ 0) :
    run.operator.chain.Unindexed p block := by
  intro raises indexed
  have record : run.operator.chain.db.db (.canonicalHash block.numberU64) =
      some (.hash (Rawdb.readCanonicalHash run.operator.chain.db
        block.numberU64)) :=
    record_of_readHash fun zero => nonzero (indexed.symm.trans zero)
  obtain ⟨other, leads, number, _⟩ := (state.canonical _ _).mp record
  exact state.canonical_above start small raises leads number

end

end HeadState

/-- The stored head after a block has been written. -/
def BlockChain.headAfter (chain : BlockChain) (block : Block)
    (head : Header) : Header :=
  if block.number > chain.currentBlock.number then block.header else head

/-- The transactions stored for the head after a block has been written, where
`transactions` were stored for `head` before. -/
def BlockChain.bodyAfter (chain : BlockChain) (block : Block) (head : Header)
    (transactions : List Transaction) : List Transaction :=
  if block.number > chain.currentBlock.number ∨ block.header = head then
    block.transactions
  else transactions

section

variable {p : Primitives} {chain : BlockChain} {block : Block}

theorem HeadRecords.write {head : Header} {transactions : List Transaction}
    (records : HeadRecords p chain.db.db head transactions)
    (unindexed : chain.Unindexed p block)
    (apart : block.hash p = p.headerHash head → block.header = head) :
    HeadRecords p (applyAll (chain.writeBatch p block) chain.db.db)
      (chain.headAfter block head)
      (chain.bodyAfter block head transactions) := by
  unfold BlockChain.headAfter BlockChain.bodyAfter
  by_cases raises : block.number > chain.currentBlock.number
  · simp only [raises, if_true, true_or]
    constructor
    all_goals
      simp [BlockChain.record_writeBatch p unindexed, BlockChain.recordAfter,
        raises, Block.numberU64, Block.hash]
  · simp only [raises, if_false, false_or]
    have kept : ∀ key ∈ [DbKey.headBlock, .headHeader, .headFastBlock],
        applyAll (chain.writeBatch p block) chain.db.db key =
          chain.db.db key := by
      intro key member
      simp only [List.mem_cons, List.not_mem_nil, or_false] at member
      rcases member with rfl | rfl | rfl
      all_goals
        simp [BlockChain.record_writeBatch p unindexed,
          BlockChain.recordAfter, raises]
    refine ⟨(kept _ (by simp)).trans records.headBlock,
      (kept _ (by simp)).trans records.headHeader,
      records.headFastBlock.imp (kept _ (by simp)).trans
        (kept _ (by simp)).trans, ?_, ?_, ?_⟩
    all_goals
      rw [BlockChain.record_writeBatch p unindexed (by simp)]
      by_cases same : block.header = head
      · simp [BlockChain.recordAfter, Block.numberU64, Block.hash, same]
      · have other : p.headerHash head ≠ block.hash p :=
          fun equal => same (apart equal.symm)
        simp [BlockChain.recordAfter, other, same, records.headerNumber,
          records.header, records.body]

/-- The block of number 0 takes the validated path, which refuses the stored
genesis block. -/
theorem GenesisRecords.header_ne {genesis : Header}
    {transactions : List Transaction}
    (root : GenesisRecords p chain.db.db genesis transactions)
    {signer : EIP155Signer}
    (verdict : chain.verdict p signer block = .ok ()) :
    block.header ≠ genesis := by
  intro same
  have number : block.numberU64 = 0 := by
    rw [Block.numberU64, same]
    exact root.number
  have path : block.onDepositPath = false := by
    rw [Block.onDepositPath_congr ⟨⟨0, 0, 0, 0, 0, []⟩, []⟩ block number]
    rfl
  refine BlockChain.not_stored_of_verdict path verdict ?_
  rw [Stored, number, Block.hash, same]
  exact ⟨⟨_, root.header⟩, _, root.body⟩

theorem GenesisRecords.write {genesis : Header}
    {transactions : List Transaction}
    (root : GenesisRecords p chain.db.db genesis transactions)
    {signer : EIP155Signer}
    (verdict : chain.verdict p signer block = .ok ())
    (unindexed : chain.Unindexed p block)
    (apart : block.hash p = p.headerHash genesis → block.header = genesis)
    (unraised : block.number > chain.currentBlock.number →
      block.numberU64 ≠ 0) :
    GenesisRecords p (applyAll (chain.writeBatch p block) chain.db.db) genesis
      transactions := by
  have canonical : applyAll (chain.writeBatch p block) chain.db.db
      (.canonicalHash 0) = some (.hash (p.headerHash genesis)) := by
    rw [BlockChain.record_writeBatch p unindexed (by simp)]
    simp only [BlockChain.recordAfter, root.canonicalHash]
    rw [if_neg]
    rintro ⟨raises, zero⟩
    exact unraised raises zero.symm
  have other : p.headerHash genesis ≠ block.hash p :=
    fun equal => root.header_ne verdict (apart equal.symm)
  refine ⟨root.number, canonical, ?_, ?_⟩
  all_goals
    rw [BlockChain.record_writeBatch p unindexed (by simp)]
    simp [BlockChain.recordAfter, other, root.header, root.body]

end

namespace HeadState

section

variable {p : Primitives} {genesis : Block} {all : List Block} {run : WriteRun}

/-- The canonical index after a write names the blocks that lead the longer
list. -/
private theorem canonical_write (state : HeadState p genesis all run)
    (start : genesis.number = 0) {block : Block}
    (small : block.number < 2 ^ 63) (nonzero : block.hash p ≠ 0)
    (number : UInt64) (hash : Hash) :
    applyAll (run.operator.chain.writeBatch p block) run.operator.chain.db.db
        (.canonicalHash number) = some (.hash hash) ↔
      ∃ leader, Leads (genesis :: run.blocks ++ [block]) leader ∧
        leader.numberU64 = number ∧ leader.hash p = hash := by
  have unindexed := state.unindexed start small nonzero
  rw [BlockChain.record_writeBatch p unindexed (by simp)]
  simp only [BlockChain.recordAfter, leads_snoc]
  by_cases raises : block.number > run.operator.chain.currentBlock.number
  · have above : ∀ before ∈ genesis :: run.blocks,
        before.number < block.number := by
      intro before member
      exact lt_of_le_of_lt (state.greatest before member) raises
    by_cases own : number = block.numberU64
    · rw [if_pos ⟨raises, own⟩]
      constructor
      · intro same
        cases same
        exact ⟨block, Or.inr ⟨rfl, above⟩, own.symm, rfl⟩
      · rintro ⟨leader, earlier | ⟨rfl, _⟩, sameNumber, sameHash⟩
        · exact absurd (sameNumber.trans own)
            (state.canonical_above start small raises earlier)
        · rw [sameHash]
    · rw [if_neg (fun both => own both.2), state.canonical]
      constructor
      · rintro ⟨leader, leads, indexed⟩
        exact ⟨leader, Or.inl leads, indexed⟩
      · rintro ⟨leader, earlier | ⟨rfl, _⟩, indexed⟩
        · exact ⟨leader, earlier, indexed⟩
        · exact absurd indexed.1.symm own
  · rw [if_neg (fun both => raises both.1), state.canonical]
    constructor
    · rintro ⟨leader, leads, indexed⟩
      exact ⟨leader, Or.inl leads, indexed⟩
    · rintro ⟨leader, earlier | ⟨rfl, above⟩, indexed⟩
      · exact ⟨leader, earlier, indexed⟩
      · exact absurd (above _ state.leads.mem) raises

/-- A successful write keeps the invariant. -/
theorem write (state : HeadState p genesis all run)
    (start : genesis.number = 0) (apart : HashesApart p (genesis :: all))
    {signer : EIP155Signer} {block : Block} (member : block ∈ all)
    (small : block.number < 2 ^ 63)
    (success : run.Succeeds p signer block) :
    HeadState p genesis all (run.write p signer block).1 := by
  have listed : block ∈ genesis :: all := List.mem_cons_of_mem _ member
  have nonzero := apart.nonzero block listed
  have unindexed := state.unindexed start small nonzero
  obtain ⟨verdict, next⟩ :=
    WriteRun.write_of_success state.idle success unindexed
  obtain ⟨stored, storedMember, head, records⟩ := state.records
  rw [head] at records
  have kept := records.write unindexed
    (apart.apart block listed _ state.current_mem)
  have rooted := state.root.write verdict unindexed
    (apart.apart block listed genesis List.mem_cons_self) (by
      intro raises zero
      have above := state.canonical_above start small raises
        (leads_first genesis run.blocks)
      exact above (state.root.number.trans zero.symm))
  have canonical := state.canonical_write start small nonzero
  have known : ∀ written ∈ run.blocks ++ [block], written ∈ all := by
    intro written writtenMember
    rcases List.mem_append.mp writtenMember with earlier | last
    · exact state.known written earlier
    · rw [List.mem_singleton.mp last]
      exact member
  rw [next]
  unfold BlockChain.headAfter BlockChain.bodyAfter at kept
  by_cases raises : block.number > run.operator.chain.currentBlock.number
  · have above : ∀ before ∈ genesis :: run.blocks,
        before.number < block.number := by
      intro before earlier
      exact lt_of_le_of_lt (state.greatest before earlier) raises
    simp only [raises, true_or, if_true] at kept ⊢
    refine ⟨⟨rfl, rfl⟩, known, rfl, rfl, ?_, ?_, small,
      ⟨block, by simp, rfl, kept⟩, rooted, canonical⟩
    · exact leads_snoc.mpr (Or.inr ⟨rfl, above⟩)
    · intro before member
      rw [← List.cons_append] at member
      rcases List.mem_append.mp member with earlier | last
      · exact (above before earlier).le
      · rw [List.mem_singleton.mp last]
        exact le_refl _
  · simp only [raises, false_or, if_false] at kept ⊢
    refine ⟨⟨rfl, rfl⟩, known, state.currentHeader, state.currentFastBlock,
      ?_, ?_, state.small, ?_, rooted, canonical⟩
    · exact leads_snoc.mpr (Or.inl state.leads)
    · intro before member
      rw [← List.cons_append] at member
      rcases List.mem_append.mp member with earlier | last
      · exact state.greatest before earlier
      · rw [List.mem_singleton.mp last]
        exact not_lt.mp raises
    · by_cases same : block.header = run.operator.chain.currentBlock.header
      · rw [if_pos same] at kept
        exact ⟨block, by simp, same, same ▸ kept⟩
      · rw [if_neg same] at kept
        refine ⟨stored, ?_, head, head ▸ kept⟩
        rcases List.mem_cons.mp storedMember with first | written
        · exact List.mem_cons.mpr (.inl first)
        · exact List.mem_cons_of_mem _ (List.mem_append_left _ written)

end

end HeadState

/-- The block `SetupGenesisBlock` writes into a database without genesis. -/
def chosenGenesis (p : Primitives) (genesis : Option Genesis) : Block :=
  (genesis.getD Genesis.defaultGenesisBlock).toBlock p

/-- The start of an operator over an empty database that is first initialised
with a genesis block. -/
def startWithGenesis (p : Primitives) (addr : Address)
    (genesis : Option Genesis) : Except StartError Operator :=
  match setupGenesisBlock p true genesis Database.empty with
  | (_, .error failure) => .error failure
  | (d, .ok _) =>
      match BlockChain.newBlockChain p true d with
      | .error failure => .error failure
      | .ok chain => .ok (Operator.newOperator addr chain ⟨[], []⟩)

/-- The start of an operator uses the default genesis block. -/
theorem startOperator_eq_startWithGenesis (p : Primitives) (addr : Address) :
    startOperator p true addr Database.empty =
      startWithGenesis p addr none := by
  unfold startOperator startChain startWithGenesis
  cases setupGenesisBlock p true none Database.empty with
  | mk d result =>
      cases result with
      | error failure => rfl
      | ok done => rfl

section Start

variable (p : Primitives)

/-- The records of a database initialised with a block. -/
def initialised (block : Block) : Contents :=
  applyAll
    (Rawdb.blockChanges p block ++
      [.put (.canonicalHash block.numberU64) (.hash (block.hash p)),
        .put .headBlock (.hash (block.hash p)),
        .put .headHeader (.hash (block.hash p))]) fun _ => none

variable {p}

theorem setupGenesisBlock_initialised {genesis : Option Genesis}
    {d : Database}
    (done : setupGenesisBlock p true genesis Database.empty = (d, .ok ())) :
    (chosenGenesis p genesis).number = 0 ∧
      d = ⟨initialised p (chosenGenesis p genesis), false, []⟩ := by
  have absent : Rawdb.readCanonicalHash Database.empty 0 = 0 := rfl
  simp only [setupGenesisBlock, absent, if_true, Genesis.commit] at done
  by_cases zero : (chosenGenesis p genesis).number = 0
  · refine ⟨zero, ?_⟩
    unfold chosenGenesis at zero
    simp only [zero, ne_eq, not_true_eq_false, if_false] at done
    exact (Prod.mk.inj done).1.symm
  · unfold chosenGenesis at zero
    simp only [ne_eq, zero, not_false_eq_true, if_true] at done
    cases (Prod.mk.inj done).2

theorem initialised_headRecords (block : Block) :
    HeadRecords p (initialised p block) block.header block.transactions := by
  constructor
  case headFastBlock =>
    left
    simp [initialised, Rawdb.blockChanges, Change.apply, Change.key]
  all_goals
    simp [initialised, Rawdb.blockChanges, Change.apply, Change.key,
      Change.outcome, Block.numberU64, Block.hash]

theorem initialised_genesisRecords {block : Block} (zero : block.number = 0)
    (encodes : block.encodes = true) :
    GenesisRecords p (initialised p block) block.header
      block.transactions := by
  have number : uint64 block.header.number = 0 := by
    rw [show block.header.number = 0 from zero]
    rfl
  have header := Rawdb.headerData_of_encodes (Block.encodes_header encodes)
  have body := Rawdb.bodyData_of_encodes (Block.encodes_body encodes)
  refine ⟨number, ?_, ?_, ?_⟩
  all_goals
    simp [initialised, Rawdb.blockChanges, Change.apply, Change.key,
      Change.outcome, Block.numberU64, Block.hash, number, header, body]

theorem initialised_canonicalHash {block : Block} (number : UInt64)
    (hash : Hash) :
    initialised p block (.canonicalHash number) = some (.hash hash) ↔
      block.numberU64 = number ∧ block.hash p = hash := by
  simp [initialised, Rawdb.blockChanges, Change.apply, Change.key,
    Change.outcome, Function.update_apply, eq_comm]

/-- A start that succeeds leaves all heads at the genesis block, with its
records in the database and only that block in the cache. -/
theorem headState_start {addr : Address} {genesis : Option Genesis}
    {o : Operator} (started : startWithGenesis p addr genesis = .ok o)
    (nonzero : (chosenGenesis p genesis).hash p ≠ 0) (all : List Block) :
    HeadState p (chosenGenesis p genesis) all ⟨o, []⟩ ∧
      (chosenGenesis p genesis).number = 0 ∧
      HeadRecords p o.chain.db.db o.chain.currentBlock.header
        o.chain.currentBlock.transactions ∧
      BlockCache.Caches o.chain.blockCache fun hash block =>
        hash = (chosenGenesis p genesis).hash p ∧
          block = chosenGenesis p genesis := by
  unfold startWithGenesis at started
  cases setup : setupGenesisBlock p true genesis Database.empty with
  | mk d result =>
      cases result with
      | error failure =>
          rw [setup] at started
          cases started
      | ok done =>
          obtain ⟨zero, rfl⟩ := setupGenesisBlock_initialised setup
          have records : HeadRecords p _ _ _ :=
            initialised_headRecords (chosenGenesis p genesis)
          have encodes : (chosenGenesis p genesis).encodes = true :=
            Genesis.toBlock_encodes p _
          have root := initialised_genesisRecords (p := p) zero encodes
          obtain ⟨cache, loaded, caches⟩ := BlockChain.newBlockChain_head true
            (d := ⟨initialised p (chosenGenesis p genesis), false, []⟩)
            ⟨rfl, rfl⟩ root records encodes nonzero nonzero (fun _ => rfl)
          rw [setup] at started
          simp only [loaded] at started
          cases started
          refine ⟨?_, zero, records, ?_⟩
          · refine ⟨⟨rfl, rfl⟩, by simp, rfl, rfl, leads_first _ _, ?_, ?_,
              ⟨_, List.mem_cons_self, rfl, records⟩, root, ?_⟩
            · intro block member
              rw [List.mem_singleton.mp member]
              exact le_refl _
            · change (chosenGenesis p genesis).number < 2 ^ 63
              rw [zero]
              decide
            · intro number hash
              refine (initialised_canonicalHash number hash).trans ⟨?_, ?_⟩
              · intro entry
                exact ⟨_, leads_first _ _, entry⟩
              · rintro ⟨block, leads, entry⟩
                rw [List.mem_singleton.mp leads.mem] at entry
                exact entry
          · intro hash block found
            rcases caches hash block found with entry | entry
            · exact entry
            · exact entry

end Start

end Plasma.Core
