import Plasma.Bridge.BlockNumbers
import Plasma.Bridge.Download
import Plasma.Core.Heads

/-!
# Numbers of child blocks across restarts

The operator counts child blocks in memory.  A restart derives the counter
from the head that the database holds, which can be a child block or a deposit
block and can lag behind the head in memory after a failed commit.  When this
head was written without an encoding, no restart succeeds any more.  Deposits
are numbered by the contract.
-/

namespace Plasma.Bridge

open Plasma.Core Plasma.Contract Plasma.Lib Plasma.Store

/-!
## Deposit numbers of the contract
-/

def Call.isSubmission : Call → Bool
  | .submitBlock _ => true
  | _ => false

/-- How many calls of `submitBlock` are among the calls. -/
def submissions (calls : List Message) : Nat :=
  calls.countP fun m => Call.isSubmission m.call

/-- The number is given to a deposit by a contract that has received at most
`limit` calls of `submitBlock`. -/
def DepositNumber (c : Crypto) (deployer : Address) (limit : Nat)
    (number : Int) : Prop :=
  ∃ calls sender value timestamp, submissions calls ≤ limit ∧
    ∃ event ∈ depositEvents sender value
        ((contractAfter c deployer calls).step c
          ⟨sender, value, timestamp, .deposit⟩).2,
      event.depositBlock = number

section Contract

variable (c : Crypto) (deployer : Address)

theorem currentChildBlock_le (calls : List Message) :
    (contractAfter c deployer calls).currentChildBlock.toNat ≤
      1000 * (submissions calls + 1) := by
  unfold contractAfter
  refine execute_invariant (RootChain.step c)
    (fun past s _ => s.currentChildBlock.toNat ≤ 1000 * (submissions past + 1))
    ?_ (le_refl 1000) calls
  intro past s history m bound
  have counted : submissions (past ++ [m]) =
      submissions past + if Call.isSubmission m.call then 1 else 0 := by
    simp [submissions, List.countP_append, List.countP_singleton]
  rw [counted]
  rcases RootChain.step_registers c s m with
    ⟨_, _, child, _⟩ | ⟨root, call, fits, _, _, child, _⟩ |
      ⟨_, _, call, _, _, _, _, child, _⟩
  · rw [child]
    omega
  · rw [child, call, BitVec.toNat_add]
    have interval : Contract.childBlockInterval.toNat = 1000 := rfl
    rw [interval, Nat.mod_eq_of_lt fits]
    simp only [Call.isSubmission, if_true]
    omega
  · rw [child]
    omega

theorem DepositNumber.bounds {limit : Nat} {number : Int}
    (numbered : DepositNumber c deployer limit number) :
    0 < number ∧ number % 1000 ≠ 0 ∧ number < 1000 * (limit + 1) := by
  obtain ⟨calls, sender, value, timestamp, few, event, member, rfl⟩ := numbered
  have bound := currentChildBlock_le c deployer calls
  have past := numbered_after c deployer calls
  obtain ⟨k, positive, interval⟩ := past.interval
  have room := past.room
  rcases RootChain.step_registers c (contractAfter c deployer calls)
      ⟨sender, value, timestamp, .deposit⟩ with
    ⟨silent, _⟩ | ⟨root, call, _⟩ |
      ⟨depositBlock, entry, _, below, given, registered, _⟩
  · simp [depositEvents, silent] at member
  · cases call
  · have place := RootChain.getDepositBlock_toNat given
    simp only [depositEvents, registered, List.map_cons, List.map_nil,
      List.mem_singleton] at member
    subst member
    dsimp only
    omega

end Contract

/-!
## The stored head
-/

/-- The database holds the records of a head that does not lie above the head
in memory, and the canonical index does not reach above it.  Between two calls
of the operator the event loop can have a transaction open. -/
structure StoredHead (p : Primitives) (genesis : Block) (all : List Block)
    (chain : BlockChain) (head : Header) : Prop where
  clean : chain.db.Clean
  buffers : chain.db.Buffers fun key => Node.isEventKey key = true
  listed : ∃ block ∈ genesis :: all, block.header = head
  records : ∃ transactions, HeadRecords p chain.db.db head transactions
  root : ∃ transactions, GenesisRecords p chain.db.db genesis.header
    transactions
  nonneg : 0 ≤ head.number
  indexed : ∀ number hash,
    chain.db.db (.canonicalHash number) = some (.hash hash) →
      (number.toNat : Int) ≤ head.number
  behind : head.number ≤ chain.currentBlock.number

namespace StoredHead

section

variable {p : Primitives} {genesis : Block} {all : List Block}
  {chain : BlockChain} {head : Header}

theorem unindexed (stored : StoredHead p genesis all chain head)
    {block : Block} (nonzero : block.hash p ≠ 0)
    (small : block.number < 2 ^ 63) : chain.Unindexed p block := by
  intro raises indexed
  have behind := stored.behind
  have nonneg := stored.nonneg
  have record : chain.db.db (.canonicalHash block.numberU64) =
      some (.hash (Rawdb.readCanonicalHash chain.db block.numberU64)) :=
    record_of_readHash fun zero => nonzero (indexed.symm.trans zero)
  have reach := stored.indexed _ _ record
  rw [Block.numberU64, uint64_toNat] at reach
  simp only [Block.number] at small raises behind
  rw [Nat.mod_eq_of_lt (by omega)] at reach
  omega

/-- A committed block keeps the stored head or replaces it. -/
theorem commit (stored : StoredHead p genesis all chain head)
    (apart : HashesApart p (genesis :: all)) {block : Block}
    (member : block ∈ all) (small : block.number < 2 ^ 63)
    {signer : EIP155Signer} (verdict : chain.verdict p signer block = .ok ())
    (next : BlockChain)
    (current : next.currentBlock =
      if block.number > chain.currentBlock.number then block
      else chain.currentBlock)
    (db : next.db = ⟨applyAll (chain.writeBatch p block) chain.db.db, false,
      []⟩) :
    StoredHead p genesis all next (chain.headAfter block head) := by
  have listed : block ∈ genesis :: all := List.mem_cons_of_mem _ member
  have unindexed := stored.unindexed (apart.nonzero block listed) small
  have behind := stored.behind
  have nonneg := stored.nonneg
  obtain ⟨former, formerListed, rfl⟩ := stored.listed
  obtain ⟨transactions, records⟩ := stored.records
  obtain ⟨genesisBody, root⟩ := stored.root
  have raisedNumber : block.number > chain.currentBlock.number →
      (block.numberU64.toNat : Int) = block.number := by
    intro raises
    simp only [Block.number] at small raises behind ⊢
    rw [Block.numberU64, uint64_toNat, Nat.mod_eq_of_lt (by omega)]
    omega
  have idle : next.db.Idle := db ▸ ⟨rfl, rfl⟩
  refine ⟨idle.clean, idle.buffers _, ?_, ?_, ?_, ?_, ?_, ?_⟩
  · unfold BlockChain.headAfter
    split
    · exact ⟨block, listed, rfl⟩
    · exact ⟨former, formerListed, rfl⟩
  · rw [db]
    exact ⟨_, records.write unindexed
      (apart.apart block listed former formerListed)⟩
  · rw [db]
    refine ⟨_, root.write verdict unindexed
      (apart.apart block listed genesis List.mem_cons_self) ?_⟩
    intro raises zero
    have number := raisedNumber raises
    rw [zero] at number
    simp only [UInt64.toNat_zero] at number
    omega
  · unfold BlockChain.headAfter
    split
    · rename_i raises
      simp only [Block.number] at raises behind
      omega
    · exact nonneg
  · intro number hash
    rw [db]
    change applyAll (chain.writeBatch p block) chain.db.db _ = _ → _
    rw [BlockChain.record_writeBatch p unindexed (by simp)]
    simp only [BlockChain.recordAfter, BlockChain.headAfter]
    by_cases raises : block.number > chain.currentBlock.number
    · simp only [raises, true_and, if_true]
      split
      · rename_i own
        intro _
        rw [own]
        exact (raisedNumber raises).le
      · intro record
        have reach := stored.indexed number hash record
        simp only [Block.number] at raises behind
        omega
    · simp only [raises, false_and, if_false]
      exact stored.indexed number hash
  · rw [current]
    unfold BlockChain.headAfter
    split
    · exact le_refl _
    · exact behind

theorem refuse (stored : StoredHead p genesis all chain head)
    {next : BlockChain} (same : next.db = chain.db)
    (ahead : chain.currentBlock.number ≤ next.currentBlock.number) :
    StoredHead p genesis all next head := by
  obtain ⟨clean, buffers, listed, records, root, nonneg, indexed, behind⟩ :=
    stored
  refine ⟨?_, ?_, listed, ?_, ?_, nonneg, ?_, behind.trans ahead⟩
  all_goals
    rw [same]
    assumption

/-- A database call of the event loop touches none of the records. -/
theorem call_same (stored : StoredHead p genesis all chain head)
    {call : DbCall DbKey DbValue}
    (own : call.key?.all Node.isEventKey = true) :
    (chain.db.perform call).Buffers (fun key => Node.isEventKey key = true) ∧
      ∀ key, Node.isEventKey key = false →
        (chain.db.perform call).db key = chain.db.db key := by
  have within : ∀ change, call.change? = some change →
      Node.isEventKey change.key = true := by
    intro change asked
    rw [DbCall.key?, asked] at own
    exact own
  obtain ⟨buffers, contents⟩ := stored.buffers.perform within
  refine ⟨buffers, ?_⟩
  intro key other
  exact contents key (by simp [other])

theorem call_records (stored : StoredHead p genesis all chain head)
    {call : DbCall DbKey DbValue}
    (own : call.key?.all Node.isEventKey = true)
    {transactions : List Transaction}
    (records : HeadRecords p chain.db.db head transactions) :
    HeadRecords p (chain.db.perform call).db head transactions := by
  obtain ⟨_, same⟩ := stored.call_same own
  obtain ⟨headBlock, headHeader, headFastBlock, number, header, body⟩ :=
    records
  constructor
  all_goals
    rw [same _ rfl]
    assumption

theorem call (stored : StoredHead p genesis all chain head)
    {call : DbCall DbKey DbValue}
    (own : call.key?.all Node.isEventKey = true) :
    StoredHead p genesis all { chain with db := chain.db.perform call }
      head := by
  obtain ⟨buffers, same⟩ := stored.call_same own
  obtain ⟨transactions, records⟩ := stored.records
  obtain ⟨genesisBody, root⟩ := stored.root
  refine ⟨stored.clean.perform call, buffers, stored.listed,
    ⟨transactions, stored.call_records own records⟩,
    ⟨genesisBody, root.number, ?_, ?_, ?_⟩, stored.nonneg, ?_, stored.behind⟩
  · rw [same _ rfl]
    exact root.canonicalHash
  · rw [same _ rfl]
    exact root.header
  · rw [same _ rfl]
    exact root.body
  · intro number hash record
    rw [same _ rfl] at record
    exact stored.indexed number hash record

theorem closed (stored : StoredHead p genesis all chain head) :
    StoredHead p genesis all { chain with db := ⟨chain.db.db, false, []⟩ }
      head := by
  have idle : LDBDatabase.Idle (⟨chain.db.db, false, []⟩ : Database) :=
    ⟨rfl, rfl⟩
  exact { stored with
    clean := idle.clean
    buffers := idle.buffers _ }

end

section

variable {p : Primitives} {all : List Block} {chain : BlockChain}
  {head : Header} {transactions : List Transaction}

theorem setup (stored : StoredHead p (genesisBlock p) all chain head)
    (apart : HashesApart p (genesisBlock p :: all)) (disk : Bool) :
    setupGenesisBlock p disk none ⟨chain.db.db, false, []⟩ =
      (⟨chain.db.db, false, []⟩, .ok ()) := by
  obtain ⟨genesisBody, root⟩ := stored.root
  have canonical : Rawdb.readCanonicalHash ⟨chain.db.db, false, []⟩ 0 =
      p.headerHash (genesisBlock p).header :=
    readHash_of_record root.canonicalHash
  unfold setupGenesisBlock
  simp only [canonical]
  exact if_neg (apart.nonzero (genesisBlock p) List.mem_cons_self)

/-- A restart loads the stored head if it was written with an encoding. -/
theorem start_cases (stored : StoredHead p (genesisBlock p) all chain head)
    (apart : HashesApart p (genesisBlock p :: all))
    (records : HeadRecords p chain.db.db head transactions) (addr : Address)
    (disk : Bool) :
    (Block.encodes ⟨head, transactions⟩ = true ∧ ∃ cache,
      Node.start p disk (.operator addr) ⟨chain.db.db, false, []⟩ =
        .operator (Operator.newOperator addr
          (BlockChain.atHead ⟨chain.db.db, false, []⟩ ⟨head, transactions⟩
            cache) ⟨[], []⟩)) ∨
      (Block.encodes ⟨head, transactions⟩ = false ∧
        Node.start p disk (.operator addr) ⟨chain.db.db, false, []⟩ =
          .stopped (.operator addr) ⟨chain.db.db, false, []⟩) := by
  obtain ⟨block, listed, rfl⟩ := stored.listed
  obtain ⟨genesisBody, root⟩ := stored.root
  have genesisNonzero := apart.nonzero (genesisBlock p) List.mem_cons_self
  have nonzero := apart.nonzero block listed
  have agree := apart.apart block listed _ List.mem_cons_self
  have setup := stored.setup apart disk
  cases encodes : Block.encodes ⟨block.header, transactions⟩ with
  | true =>
      obtain ⟨cache, loaded, _⟩ := BlockChain.newBlockChain_head disk
        (d := ⟨chain.db.db, false, []⟩) ⟨rfl, rfl⟩ root records encodes
        genesisNonzero nonzero agree
      refine .inl ⟨rfl, cache, ?_⟩
      simp only [Node.start, startOperator, startChain, setup, loaded]
  | false =>
      have failed := BlockChain.newBlockChain_unencodable disk
        (d := ⟨chain.db.db, false, []⟩) root records encodes genesisNonzero
        nonzero agree
      refine .inr ⟨rfl, ?_⟩
      simp only [Node.start, startOperator, startChain, setup, failed]

end

end StoredHead

/-- A process that cannot load its head, which was written without an
encoding. -/
def Halted (p : Primitives) (all : List Block) (node : Node) : Prop :=
  ∃ addr chain head transactions,
    node = .stopped (.operator addr) chain.db ∧
      StoredHead p (genesisBlock p) all chain head ∧
      HeadRecords p chain.db.db head transactions ∧
      Block.encodes ⟨head, transactions⟩ = false

/-- What writing a block does to the database and to the head in memory. -/
theorem writeWith_head (p : Primitives) (signer : EIP155Signer) (disk : Bool)
    (chain : BlockChain) (block : Block) (clean : chain.db.Clean) :
    (committedBlocks (chain.writeWith (Operator.removeInputs disk) p signer
        disk block).2.1 = [] ∧
      (chain.writeWith (Operator.removeInputs disk) p signer disk block).1.db =
        chain.db ∧
      ((chain.writeWith (Operator.removeInputs disk) p signer disk
          block).1.currentBlock = chain.currentBlock ∨
        (block.number > chain.currentBlock.number ∧
          (chain.writeWith (Operator.removeInputs disk) p signer disk
            block).1.currentBlock = block))) ∨
    (committedBlocks (chain.writeWith (Operator.removeInputs disk) p signer
        disk block).2.1 = [block] ∧
      chain.verdict p signer block = .ok () ∧
      (chain.writeWith (Operator.removeInputs disk) p signer disk block).1.db =
        ⟨applyAll (chain.writeBatch p block) chain.db.db, false, []⟩ ∧
      (chain.writeWith (Operator.removeInputs disk) p signer disk
          block).1.currentBlock =
        if block.number > chain.currentBlock.number then block
        else chain.currentBlock) := by
  cases busy : chain.db.inBatch with
  | true =>
      left
      rw [BlockChain.writeWith_of_busy p signer disk block busy]
      exact ⟨rfl, rfl, Or.inl rfl⟩
  | false =>
      rcases BlockChain.writeWith_head p
          (Operator.buffersDeletions_removeInputs disk) signer disk chain
          block ⟨busy, clean busy⟩ with
        ⟨same, silent, _, _, current⟩ | ⟨applied, outcome, verdict, _, current⟩
      · left
        refine ⟨silent, same, ?_⟩
        rcases current with kept | ⟨_, _, raises, taken⟩
        · exact Or.inl kept
        · exact Or.inr ⟨raises, taken⟩
      · right
        refine ⟨?_, verdict, applied, current⟩
        rw [outcome]
        rfl

/-!
## Runs of the operator
-/

def childBlocks (history : List NodeEvent) : List Block :=
  (committedBlocks history).filter fun block => !block.onDepositPath

/-- A step of the node, or a call of the event loop on its own keys of the
shared database handle. -/
inductive OperatorMove where
  | node (input : NodeStep)
  | call (call : DbCall DbKey DbValue)

def operatorMove (p : Primitives) (signer : EIP155Signer) (node : Node) :
    OperatorMove → Node × List NodeEvent
  | .node input => node.step p signer input
  | .call call =>
      if call.key?.all Node.isEventKey then
        (node.withDatabase (node.database.perform call), [])
      else (node, [])

/-- The moves of an operator: calls of `Seal` with any outcome, deposits
numbered by a contract with at most one `submitBlock` per committed child
block, restarts, and the event loop in between. -/
def OperatorInput (c : Crypto) (deployer : Address)
    (history : List NodeEvent) : OperatorMove → Prop
  | .node (.sealTxs _ _ _ _) => True
  | .node (.depositEvent _ _ number _ _ _) =>
      DepositNumber c deployer (childBlocks history).length number
  | .node (.deliver _ _) => False
  | .node (.restart _) => True
  | .call _ => True

/-- What every reached operator keeps, after so many steps. -/
structure ChildState (p : Primitives) (all : List Block) (steps : Nat)
    (o : Operator) (history : List NodeEvent) (head : Header) : Prop where
  stored : StoredHead p (genesisBlock p) all o.chain head
  interval : o.currentChildBlock.toNat % 1000 = 0
  bounded : o.currentChildBlock.toNat ≤ 1000 * steps
  below : o.chain.currentBlock.number < o.currentChildBlock.toNat + 1000
  claimed : 1000 * (childBlocks history).length ≤ o.currentChildBlock.toNat
  counted : 1000 * ((childBlocks history).length : Int) ≤ head.number
  children : ∀ block ∈ childBlocks history, block.number % 1000 = 0 ∧
    block.number ≤ head.number ∧ block.number ≤ o.currentChildBlock.toNat

theorem childBlocks_append (first second : List NodeEvent) :
    childBlocks (first ++ second) = childBlocks first ++ childBlocks second := by
  simp [childBlocks, committedBlocks]

namespace ChildState

section

variable {p : Primitives} {all : List Block} {steps : Nat} {o : Operator}
  {history : List NodeEvent} {head : Header}

theorem later (state : ChildState p all steps o history head) :
    ChildState p all (steps + 1) o history head := by
  have bounded := state.bounded
  exact { state with bounded := by omega }

theorem call (state : ChildState p all steps o history head)
    {call : DbCall DbKey DbValue}
    (own : call.key?.all Node.isEventKey = true) :
    ChildState p all (steps + 1)
      { o with chain := { o.chain with db := o.chain.db.perform call } }
      history head := by
  have bounded := state.bounded
  exact
    { state with
      stored := state.stored.call own
      bounded := by
        dsimp only
        omega }

/-- The operator after its chain has taken a block that is no child block, or
none at all. -/
theorem keep (state : ChildState p all steps o history head)
    {next : Operator} {events : List NodeEvent} {nextHead : Header}
    (stored : StoredHead p (genesisBlock p) all next.chain nextHead)
    (counter : o.currentChildBlock.toNat ≤ next.currentChildBlock.toNat)
    (interval : next.currentChildBlock.toNat % 1000 = 0)
    (bounded : next.currentChildBlock.toNat ≤ 1000 * (steps + 1))
    (below : next.chain.currentBlock.number <
      next.currentChildBlock.toNat + 1000)
    (silent : childBlocks events = []) (later : head.number ≤ nextHead.number) :
    ChildState p all (steps + 1) next (history ++ events) nextHead := by
  have same : childBlocks (history ++ events) = childBlocks history := by
    rw [childBlocks_append, silent, List.append_nil]
  have claimed := state.claimed
  have counted := state.counted
  refine ⟨stored, interval, bounded, below, ?_, ?_, ?_⟩
  · rw [same]
    omega
  · rw [same]
    omega
  · rw [same]
    intro block member
    obtain ⟨multiple, known, assigned⟩ := state.children block member
    exact ⟨multiple, by omega, by omega⟩

end

end ChildState

namespace ChildState

section

variable {p : Primitives} {signer : EIP155Signer} {all : List Block}
  {steps : Nat} {o : Operator} {history : List NodeEvent} {head : Header}

theorem deposit (state : ChildState p all steps o history head)
    (apart : HashesApart p (genesisBlock p :: all))
    (few : steps + 1 < 2 ^ 50) {number : Int}
    (bounds : 0 < number ∧ number % 1000 ≠ 0 ∧
      number < 1000 * ((childBlocks history).length + 1))
    (time : Int) (disk : Bool) (depositor token : Address) (amount : Int)
    (listed : ∀ block ∈ committedBlocks (o.handleDepositEvent p signer time
      disk number depositor token amount).2.1, block ∈ all) :
    ∃ nextHead, ChildState p all (steps + 1)
      (o.handleDepositEvent p signer time disk number depositor token amount).1
      (history ++ (o.handleDepositEvent p signer time disk number depositor
        token amount).2.1) nextHead := by
  obtain ⟨positive, odd, limit⟩ := bounds
  have bounded := state.bounded
  have claimed := state.claimed
  have below := state.below
  have value : (o.constructDepositBlock p time number
      (Operator.depositTx depositor amount)).number = number := by
    simp [Block.number, Operator.constructDepositBlock]
  simp only [Operator.handleDepositEvent, Operator.sealDeposit,
    Operator.writeBlock] at listed ⊢
  generalize o.constructDepositBlock p time number
    (Operator.depositTx depositor amount) = block at value listed ⊢
  have small : block.number < 2 ^ 63 := by omega
  have path : block.onDepositPath = true :=
    (Block.onDepositPath_iff (by omega) small).mpr (by omega)
  rcases writeWith_head p signer disk o.chain block state.stored.clean with
    ⟨silent, same, current⟩ | ⟨committed, verdict, db, current⟩
  · refine ⟨head, state.keep ?_ (le_refl _) state.interval ?_ ?_ ?_
      (le_refl _)⟩
    · refine state.stored.refuse same ?_
      rcases current with kept | ⟨raises, taken⟩
      · rw [kept]
      · rw [taken]
        exact le_of_lt raises
    · dsimp only
      omega
    · dsimp only
      rcases current with kept | ⟨raises, taken⟩
      · rw [kept]
        exact below
      · rw [taken]
        omega
    · simp [childBlocks, silent]
  · have member : block ∈ all := listed block (by simp [committed])
    refine ⟨_, state.keep
      (state.stored.commit apart member small verdict _ current db) (le_refl _)
      state.interval ?_ ?_ ?_ ?_⟩
    · dsimp only
      omega
    · dsimp only
      rw [current]
      split
      · omega
      · exact below
    · simp [childBlocks, committed, path]
    · unfold BlockChain.headAfter
      split
      · rename_i raises
        have behind := state.stored.behind
        simp only [Block.number] at raises behind
        omega
      · exact le_refl _

end

end ChildState

namespace ChildState

section

variable {p : Primitives} {signer : EIP155Signer} {all : List Block}
  {steps : Nat} {o : Operator} {history : List NodeEvent} {head : Header}

/-- The next number of the operator, before the counter can overflow. -/
theorem next_toNat (state : ChildState p all steps o history head)
    (few : steps < 2 ^ 50) :
    (o.currentChildBlock + Core.childBlockInterval).toNat =
      o.currentChildBlock.toNat + 1000 := by
  have bounded := state.bounded
  have interval : Core.childBlockInterval.toNat = 1000 := rfl
  rw [UInt64.toNat_add, interval, Nat.mod_eq_of_lt (by omega)]

theorem constructBlock (state : ChildState p all steps o history head)
    (few : steps + 1 < 2 ^ 50) (time : Int) (txs : List Transaction) :
    (o.constructBlock p time txs).2.number =
        o.currentChildBlock.toNat + 1000 ∧
      (o.constructBlock p time txs).2.number < 2 ^ 63 ∧
      (o.constructBlock p time txs).2.number >
        o.chain.currentBlock.number ∧
      (o.constructBlock p time txs).2.onDepositPath = false := by
  have bounded := state.bounded
  have interval := state.interval
  have below := state.below
  have number := constructBlock_number p o time txs
  rw [state.next_toNat (by omega)] at number
  generalize (o.constructBlock p time txs).2 = block at number ⊢
  have value : block.number = o.currentChildBlock.toNat + 1000 := by
    rw [Block.number, number]
    push_cast
    rfl
  have small : block.number < 2 ^ 63 := by omega
  refine ⟨value, small, by omega, ?_⟩
  cases onPath : block.onDepositPath with
  | false => rfl
  | true =>
      have odd := (Block.onDepositPath_iff (by omega) small).mp onPath
      omega

theorem sealed (state : ChildState p all steps o history head)
    (apart : HashesApart p (genesisBlock p :: all))
    (few : steps + 1 < 2 ^ 50) {time : Int} {disk submits : Bool}
    {txs : List Transaction}
    (listed : ∀ block ∈ committedBlocks (o.sealTxs p signer time disk submits
      txs).2.1, block ∈ all) :
    ∃ nextHead, ChildState p all (steps + 1)
      (o.sealTxs p signer time disk submits txs).1
      (history ++ (o.sealTxs p signer time disk submits txs).2.1)
      nextHead := by
  have bounded := state.bounded
  have interval := state.interval
  have below := state.below
  have claimed := state.claimed
  have counter :=
    Operator.sealTxs_currentChildBlock p signer o time disk submits txs
  have chain := Operator.sealTxs_chain p signer o time disk submits txs
  have committed :=
    Operator.sealTxs_committed p signer o time disk submits txs
  have advanced := state.next_toNat (by omega)
  have constructed := state.constructBlock few time txs
  unfold Operator.sealWrite at chain committed
  rw [committed] at listed
  have sameBlocks : childBlocks (o.sealTxs p signer time disk submits txs).2.1 =
      (committedBlocks (o.chain.writeWith (Operator.removeInputs disk) p signer
        disk (o.constructBlock p time txs).2).2.1).filter
          fun block => !block.onDepositPath :=
    congrArg (List.filter _) committed
  generalize (o.constructBlock p time txs).2 = block at *
  obtain ⟨value, small, raises, path⟩ := constructed
  rcases writeWith_head p signer disk o.chain block state.stored.clean with
    ⟨silent, same, current⟩ | ⟨written, verdict, db, current⟩
  · refine ⟨head, state.keep ?_ ?_ ?_ ?_ ?_ ?_ (le_refl _)⟩
    · rw [chain]
      refine state.stored.refuse same ?_
      rcases current with kept | ⟨_, taken⟩
      · rw [kept]
      · rw [taken]
        exact le_of_lt raises
    · rw [counter, advanced]
      omega
    · rw [counter, advanced]
      omega
    · rw [counter, advanced]
      omega
    · rw [counter, advanced, chain]
      rcases current with kept | ⟨_, taken⟩
      · rw [kept]
        omega
      · rw [taken, value]
        push_cast
        omega
    · rw [sameBlocks, silent]
      rfl
  · have member : block ∈ all := listed block (by simp [written])
    rw [if_pos raises] at current
    have stored := state.stored.commit apart member small verdict _
      (current.trans (if_pos raises).symm) db
    rw [← chain] at stored
    have nextHead : o.chain.headAfter block head = block.header :=
      if_pos raises
    rw [nextHead] at stored
    have blocks : childBlocks
        (history ++ (o.sealTxs p signer time disk submits txs).2.1) =
          childBlocks history ++ [block] := by
      rw [childBlocks_append, sameBlocks, written]
      simp [path]
    refine ⟨block.header, stored, ?_, ?_, ?_, ?_, ?_, ?_⟩
    · rw [counter, advanced]
      omega
    · rw [counter, advanced]
      omega
    · rw [counter, advanced, chain, current, value]
      push_cast
      omega
    · rw [counter, advanced, blocks, List.length_append, List.length_singleton]
      omega
    · rw [blocks, List.length_append, List.length_singleton]
      simp only [Block.number] at value
      rw [value]
      push_cast
      omega
    · rw [blocks, counter, advanced]
      intro child childMember
      simp only [Block.number] at value
      rcases List.mem_append.mp childMember with earlier | last
      · obtain ⟨multiple, _, assigned⟩ := state.children child earlier
        refine ⟨multiple, ?_, ?_⟩
        · rw [value]
          omega
        · push_cast
          omega
      · rw [List.mem_singleton.mp last, Block.number, value]
        push_cast
        omega

/-- A restart loads the stored head and derives the counter from it, or it
fails for good. -/
theorem restart (state : ChildState p all steps o history head)
    (apart : HashesApart p (genesisBlock p :: all)) (few : steps + 1 < 2 ^ 50)
    (disk : Bool) :
    (∃ next, Node.start p disk (.operator o.addr)
        ⟨o.chain.db.db, false, []⟩ = .operator next ∧
      ChildState p all (steps + 1) next history head) ∨
      Halted p all
        (Node.start p disk (.operator o.addr) ⟨o.chain.db.db, false, []⟩) := by
  obtain ⟨transactions, records⟩ := state.stored.records
  rcases state.stored.start_cases apart records o.addr disk with
    ⟨_, cache, node⟩ | ⟨lost, node⟩
  swap
  · right
    exact ⟨o.addr, { o.chain with db := ⟨o.chain.db.db, false, []⟩ }, head,
      transactions, node, state.stored.closed, records, lost⟩
  left
  refine ⟨_, node, ?_⟩
  have nonneg := state.stored.nonneg
  have behind := state.stored.behind
  have below := state.below
  have bounded := state.bounded
  have interval := state.interval
  have counted := state.counted
  have counter : (Operator.newOperator o.addr
      (BlockChain.atHead ⟨o.chain.db.db, false, []⟩
        ⟨head, transactions⟩ cache) ⟨[], []⟩).currentChildBlock.toNat =
        head.number.toNat / 1000 * 1000 := by
    have divisor : Core.childBlockInterval.toNat = 1000 := rfl
    have value : (uint64 head.number).toNat =
        head.number.toNat := by
      rw [uint64_toNat]
      omega
    simp only [Operator.newOperator, BlockChain.atHead, UInt64.toNat_mul,
      UInt64.toNat_div, divisor, value]
    omega
  obtain ⟨clean, buffers, listed, stored, root, _, indexed, _⟩ :=
    state.stored.closed
  refine ⟨⟨clean, buffers, listed, stored, root, nonneg, indexed, le_refl _⟩,
    ?_, ?_, ?_, ?_, counted, ?_⟩
  · rw [counter]
    omega
  · rw [counter]
    omega
  · rw [counter]
    change head.number < _
    omega
  · rw [counter]
    omega
  · intro child member
    obtain ⟨multiple, known, _⟩ := state.children child member
    refine ⟨multiple, known, ?_⟩
    rw [counter]
    omega

end

end ChildState

theorem childState_start {p : Primitives} {addr : Address} {o : Operator}
    (started : startOperator p true addr Database.empty = .ok o)
    (nonzero : (genesisBlock p).hash p ≠ 0) (all : List Block) :
    ChildState p all 0 o [] (genesisBlock p).header := by
  have first := eq_genesisOperator p addr started
  rw [startOperator_eq_startWithGenesis] at started
  obtain ⟨state, zero, records, _⟩ := headState_start started nonzero all
  have current : o.chain.currentBlock = genesisBlock p :=
    List.mem_singleton.mp state.leads.mem
  have number : (genesisBlock p).header.number = 0 := zero
  rw [current] at records
  have counter : o.currentChildBlock = 0 := by
    rw [first]
    rfl
  refine ⟨⟨state.idle.clean, state.idle.buffers _,
    ⟨_, List.mem_cons_self, rfl⟩, ⟨_, records⟩, ⟨_, state.root⟩, number.ge, ?_,
    ?_⟩,
    ?_, ?_, ?_, ?_, ?_, ?_⟩
  · intro index hash record
    obtain ⟨block, leads, rfl, _⟩ := (state.canonical index hash).mp record
    rw [List.mem_singleton.mp leads.mem, number, Block.numberU64]
    change ((uint64 (genesisBlock p).header.number).toNat : Int) ≤ 0
    rw [number]
    decide
  · rw [current]
    exact le_refl _
  · rw [counter]
    rfl
  · rw [counter]
    exact Nat.zero_le _
  · rw [counter, current, Block.number, number]
    decide
  · exact Nat.zero_le _
  · rw [number]
    decide
  · intro block member
    cases member

/-- A process that could not load its head commits nothing and is never
restarted with success. -/
theorem Halted.move {p : Primitives} {all : List Block} {node : Node}
    (halted : Halted p all node)
    (apart : HashesApart p (genesisBlock p :: all)) (signer : EIP155Signer)
    (input : OperatorMove) :
    Halted p all (operatorMove p signer node input).1 ∧
      (operatorMove p signer node input).2 = [] := by
  obtain ⟨addr, chain, head, transactions, rfl, stored, records, lost⟩ :=
    halted
  have same : Halted p all (.stopped (.operator addr) chain.db) :=
    ⟨addr, chain, head, transactions, rfl, stored, records, lost⟩
  cases input with
  | call call =>
      by_cases own : call.key?.all Node.isEventKey = true
      · have moved : operatorMove p signer (.stopped (.operator addr) chain.db)
            (.call call) =
              (.stopped (.operator addr) (chain.db.perform call), []) :=
          if_pos own
        rw [moved]
        exact ⟨⟨addr, { chain with db := chain.db.perform call }, head,
          transactions, rfl, stored.call own, stored.call_records own records,
          lost⟩, rfl⟩
      · have moved : operatorMove p signer (.stopped (.operator addr) chain.db)
            (.call call) = (.stopped (.operator addr) chain.db, []) :=
          if_neg own
        rw [moved]
        exact ⟨same, rfl⟩
  | node input =>
      cases input with
      | restart disk =>
          refine ⟨?_, rfl⟩
          rcases stored.start_cases apart records addr disk with
            ⟨encodes, _⟩ | ⟨_, stopped⟩
          · rw [lost] at encodes
            cases encodes
          · exact ⟨addr, { chain with db := ⟨chain.db.db, false, []⟩ }, head,
              transactions, stopped, stored.closed, records, lost⟩
      | _ => exact ⟨same, rfl⟩

/-- Over every run of an operator with restarts, the number that
`constructBlock` gives next is a multiple of the interval and larger than the
number of every child block committed before. -/
theorem child_numbers_never_reused (p : Primitives) (signer : EIP155Signer)
    (c : Crypto) (deployer : Address) {addr : Address} {o : Operator}
    (started : startOperator p true addr Database.empty = .ok o)
    {inputs : List OperatorMove} (few : inputs.length < 2 ^ 50)
    (admitted : RunMeets (operatorMove p signer)
      (fun _ history input => OperatorInput c deployer history input)
      (.operator o) [] inputs)
    (apart : HashesApart p (genesisBlock p :: committedBlocks
      (execute (operatorMove p signer) (.operator o) inputs).2))
    {final : Operator}
    (running : (execute (operatorMove p signer) (.operator o) inputs).1 =
      .operator final) (time : Int) (txs : List Transaction) :
    (final.constructBlock p time txs).2.number % 1000 = 0 ∧
      ∀ block ∈ childBlocks
          (execute (operatorMove p signer) (.operator o) inputs).2,
        block.number < (final.constructBlock p time txs).2.number := by
  generalize reported : committedBlocks
    (execute (operatorMove p signer) (.operator o) inputs).2 = all at apart
  have reached : (∃ final head,
      (execute (operatorMove p signer) (.operator o) inputs).1 =
          .operator final ∧
        ChildState p all inputs.length final
          (execute (operatorMove p signer) (.operator o) inputs).2 head) ∨
      Halted p all
        (execute (operatorMove p signer) (.operator o) inputs).1 := by
    refine runMeets_prefix_induction (fun past node history =>
      (∃ final head, node = .operator final ∧
        ChildState p all past.length final history head) ∨
          Halted p all node) ?_
      (.inl ⟨o, _, rfl, childState_start started
        (apart.nonzero _ List.mem_cons_self) all⟩) admitted
    rintro past node history input reached admitted begun known
    rcases reached with ⟨o, head, rfl, state⟩ | halted
    swap
    · exact .inr (halted.move apart signer input).1
    have shorter : past.length + 1 < 2 ^ 50 := by
      have length := begun.length_le
      rw [List.length_append, List.length_singleton] at length
      omega
    have listed : ∀ block ∈ committedBlocks
        (operatorMove p signer (.operator o) input).2, block ∈ all := by
      intro block member
      obtain ⟨event, emitted, read⟩ := List.mem_filterMap.mp member
      rw [← reported]
      exact List.mem_filterMap.mpr
        ⟨event, known.subset (List.mem_append_right _ emitted), read⟩
    rw [List.length_append, List.length_singleton]
    cases input with
    | call call =>
        by_cases own : call.key?.all Node.isEventKey = true
        · have moved : operatorMove p signer (.operator o) (.call call) =
              (.operator { o with
                chain := { o.chain with db := o.chain.db.perform call } },
              []) := if_pos own
          rw [moved, List.append_nil]
          exact .inl ⟨_, head, rfl, state.call own⟩
        · have moved : operatorMove p signer (.operator o) (.call call) =
              (.operator o, []) := if_neg own
          rw [moved, List.append_nil]
          exact .inl ⟨o, head, rfl, state.later⟩
    | node input =>
        cases input with
        | sealTxs time disk submits txs =>
            obtain ⟨next, sealed⟩ := state.sealed apart shorter listed
            exact .inl ⟨_, next, rfl, sealed⟩
        | depositEvent time disk number depositor token amount =>
            obtain ⟨next, written⟩ := state.deposit apart shorter
              (DepositNumber.bounds c deployer admitted) time disk depositor
              token amount listed
            exact .inl ⟨_, next, rfl, written⟩
        | deliver disk block => exact admitted.elim
        | restart disk =>
            rcases state.restart apart shorter disk with
              ⟨next, running, restarted⟩ | halted
            · refine .inl ⟨next, head, running, ?_⟩
              rw [show (operatorMove p signer (.operator o)
                (.node (.restart disk))).2 = [] from rfl, List.append_nil]
              exact restarted
            · exact .inr halted
  rcases reached with ⟨last, head, ended, state⟩ | halted
  swap
  · obtain ⟨_, _, _, _, stopped, _⟩ := halted
    rw [stopped] at running
    cases running
  rw [running] at ended
  cases ended
  have next := state.next_toNat few
  have interval := state.interval
  rw [Block.number, constructBlock_number, next]
  constructor
  · push_cast
    omega
  · intro block member
    obtain ⟨_, _, assigned⟩ := state.children block member
    push_cast
    omega

private theorem exists_operator {node : Node}
    (running : node.operator?.isSome = true) :
    ∃ o, node = .operator o := by
  cases node with
  | operator o => exact ⟨o, rfl⟩
  | validator v => cases running
  | stopped role d => cases running

def spendAndRestart : List OperatorMove :=
  [.node (.depositEvent Core.Sample.now true 1 Core.Sample.alice 0 5),
    .node (.sealTxs Core.Sample.now true true [Core.Sample.spend]),
    .node (.restart true)]

/-- After the restart the next number lies above the child block. -/
theorem restart_counts_from_child_block :
    childBlocks (execute (operatorMove Core.Sample.primitives Core.Sample.signer)
        (.operator Core.Sample.operator) spendAndRestart).2 =
      [Core.Sample.spendBlock] ∧
    ∃ final, (execute (operatorMove Core.Sample.primitives Core.Sample.signer)
        (.operator Core.Sample.operator) spendAndRestart).1 =
          .operator final ∧
      Core.Sample.spendBlock.number <
        (final.constructBlock Core.Sample.primitives Core.Sample.now
          []).2.number := by
  have first : DepositNumber Contract.Sample.crypto Contract.Sample.alice 0
      1 :=
    ⟨[], Contract.Sample.alice, 5, Contract.Sample.start, by decide,
      by decide +kernel⟩
  have written : childBlocks
      (execute (operatorMove Core.Sample.primitives Core.Sample.signer)
        (.operator Core.Sample.operator) spendAndRestart).2 =
        [Core.Sample.spendBlock] := by
    decide +kernel
  have admitted : RunMeets
      (operatorMove Core.Sample.primitives Core.Sample.signer)
      (fun _ history input => OperatorInput Contract.Sample.crypto
        Contract.Sample.alice history input)
      (.operator Core.Sample.operator) [] spendAndRestart :=
    ⟨first, trivial, trivial, trivial⟩
  have restarted : (execute
      (operatorMove Core.Sample.primitives Core.Sample.signer)
      (.operator Core.Sample.operator)
        spendAndRestart).1.operator?.isSome = true := by
    decide +kernel
  obtain ⟨final, running⟩ := exists_operator restarted
  refine ⟨written, final, running, (child_numbers_never_reused
    Core.Sample.primitives Core.Sample.signer Contract.Sample.crypto
    Contract.Sample.alice Core.Sample.started (by decide) admitted
    ⟨by decide +kernel, by decide +kernel⟩ running _ _).2 _ ?_⟩
  rw [written]
  exact List.mem_singleton_self _

end Plasma.Bridge
