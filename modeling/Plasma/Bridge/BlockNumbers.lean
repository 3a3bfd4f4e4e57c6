import Plasma.Contract.Numbering
import Plasma.Core.EventLoop

/-!
# Block numbers of the operator and of the contract

The operator and the root chain contract count child blocks independently: the
number of a block is no part of the call that submits its root.  The system
below composes a node with the contract.  `SubmitBlock` fails or makes one call
of the contract; deposits are calls of the contract whose events the node
handles at any time, in any order and any number of times; the event loop uses
the database handle of the node in between.
-/

namespace Plasma.Bridge

open Plasma.Core Plasma.Contract Plasma.Lib Plasma.Store

structure System where
  node : Node
  contract : RootChain
  deposits : List DepositEvent

/-- `call` is a database call of the event loop on its own keys. -/
inductive SystemStep where
  | sealTxs (time : Int) (disk submits : Bool) (txs : List Transaction)
      (timestamp : Word)
  | deposit (sender : Address) (value timestamp : Word)
  | depositEvent (time : Int) (disk : Bool) (index : Nat)
  | call (call : DbCall DbKey DbValue)
  | restart (disk : Bool)

def submittedBlocks (events : List NodeEvent) : List Block :=
  events.filterMap fun event =>
    match event with
    | .submitted block => some block
    | _ => none

/-- The call with which the operator's account submits a block. -/
def submission (account : Address) (timestamp : Word) (block : Block) :
    Message :=
  { sender := account
    value := 0
    timestamp := timestamp
    call := .submitBlock block.header.txHash }

/-- The events a deposit emits. -/
def depositEvents (sender : Address) (value : Word) (effects : List Effect) :
    List DepositEvent :=
  (registrations effects).map fun entry =>
    ⟨sender, entry.1.toNat, 0, value.toNat⟩

namespace System

variable (p : Primitives) (signer : EIP155Signer) (c : Crypto)
  (account : Address)

def nodeStep (s : System) (input : NodeStep) : System × List NodeEvent :=
  let (node, events) := s.node.step p signer input
  ({ s with node := node }, events)

def step (s : System) : SystemStep → System × List NodeEvent
  | .sealTxs time disk submits txs timestamp =>
      let (node, events) :=
        s.node.step p signer (.sealTxs time disk submits txs)
      ({ s with
          node := node
          contract := (submittedBlocks events).foldl
            (fun contract block =>
              (contract.step c (submission account timestamp block)).1)
            s.contract }, events)
  | .deposit sender value timestamp =>
      let (contract, effects) :=
        s.contract.step c ⟨sender, value, timestamp, .deposit⟩
      ({ s with
          contract := contract
          deposits := s.deposits ++ depositEvents sender value effects }, [])
  | .depositEvent time disk index =>
      match s.deposits[index]? with
      | none => (s, [])
      | some event =>
          s.nodeStep p signer (.depositEvent time disk event.depositBlock
            event.depositor event.token event.amount)
  | .call call =>
      if call.key?.all Node.isEventKey then
        ({ s with
            node := s.node.withDatabase (s.node.database.perform call) }, [])
      else (s, [])
  | .restart disk => s.nodeStep p signer (.restart disk)

/-- A new contract and the first start of the operator. -/
def first (disk : Bool) (addr deployer : Address) : System :=
  { node := Node.start p disk (.operator addr) Database.empty
    contract := RootChain.new deployer
    deposits := [] }

end System

/-- The header stored under a number, through the index of canonical
hashes. -/
def storedUnder (d : Database) (number : UInt64) : Option Header :=
  Rawdb.readHeader d (Rawdb.readCanonicalHash d number) number

/-- Every root the contract stores for a child block is the one in the header
the operator stored under its number. -/
def System.Agrees (s : System) : Prop :=
  ∀ k : Nat, 1 ≤ k → 1000 * k < s.contract.currentChildBlock.toNat →
    ∃ header, storedUnder s.node.database (UInt64.ofNat (1000 * k)) =
        some header ∧
      header.number = (1000 * k : Nat) ∧
      (s.contract.childChain (BitVec.ofNat 256 (1000 * k))).root =
        header.txHash

/-!
## What a write leaves alone
-/

/-- The keys under which the header of a number is stored. -/
def ofNumber (number : UInt64) : DbKey → Prop
  | .canonicalHash other => other = number
  | .header other _ => other = number
  | _ => False

theorem isEventKey_of_ofNumber {number : UInt64} {key : DbKey}
    (place : ofNumber number key) : ¬ Node.isEventKey key = true := by
  revert place
  cases key <;> simp [ofNumber, Node.isEventKey]

theorem storedUnder_congr {d d' : Database} {number : UInt64}
    (same : ∀ key, ofNumber number key → d'.db key = d.db key) :
    storedUnder d' number = storedUnder d number := by
  have canonical := same (.canonicalHash number) rfl
  have header := fun hash => same (.header number hash) rfl
  simp only [storedUnder, Rawdb.readCanonicalHash, Rawdb.readHash,
    Rawdb.readHeader, LDBDatabase.get, canonical, header]

section Writes

variable {p : Primitives} {chain : BlockChain} {block : Block}

theorem storedUnder_writeBatch_of_ne {number : UInt64}
    (other : number ≠ block.numberU64) :
    storedUnder ⟨applyAll (chain.writeBatch p block) chain.db.db, false, []⟩
      number = storedUnder chain.db number := by
  apply storedUnder_congr
  intro key own
  apply applyAll_of_keys
  rintro change member rfl
  have touched := BlockChain.touches_writeBatch p member
  generalize change.key = key at own touched
  cases key with
  | canonicalHash number' => exact other (own.symm.trans touched)
  | header number' hash => exact other (own.symm.trans touched.1)
  | body number' hash => exact own
  | headerNumber hash => exact own
  | utxo id => exact own
  | headHeader => exact own
  | headBlock => exact own
  | headFastBlock => exact own
  | fromBlock => exact own
  | eventMarker key => exact own

/-- The header of a block that becomes the head is stored under its number if
it has an encoding. -/
theorem storedUnder_writeBatch_self
    (head : block.number > chain.currentBlock.number)
    (encodes : block.header.encodes = true) :
    storedUnder ⟨applyAll (chain.writeBatch p block) chain.db.db, false, []⟩
      block.numberU64 = some block.header := by
  have outputs : ∀ contents, applyAll (block.changes.map outputChange) contents
      (.canonicalHash block.numberU64) =
        contents (.canonicalHash block.numberU64) := by
    intro contents
    apply applyAll_of_keys
    rintro change member same
    obtain ⟨effect, _, rfl⟩ := List.mem_map.mp member
    cases effect <;> cases same
  have canonical : applyAll (chain.writeBatch p block) chain.db.db
      (.canonicalHash block.numberU64) = some (.hash (block.hash p)) := by
    rw [BlockChain.writeBatch, if_pos head, applyAll_append, applyAll_append,
      outputs, BlockChain.headChanges]
    split <;> simp [Change.apply, Change.outcome]
  simp only [storedUnder, Rawdb.readCanonicalHash, Rawdb.readHash,
    Rawdb.readHeader, LDBDatabase.get, canonical,
    BlockChain.writeBatch_header, Rawdb.headerData_of_encodes encodes]

end Writes

/-!
## What one step can do
-/

section Cases

variable (p : Primitives) (signer : EIP155Signer)

theorem constructBlock_number (o : Operator) (time : Int)
    (txs : List Transaction) :
    (o.constructBlock p time txs).2.header.number =
      (o.currentChildBlock + Core.childBlockInterval).toNat := by
  simp only [Operator.constructBlock, Block.newBlock_header]

theorem constructBlock_numberU64 (o : Operator) (time : Int)
    (txs : List Transaction) :
    (o.constructBlock p time txs).2.numberU64 =
      o.currentChildBlock + Core.childBlockInterval := by
  rw [Block.numberU64, constructBlock_number]
  generalize o.currentChildBlock + Core.childBlockInterval = number
  simp [uint64]

/-- `Seal` writes nothing and submits nothing, or it writes its block and
submits it when the root chain takes it. -/
theorem seal_cases (o : Operator) (time : Int) (disk submits : Bool)
    (txs : List Transaction) (clean : o.chain.db.Clean) :
    let result := (Node.operator o).step p signer
      (.sealTxs time disk submits txs)
    let block := (o.constructBlock p time txs).2
    (result.1.database = o.chain.db ∧ submittedBlocks result.2 = []) ∨
      (o.chain.db.inBatch = false ∧ disk = true ∧
        o.chain.verdict p signer block = .ok () ∧
        result.1.database =
          ⟨applyAll (o.chain.writeBatch p block) o.chain.db.db, false, []⟩ ∧
        submittedBlocks result.2 = if submits then [block] else []) := by
  intro result block
  have chain : result.1.database =
      (o.sealWrite p signer time disk txs).1.db :=
    congrArg BlockChain.db
      (Operator.sealTxs_chain p signer o time disk submits txs)
  have reports : result.2 =
      (o.sealTxs p signer time disk submits txs).2.1 := rfl
  rw [chain, reports]
  cases busy : o.chain.db.inBatch with
  | true =>
      left
      have refused : o.sealWrite p signer time disk txs =
          (o.chain, [], .error .databaseRace) :=
        BlockChain.writeWith_of_busy p signer disk _ busy
      have failed : (o.sealWrite p signer time disk txs).2.2 =
          .error .databaseRace := by
        rw [refused]
      rw [Operator.sealTxs_of_error p signer o time disk submits txs failed,
        refused]
      exact ⟨rfl, rfl⟩
  | false =>
      rcases BlockChain.writeWith_cases p
          (Operator.buffersDeletions_removeInputs disk) signer disk o.chain
          block ⟨busy, clean busy⟩ with
        ⟨same, _, ⟨failure, failed⟩, _⟩ | ⟨db, outcome, verdict, taken⟩
      · left
        refine ⟨same, ?_⟩
        have failed : (o.sealWrite p signer time disk txs).2.2 =
            .error failure := failed
        rw [Operator.sealTxs_of_error p signer o time disk submits txs failed]
        rw [Operator.sealWrite,
          BlockChain.writeWith_of_idle p
            (Operator.buffersDeletions_removeInputs disk) signer disk o.chain _
            ⟨busy, clean busy⟩]
        split
        · rfl
        · split <;> rfl
      · right
        have written : (o.sealWrite p signer time disk txs).2 =
            ([.broadcast block, .committed block], .ok ()) := outcome
        refine ⟨rfl, taken, verdict, db, ?_⟩
        rw [Operator.sealTxs_of_ok p signer o time disk submits txs
          (congrArg Prod.snd written), written]
        cases submits <;> rfl

/-- The handler of a deposit event writes nothing or the deposit block. -/
theorem depositEvent_cases (node : Node) (time : Int) (disk : Bool)
    (event : DepositEvent) (clean : node.database.Clean) :
    let next := (node.step p signer (.depositEvent time disk event.depositBlock
      event.depositor event.token event.amount)).1
    next.database = node.database ∨
      ∃ chain : BlockChain, ∃ block, chain.db = node.database ∧
        block.numberU64 = uint64 event.depositBlock ∧
        next.database =
          ⟨applyAll (chain.writeBatch p block) chain.db.db, false, []⟩ := by
  intro next
  cases node with
  | validator v => exact .inl rfl
  | stopped role d => exact .inl rfl
  | operator o =>
      have chain : next.database = (o.chain.writeWith
          (Operator.removeInputs disk) p signer disk
          (o.constructDepositBlock p time event.depositBlock
            (Operator.depositTx event.depositor event.amount))).1.db := rfl
      rw [chain]
      cases busy : o.chain.db.inBatch with
      | true =>
          left
          rw [BlockChain.writeWith_of_busy p signer disk _ busy]
          rfl
      | false =>
          rcases BlockChain.writeWith_cases p
              (Operator.buffersDeletions_removeInputs disk) signer disk o.chain
              (o.constructDepositBlock p time event.depositBlock
                (Operator.depositTx event.depositor event.amount))
              ⟨busy, clean busy⟩ with ⟨same, _⟩ | ⟨db, _⟩
          · exact .inl same
          · exact .inr ⟨o.chain, _, rfl, rfl, db⟩

end Cases

/-!
## Agreement along a run
-/

namespace System

variable (p : Primitives) (signer : EIP155Signer) (c : Crypto)
  (account : Address)

/-- The number the operator gives to its next child block. -/
def nextNumber (o : Operator) : Nat :=
  (o.currentChildBlock + Core.childBlockInterval).toNat

/-- A `Seal` that gets past `BeginTx`, `ValidateBody` and `CommitTx` uses no
number below the next one of the contract; when it is submitted too, it uses
exactly this number, the number lies above the head of the chain and the clock
has not been set before 1970, so that the header has an encoding. -/
def Aligned (s : System) : SystemStep → Prop
  | .sealTxs time disk submits txs _ =>
      ∀ o ∈ s.node.operator?, o.chain.db.inBatch = false → disk = true →
        o.chain.verdict p signer (o.constructBlock p time txs).2 = .ok () →
          s.contract.currentChildBlock.toNat ≤ nextNumber o ∧
            (submits = true →
              nextNumber o = s.contract.currentChildBlock.toNat ∧
                o.chain.currentBlock.number < nextNumber o ∧ 0 ≤ time)
  | _ => True

instance (s : System) : DecidablePred (s.Aligned p signer)
  | .sealTxs time disk submits txs _ => inferInstanceAs (Decidable
      (∀ o ∈ s.node.operator?, o.chain.db.inBatch = false → disk = true →
        o.chain.verdict p signer (o.constructBlock p time txs).2 = .ok () →
          s.contract.currentChildBlock.toNat ≤ nextNumber o ∧
            (submits = true →
              nextNumber o = s.contract.currentChildBlock.toNat ∧
                o.chain.currentBlock.number < nextNumber o ∧ 0 ≤ time)))
  | .deposit _ _ _ => isTrue trivial
  | .depositEvent _ _ _ => isTrue trivial
  | .call _ => isTrue trivial
  | .restart _ => isTrue trivial

/-- What every state reached by aligned steps keeps. -/
structure Consistent (deployer : Address) (s : System) : Prop where
  clean : s.node.database.Clean
  buffers : s.node.database.Buffers fun key => Node.isEventKey key = true
  reached : ∃ messages, s.contract =
    (execute (RootChain.step c) (RootChain.new deployer) messages).1
  small : s.contract.currentChildBlock.toNat < 2 ^ 64 + 1000
  events : ∀ event ∈ s.deposits, ∃ number : Nat,
    event.depositBlock = number ∧ number % 1000 ≠ 0 ∧
      number < s.contract.currentChildBlock.toNat
  agrees : s.Agrees

variable {p signer c account} {deployer : Address} {s next : System}

theorem Agrees.keep (agrees : s.Agrees) (contract : next.contract = s.contract)
    (stored : ∀ k : Nat, 1 ≤ k →
      1000 * k < s.contract.currentChildBlock.toNat →
        storedUnder next.node.database (UInt64.ofNat (1000 * k)) =
          storedUnder s.node.database (UInt64.ofNat (1000 * k))) :
    next.Agrees := by
  intro k positive below
  rw [contract] at below ⊢
  rw [stored k positive below]
  exact agrees k positive below

namespace Consistent

theorem interval (consistent : Consistent c deployer s) :
    ∃ k, 1 ≤ k ∧ s.contract.currentChildBlock.toNat = 1000 * k := by
  obtain ⟨messages, reached⟩ := consistent.reached
  rw [reached]
  exact (RootChain.numbered_run c deployer messages).interval

theorem room (consistent : Consistent c deployer s) :
    1 ≤ s.contract.currentDepositBlock.toNat := by
  obtain ⟨messages, reached⟩ := consistent.reached
  rw [reached]
  exact (RootChain.numbered_run c deployer messages).room.1

theorem reached_step (consistent : Consistent c deployer s) (m : Message) :
    ∃ messages, (s.contract.step c m).1 =
      (execute (RootChain.step c) (RootChain.new deployer) messages).1 := by
  obtain ⟨messages, reached⟩ := consistent.reached
  refine ⟨messages ++ [m], ?_⟩
  rw [execute_append, ← reached]
  rfl

/-- A step of the node that keeps what is stored under the numbers of the
contract. -/
theorem node (consistent : Consistent c deployer s)
    (idle : next.node.database = s.node.database ∨ next.node.database.Idle)
    (contract : next.contract = s.contract)
    (deposits : next.deposits = s.deposits)
    (stored : ∀ k : Nat, 1 ≤ k →
      1000 * k < s.contract.currentChildBlock.toNat →
        storedUnder next.node.database (UInt64.ofNat (1000 * k)) =
          storedUnder s.node.database (UInt64.ofNat (1000 * k))) :
    Consistent c deployer next := by
  refine ⟨?_, ?_, ?_, ?_, ?_, consistent.agrees.keep contract stored⟩
  · rcases idle with same | idle
    · rw [same]
      exact consistent.clean
    · exact idle.clean
  · rcases idle with same | idle
    · rw [same]
      exact consistent.buffers
    · exact idle.buffers _
  · rw [contract]
    exact consistent.reached
  · rw [contract]
    exact consistent.small
  · rw [deposits, contract]
    exact consistent.events

/-- A number of the contract fits in 64 bits. -/
theorem fits (consistent : Consistent c deployer s) {k : Nat}
    (below : 1000 * k < s.contract.currentChildBlock.toNat) :
    (UInt64.ofNat (1000 * k)).toNat = 1000 * k := by
  obtain ⟨j, _, interval⟩ := consistent.interval
  have small := consistent.small
  rw [UInt64.toNat_ofNat']
  omega

theorem deposit (consistent : Consistent c deployer s)
    (sender : Address) (value timestamp : Word) :
    Consistent c deployer
      (s.step p signer c account (.deposit sender value timestamp)).1 := by
  have reached := consistent.reached_step
    ⟨sender, value, timestamp, .deposit⟩
  obtain ⟨j, _, interval⟩ := consistent.interval
  have room := consistent.room
  rcases RootChain.step_registers c s.contract
      ⟨sender, value, timestamp, .deposit⟩ with
    ⟨silent, childChain, child, _⟩ | ⟨root, impossible, _⟩ |
      ⟨depositBlock, entry, _, few, number, registered, childChain, child, _⟩
  · refine ⟨consistent.clean, consistent.buffers, reached, ?_, ?_, ?_⟩
    · simp only [step, child]
      exact consistent.small
    · simp only [step, child, depositEvents, silent, List.map_nil,
        List.append_nil]
      exact consistent.events
    · intro k positive below
      simp only [step, child, childChain] at below ⊢
      exact consistent.agrees k positive below
  · cases impossible
  · have place := RootChain.getDepositBlock_toNat number
    refine ⟨consistent.clean, consistent.buffers, reached, ?_, ?_, ?_⟩
    · simp only [step, child]
      exact consistent.small
    · simp only [step, child, depositEvents, registered, List.map_cons,
        List.map_nil]
      intro event member
      rcases List.mem_append.mp member with earlier | last
      · exact consistent.events event earlier
      · rw [List.mem_singleton.mp last]
        exact ⟨depositBlock.toNat, rfl, by omega, by omega⟩
    · intro k positive below
      simp only [step, child, childChain] at below ⊢
      have other : BitVec.ofNat 256 (1000 * k) ≠ depositBlock := by
        intro same
        have small := consistent.small
        have value := congrArg BitVec.toNat same
        rw [BitVec.toNat_ofNat, Nat.mod_eq_of_lt (by omega)] at value
        omega
      rw [Function.update_of_ne other]
      exact consistent.agrees k positive below

end Consistent

end System

namespace System.Consistent

variable {p : Primitives} {signer : EIP155Signer} {c : Crypto}
  {account deployer : Address} {s : System}

theorem depositEvent (consistent : Consistent c deployer s) (time : Int)
    (disk : Bool) (index : Nat) :
    Consistent c deployer
      (s.step p signer c account (.depositEvent time disk index)).1 := by
  simp only [step]
  split
  · exact consistent
  · rename_i event found
    obtain ⟨number, same, odd, below⟩ :=
      consistent.events event (List.mem_of_getElem? found)
    rcases depositEvent_cases p signer s.node time disk event
        consistent.clean with kept | ⟨chain, block, baseDb, place, db⟩
    · exact consistent.node (.inl kept) rfl rfl
        (fun _ _ _ => congrArg (storedUnder · _) kept)
    · refine consistent.node (.inr ?_) rfl rfl ?_
      · exact db ▸ ⟨rfl, rfl⟩
      · intro k positive smaller
        have fits := consistent.fits smaller
        have small := consistent.small
        have other : UInt64.ofNat (1000 * k) ≠ block.numberU64 := by
          intro equal
          have value := congrArg UInt64.toNat equal
          rw [fits, place, uint64_toNat, same] at value
          simp only [Int.natAbs_natCast] at value
          rcases Nat.lt_or_ge number (2 ^ 64) with low | high
          · rw [Nat.mod_eq_of_lt low] at value
            omega
          · rw [Nat.mod_eq_sub_mod high, Nat.mod_eq_of_lt (by omega)] at value
            omega
        rw [← baseDb, ← storedUnder_writeBatch_of_ne other]
        exact congrArg (storedUnder · _) db

theorem call (consistent : Consistent c deployer s)
    (call : DbCall DbKey DbValue) :
    Consistent c deployer (s.step p signer c account (.call call)).1 := by
  simp only [step]
  split
  · rename_i own
    have within : ∀ change, call.change? = some change →
        Node.isEventKey change.key = true := by
      intro change asked
      rw [DbCall.key?, asked] at own
      exact own
    obtain ⟨buffers, contents⟩ := consistent.buffers.perform within
    have stored : ∀ k : Nat, 1 ≤ k →
        1000 * k < s.contract.currentChildBlock.toNat →
          storedUnder (s.node.database.perform call)
            (UInt64.ofNat (1000 * k)) =
          storedUnder s.node.database (UInt64.ofNat (1000 * k)) := by
      intro k _ _
      apply storedUnder_congr
      intro key place
      exact contents key (isEventKey_of_ofNumber place)
    refine ⟨?_, ?_, consistent.reached, consistent.small, consistent.events,
      consistent.agrees.keep rfl ?_⟩
    · simp only [Node.database_withDatabase]
      exact consistent.clean.perform call
    · simp only [Node.database_withDatabase]
      exact buffers
    · simp only [Node.database_withDatabase]
      exact stored
  · exact consistent

theorem restart (consistent : Consistent c deployer s) (disk : Bool) :
    Consistent c deployer
      (s.step p signer c account (.restart disk)).1 := by
  obtain ⟨closed, empty, changes, data, contents⟩ :=
    gainsStartData_start p disk s.node.role
      (d := ⟨s.node.database.db, false, []⟩) rfl
  refine consistent.node (.inr ⟨closed, empty⟩) rfl rfl ?_
  intro k positive below
  have fits := consistent.fits below
  apply storedUnder_congr
  intro key place
  refine (congrFun contents key).trans ?_
  apply applyAll_of_keys
  rintro change member rfl
  have allowed := data change member
  have zero : UInt64.ofNat (1000 * k) = 0 := by
    cases change with
    | delete key => cases allowed
    | put key value =>
        cases key with
        | canonicalHash number =>
            cases value <;> first
              | exact place.symm.trans (beq_iff_eq.mp allowed)
              | cases allowed
        | header number hash =>
            cases value <;> first
              | exact place.symm.trans (beq_iff_eq.mp allowed)
              | cases allowed
        | _ => cases place
  rw [zero] at fits
  simp at fits
  omega

/-- A block that is written under the next number of the contract and whose
root is submitted. -/
theorem submit (consistent : Consistent c deployer s) {node : Node}
    {chain : BlockChain} {block : Block} {number : UInt64}
    (place : block.numberU64 = number)
    (label : block.header.number = number.toNat)
    (agree : number.toNat = s.contract.currentChildBlock.toNat)
    (head : block.number > chain.currentBlock.number)
    (encodes : block.header.encodes = true)
    (kept : ∀ k : Nat, 1000 * k < s.contract.currentChildBlock.toNat →
      storedUnder node.database (UInt64.ofNat (1000 * k)) =
        storedUnder s.node.database (UInt64.ofNat (1000 * k)))
    (db : node.database =
      ⟨applyAll (chain.writeBatch p block) chain.db.db, false, []⟩)
    (timestamp : Word) :
    Consistent c deployer
      { s with
        node := node
        contract :=
          (s.contract.step c (submission account timestamp block)).1 } := by
  have idle : node.database.Idle := db ▸ ⟨rfl, rfl⟩
  have reached := consistent.reached_step (submission account timestamp block)
  obtain ⟨j, _, interval⟩ := consistent.interval
  have bound := number.toNat_lt
  rcases RootChain.step_registers c s.contract
      (submission account timestamp block) with
    ⟨_, childChain, child, _⟩ |
      ⟨root, call, room, _, childChain, child, _⟩ |
      ⟨depositBlock, entry, impossible, _⟩
  · refine ⟨idle.clean, idle.buffers _, reached, ?_, ?_, ?_⟩
    · simp only [child]
      exact consistent.small
    · simp only [child]
      exact consistent.events
    · intro k positive below
      simp only [child, childChain] at below ⊢
      rw [kept k below]
      exact consistent.agrees k positive below
  · cases call
    have sum : (s.contract.currentChildBlock +
        Contract.childBlockInterval).toNat =
          s.contract.currentChildBlock.toNat + 1000 := by
      have step : Contract.childBlockInterval.toNat = 1000 := rfl
      rw [BitVec.toNat_add, step, Nat.mod_eq_of_lt room]
    refine ⟨idle.clean, idle.buffers _, reached, ?_, ?_, ?_⟩
    · simp only [child, sum]
      omega
    · simp only [child, sum]
      intro event member
      obtain ⟨deposit, same, odd, below⟩ := consistent.events event member
      exact ⟨deposit, same, odd, by omega⟩
    · intro k positive below
      simp only [child, childChain, sum] at below ⊢
      by_cases last : 1000 * k = s.contract.currentChildBlock.toNat
      · have value : 1000 * k = number.toNat := last.trans agree.symm
        have current : UInt64.ofNat (1000 * k) = block.numberU64 :=
          (congrArg UInt64.ofNat value).trans
            (UInt64.ofNat_toNat.trans place.symm)
        have entry : BitVec.ofNat 256 (1000 * k) =
            s.contract.currentChildBlock := by
          apply BitVec.eq_of_toNat_eq
          rw [BitVec.toNat_ofNat, last]
          exact Nat.mod_eq_of_lt (by omega)
        refine ⟨block.header, ?_, ?_, ?_⟩
        · rw [current, db]
          exact storedUnder_writeBatch_self head encodes
        · rw [label, last, agree]
        · rw [entry, Function.update_self]
      · have earlier : 1000 * k < s.contract.currentChildBlock.toNat := by
          clear room bound agree
          omega
        have width : 1000 * k < 2 ^ 256 :=
          lt_trans earlier s.contract.currentChildBlock.isLt
        have other : BitVec.ofNat 256 (1000 * k) ≠
            s.contract.currentChildBlock := by
          intro equal
          apply last
          rw [← equal, BitVec.toNat_ofNat, Nat.mod_eq_of_lt width]
        rw [Function.update_of_ne other, kept k earlier]
        exact consistent.agrees k positive earlier
  · cases impossible

theorem sealTxs (consistent : Consistent c deployer s) {time : Int}
    {disk submits : Bool} {txs : List Transaction} {timestamp : Word}
    (aligned : s.Aligned p signer
      (.sealTxs time disk submits txs timestamp)) :
    Consistent c deployer (s.step p signer c account
      (.sealTxs time disk submits txs timestamp)).1 := by
  cases node : s.node with
  | validator v =>
      refine consistent.node (.inl ?_) ?_ rfl ?_ <;>
        simp [step, node, Node.step, submittedBlocks, Node.database]
  | stopped role d =>
      refine consistent.node (.inl ?_) ?_ rfl ?_ <;>
        simp [step, node, Node.step, submittedBlocks, Node.database]
  | operator o =>
      have database : s.node.database = o.chain.db := by
        rw [node]
        rfl
      have clean := consistent.clean
      rw [database] at clean
      have number : (o.constructBlock p time txs).2.numberU64.toNat =
          nextNumber o :=
        congrArg UInt64.toNat (constructBlock_numberU64 p o time txs)
      rcases seal_cases p signer o time disk submits txs clean with
        ⟨same, nothing⟩ | ⟨closed, taken, verdict, db, submitted⟩
      · refine consistent.node (.inl ?_) ?_ rfl ?_
        · simp only [step, node]
          exact same
        · simp only [step, node, nothing, List.foldl_nil]
        · intro k _ _
          simp only [step, node]
          rw [same]
          rfl
      · obtain ⟨above, exact⟩ :=
          aligned o (by rw [node]; rfl) closed taken verdict
        have kept : ∀ k : Nat, 1000 * k < nextNumber o →
            1000 * k < s.contract.currentChildBlock.toNat →
              storedUnder ⟨applyAll (o.chain.writeBatch p
                  (o.constructBlock p time txs).2) o.chain.db.db, false, []⟩
                (UInt64.ofNat (1000 * k)) =
              storedUnder s.node.database (UInt64.ofNat (1000 * k)) := by
          intro k less below
          have fits := consistent.fits below
          rw [database]
          apply storedUnder_writeBatch_of_ne
          intro equal
          have value := congrArg UInt64.toNat equal
          rw [fits, number] at value
          omega
        cases submits with
        | false =>
            refine consistent.node (.inr ?_) ?_ rfl ?_
            · simp only [step, node]
              exact db ▸ ⟨rfl, rfl⟩
            · simp only [step, node, submitted, Bool.false_eq_true, if_false,
                List.foldl_nil]
            · intro k positive below
              have old := kept k (by omega) below
              rw [node] at old
              simp only [step, node]
              rw [db]
              exact old
        | true =>
            obtain ⟨agree, head, clock⟩ := exact rfl
            have encodes : (o.constructBlock p time txs).2.header.encodes =
                true := by
              rw [Header.encodes_eq, constructBlock_number, Bool.and_eq_true,
                decide_eq_true_eq, decide_eq_true_eq]
              refine ⟨Int.natCast_nonneg _, ?_⟩
              simpa only [Operator.constructBlock, Block.newBlock_header]
                using clock
            simp only [step, node, submitted, if_true, List.foldl_cons,
              List.foldl_nil]
            exact consistent.submit (constructBlock_numberU64 p o time txs)
              (constructBlock_number p o time txs) agree
              (by
                rw [Block.number, constructBlock_number]
                exact head) encodes
              (fun k below => by rw [db]; exact kept k (by omega) below)
              db timestamp

theorem first (disk : Bool) (addr : Address) :
    Consistent c deployer (System.first p disk addr deployer) := by
  obtain ⟨closed, empty, _⟩ := gainsStartData_start p disk (.operator addr)
    (d := Database.empty) rfl
  have idle : (System.first p disk addr deployer).node.database.Idle :=
    ⟨closed, empty⟩
  have start : (System.first p disk addr
      deployer).contract.currentChildBlock.toNat = 1000 := rfl
  refine ⟨idle.clean, idle.buffers _, ⟨[], rfl⟩, ?_, nofun, ?_⟩
  · rw [start]
    omega
  · intro k positive below
    rw [start] at below
    omega

theorem step (consistent : Consistent c deployer s) {input : SystemStep}
    (aligned : s.Aligned p signer input) :
    Consistent c deployer (s.step p signer c account input).1 := by
  cases input with
  | sealTxs time disk submits txs timestamp => exact consistent.sealTxs aligned
  | deposit sender value timestamp =>
      exact consistent.deposit sender value timestamp
  | depositEvent time disk index => exact consistent.depositEvent time disk index
  | call call => exact consistent.call call
  | restart disk => exact consistent.restart disk

end System.Consistent

namespace System

/-- The contract and the operator agree on the block of every number as long
as every block is sealed under the number the contract will give to it. -/
theorem roots_agree {p : Primitives} {signer : EIP155Signer} {c : Crypto}
    {account addr deployer : Address} {disk : Bool} {steps : List SystemStep}
    (aligned : StepsMeet (step p signer c account) (Aligned p signer)
      (first p disk addr deployer) steps) :
    (execute (step p signer c account) (first p disk addr deployer)
      steps).1.Agrees := by
  have run := execute_induction (step p signer c account) (Aligned p signer)
    (fun _ s _ => Consistent c deployer s)
    (fun _ _ _ _ consistent aligned => consistent.step aligned)
    (Consistent.first disk addr) aligned
  exact run.agrees

/-- The run of the sample operator with the sample contract. -/
def sampleRun (steps : List SystemStep) : System × List NodeEvent :=
  execute (step Core.Sample.primitives Core.Sample.signer Contract.Sample.crypto
      Core.Sample.operatorAddr)
    (first Core.Sample.primitives true Core.Sample.operatorAddr
      Core.Sample.operatorAddr) steps

/-- The deposit of five and its event. -/
def sampleDeposit : List SystemStep :=
  [.deposit Contract.Sample.alice 5 Contract.Sample.start,
    .depositEvent Core.Sample.now true 0]

def sampleSeal (submits : Bool) (txs : List Transaction) : SystemStep :=
  .sealTxs Core.Sample.now true submits txs (Contract.Sample.start + 10)

theorem roots_agree_after_spend :
    (sampleRun (sampleDeposit ++
      [sampleSeal true [Core.Sample.spend]])).1.Agrees :=
  roots_agree (by decide +kernel)

/-- The submission of an empty block fails, and the next block takes its
number on the root chain. -/
def driftingRun : List SystemStep :=
  sampleDeposit ++ [sampleSeal false [], sampleSeal true [Core.Sample.spend]]

theorem Agrees.first_block {s : System} (agrees : s.Agrees)
    (submitted : 1000 < s.contract.currentChildBlock.toNat) :
    (storedUnder s.node.database 1000).map Header.txHash =
      some (s.contract.childChain 1000).root := by
  obtain ⟨header, found, _, same⟩ := agrees 1 (le_refl 1) submitted
  have stored : storedUnder s.node.database 1000 = some header := found
  have root : (s.contract.childChain 1000).root = header.txHash := same
  rw [stored, root]
  rfl

theorem roots_differ_after_failed_submission :
    (sampleRun driftingRun).1.contract.currentChildBlock = 2000 ∧
      ((sampleRun driftingRun).1.contract.childChain 1000).root =
        Core.Sample.spendRoot ∧
      (storedUnder (sampleRun driftingRun).1.node.database 1000).map
        Header.txHash = some Core.Sample.emptyRoot ∧
      ¬ (sampleRun driftingRun).1.Agrees := by
  have counter : (sampleRun driftingRun).1.contract.currentChildBlock =
      2000 := by
    decide +kernel
  have root : ((sampleRun driftingRun).1.contract.childChain 1000).root =
      Core.Sample.spendRoot := by
    decide +kernel
  have stored : (storedUnder (sampleRun driftingRun).1.node.database 1000).map
      Header.txHash = some Core.Sample.emptyRoot := by
    decide +kernel
  refine ⟨counter, root, stored, ?_⟩
  intro agrees
  have submitted : 1000 < (sampleRun
      driftingRun).1.contract.currentChildBlock.toNat := by
    rw [counter]
    decide
  have same := agrees.first_block submitted
  rw [stored, root] at same
  exact absurd same (by decide)

end System

end Plasma.Bridge
