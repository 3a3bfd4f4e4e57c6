import Plasma.Core.Validator
import Plasma.Lib.Trace

/-!
# Runs of a node

A node runs as operator or as validator.  Besides its own calls it is handed
blocks by its peers, which go through the same `WriteBlock`, and it can be
stopped and started again over the same database.
-/

namespace Plasma.Core

open Plasma.Lib Plasma.Store

inductive Role where
  | operator (addr : Address)
  | validator
deriving DecidableEq, Repr

inductive Node where
  | operator (o : Operator)
  | validator (v : Validator)
  | stopped (role : Role) (d : Database)

inductive NodeStep where
  | sealTxs (time : Int) (disk submits : Bool) (txs : List Transaction)
  | depositEvent (time : Int) (disk : Bool) (number : Int)
      (depositor token : Address) (amount : Int)
  | deliver (disk : Bool) (block : Block)
  | restart (disk : Bool)
deriving DecidableEq, Repr

namespace Node

def role : Node → Role
  | .operator o => .operator o.addr
  | .validator _ => .validator
  | .stopped role _ => role

def database : Node → Database
  | .operator o => o.chain.db
  | .validator v => v.chain.db
  | .stopped _ d => d

def utxoSet (node : Node) : UtxoSet :=
  Rawdb.utxos node.database.db

/-- The node after another user of the handle has changed it. -/
def withDatabase (node : Node) (d : Database) : Node :=
  match node with
  | .operator o => .operator { o with chain := { o.chain with db := d } }
  | .validator v => .validator { v with chain := { v.chain with db := d } }
  | .stopped role _ => .stopped role d

/-- The node after its block chain has changed. -/
def withChain (node : Node) (chain : BlockChain) : Node :=
  match node with
  | .operator o => .operator { o with chain := chain }
  | .validator v => .validator { v with chain := chain }
  | .stopped role d => .stopped role d

@[simp] theorem database_withDatabase (node : Node) (d : Database) :
    (node.withDatabase d).database = d := by
  cases node <;> rfl

theorem withDatabase_self (node : Node) :
    node.withDatabase node.database = node := by
  cases node <;> rfl

@[simp] theorem withDatabase_withDatabase (node : Node) (d e : Database) :
    (node.withDatabase d).withDatabase e = node.withDatabase e := by
  cases node <;> rfl

/-- The block chain of a running node. -/
def chain? : Node → Option BlockChain
  | .operator o => some o.chain
  | .validator v => some v.chain
  | .stopped _ _ => none

theorem database_withChain {node : Node} {chain : BlockChain}
    (running : node.chain? = some chain) (next : BlockChain) :
    (node.withChain next).database = next.db := by
  cases node with
  | operator o => rfl
  | validator v => rfl
  | stopped role d => cases running

def operator? : Node → Option Operator
  | .operator o => some o
  | _ => none

theorem database_of_chain {node : Node} {chain : BlockChain}
    (running : node.chain? = some chain) : node.database = chain.db := by
  cases node with
  | operator o =>
      cases running
      rfl
  | validator v =>
      cases running
      rfl
  | stopped role d => cases running

section

variable (p : Primitives) (signer : EIP155Signer)

/-- The start of a process; when it fails the database keeps what the genesis
commit wrote. -/
def start (disk : Bool) (role : Role) (d : Database) : Node :=
  match role with
  | .operator addr =>
      match startOperator p disk addr d with
      | .ok o => .operator o
      | .error _ => .stopped role (setupGenesisBlock p disk none d).1
  | .validator =>
      match startValidator p disk d with
      | .ok v => .validator v
      | .error _ => .stopped role (setupGenesisBlock p disk none d).1

/-- `WriteBlock` of the worker of a running node. -/
def writeBlock (disk : Bool) (node : Node) (block : Block) :
    Node × List NodeEvent × Option (Except WriteError Unit) :=
  match node with
  | .operator o =>
      let (o, events, result) := o.writeBlock p signer disk block
      (.operator o, events, some result)
  | .validator v =>
      let (v, events, result) := v.writeBlock p signer disk block
      (.validator v, events, some result)
  | .stopped role d => (.stopped role d, [], none)

/-- A validator has no handler for deposits and does not seal.  A new process
opens the database without a transaction. -/
def step (node : Node) : NodeStep → Node × List NodeEvent
  | .sealTxs time disk submits txs =>
      match node with
      | .operator o =>
          let (o, events, _) := o.sealTxs p signer time disk submits txs
          (.operator o, events)
      | other => (other, [])
  | .depositEvent time disk number depositor token amount =>
      match node with
      | .operator o =>
          let (o, events, _) := o.handleDepositEvent p signer time disk number
            depositor token amount
          (.operator o, events)
      | other => (other, [])
  | .deliver disk block =>
      let (node, events, _) := node.writeBlock p signer disk block
      (node, events)
  | .restart disk =>
      (start p disk node.role ⟨node.database.db, false, []⟩, [])

end

end Node

/-- Data that the start of a process writes: the block of number 0 and the
heads. -/
def isStartData : Change DbKey DbValue → Bool
  | .put (.canonicalHash number) (.hash _) => number == 0
  | .put (.headerNumber _) (.number _) => true
  | .put (.header number _) (.header _) => number == 0
  | .put (.body number _) (.body _) => number == 0
  | .put .headHeader (.hash _) => true
  | .put .headBlock (.hash _) => true
  | _ => false

theorem isBlockData_of_isStartData {change : Change DbKey DbValue}
    (data : isStartData change = true) : isBlockData change = true := by
  unfold isStartData at data
  split at data <;> first | rfl | cases data

/-- The database gains start data only; its transaction is left alone. -/
def GainsStartData (before after : Database) : Prop :=
  after.inBatch = before.inBatch ∧ after.defaultBatch = before.defaultBatch ∧
    ∃ changes : List (Change DbKey DbValue),
      (∀ change ∈ changes, isStartData change = true) ∧
        after.db = applyAll changes before.db

namespace GainsStartData

theorem refl (d : Database) : GainsStartData d d :=
  ⟨rfl, rfl, [], by simp, rfl⟩

theorem trans {first second third : Database}
    (left : GainsStartData first second)
    (right : GainsStartData second third) : GainsStartData first third := by
  obtain ⟨leftOpen, leftBatch, changes, data, contents⟩ := left
  obtain ⟨rightOpen, rightBatch, later, laterData, laterContents⟩ := right
  refine ⟨rightOpen.trans leftOpen, rightBatch.trans leftBatch,
    changes ++ later, ?_, ?_⟩
  · intro change member
    rcases List.mem_append.mp member with early | late
    · exact data change early
    · exact laterData change late
  · rw [applyAll_append, ← contents]
    exact laterContents

theorem put {d : Database} (closed : d.inBatch = false) (disk : Bool)
    (key : DbKey) (value : DbValue)
    (data : isStartData (.put key value) = true) :
    GainsStartData d (d.put disk key value).1 := by
  obtain ⟨contents, inBatch, batch⟩ := d
  subst closed
  cases disk with
  | false => exact refl _
  | true =>
      refine ⟨rfl, rfl, [.put key value], ?_, rfl⟩
      simpa using data

theorem closed {before after : Database}
    (gains : GainsStartData before after)
    (closed : before.inBatch = false) : after.inBatch = false :=
  gains.1.trans closed

end GainsStartData

section Start

variable (p : Primitives) (disk : Bool)

private theorem gainsStartData_writeBlock {block : Block} {d : Database}
    (first : block.numberU64 = 0) (encodes : block.encodes = true)
    (closed : d.inBatch = false) :
    GainsStartData d (Rawdb.writeBlock disk p block d) := by
  have zero : (block.numberU64 == 0) = true := beq_iff_eq.mpr first
  have header := Rawdb.headerData_of_encodes (Block.encodes_header encodes)
  have transactions := Rawdb.bodyData_of_encodes (Block.encodes_body encodes)
  have body : GainsStartData d (Rawdb.writeBody disk (block.hash p)
      block.numberU64 block.transactions d) := by
    rw [Rawdb.writeBody, transactions]
    exact .put closed disk _ _ zero
  have number := body.trans (.put (body.closed closed) disk
    (.headerNumber (block.hash p)) (.number block.numberU64) rfl)
  rw [Rawdb.writeBlock, Rawdb.writeHeader, header]
  exact number.trans (.put (number.closed closed) disk _ _ zero)

private theorem gainsStartData_commit (g : Genesis) {d d' : Database}
    {block : Block} (closed : d.inBatch = false)
    (committed : g.commit p disk d = .ok (d', block)) :
    GainsStartData d d' := by
  simp only [Genesis.commit] at committed
  split at committed
  · cases committed
  · rename_i number
    have first : (g.toBlock p).numberU64 = 0 := by
      have zero : (g.toBlock p).header.number = 0 := not_not.mp number
      rw [Block.numberU64, zero]
      rfl
    cases committed
    have written := gainsStartData_writeBlock p disk first
      (Genesis.toBlock_encodes p g) closed
    have canonical := written.trans (.put (written.closed closed) disk
      (.canonicalHash (g.toBlock p).numberU64)
      (.hash ((g.toBlock p).hash p)) (beq_iff_eq.mpr first))
    have head := canonical.trans (.put (canonical.closed closed) disk
      .headBlock (.hash ((g.toBlock p).hash p)) rfl)
    exact head.trans (.put (head.closed closed) disk _ _ rfl)

theorem gainsStartData_setup (d : Database) (closed : d.inBatch = false) :
    GainsStartData d (setupGenesisBlock p disk none d).1 := by
  simp only [setupGenesisBlock]
  split
  · split
    · exact .refl d
    · rename_i outcome
      exact gainsStartData_commit p disk _ closed outcome
  · exact .refl d

private theorem getBlockByHash_db (chain : BlockChain) (hash : Hash) :
    (chain.getBlockByHash p hash).1.db = chain.db := by
  unfold BlockChain.getBlockByHash
  split
  · rfl
  · exact BlockChain.getBlock_db p chain _ _

private theorem loadFastBlock_db (chain : BlockChain) :
    (chain.loadFastBlock p).db = chain.db := by
  simp only [BlockChain.loadFastBlock]
  split
  · rfl
  · have kept := getBlockByHash_db p
      { chain with currentFastBlock := chain.currentBlock }
      (Rawdb.readHeadFastBlockHash chain.db)
    split
    · rename_i found
      rw [found] at kept
      exact kept
    · rename_i found
      rw [found] at kept
      exact kept

private theorem gainsStartData_loadLastState {chain loaded : BlockChain}
    (closed : chain.db.inBatch = false)
    (outcome : chain.loadLastState p disk = .ok loaded) :
    GainsStartData chain.db loaded.db := by
  have kept := getBlockByHash_db p chain (Rawdb.readHeadBlockHash chain.db)
  simp only [BlockChain.loadLastState] at outcome
  split at outcome
  · cases outcome
  · split at outcome
    · cases outcome
    · rename_i found
      cases outcome
      rw [found] at kept
      rw [loadFastBlock_db, ← kept]
      exact .put (by rw [kept]; exact closed) disk _ _ rfl

theorem gainsStartData_newBlockChain {d : Database} {chain : BlockChain}
    (closed : d.inBatch = false)
    (loaded : BlockChain.newBlockChain p disk d = .ok chain) :
    GainsStartData d chain.db := by
  simp only [BlockChain.newBlockChain] at loaded
  split at loaded
  · cases loaded
  · split at loaded
    · cases loaded
    · have gains := gainsStartData_loadLastState p disk (by simpa) loaded
      simpa using gains

theorem gainsStartData_startChain {d : Database} {chain : BlockChain}
    (closed : d.inBatch = false)
    (started : startChain p disk d = .ok chain) :
    GainsStartData d chain.db := by
  have setup := gainsStartData_setup p disk d closed
  unfold startChain at started
  split at started
  · cases started
  · rename_i outcome
    rw [outcome] at setup
    exact setup.trans
      (gainsStartData_newBlockChain p disk (setup.closed closed) started)

/-- Starting a node only adds start data to the database. -/
theorem gainsStartData_start (role : Role) {d : Database}
    (closed : d.inBatch = false) :
    GainsStartData d (Node.start p disk role d).database := by
  have setup := gainsStartData_setup p disk d closed
  cases role with
  | operator addr =>
      cases started : startChain p disk d with
      | error failure =>
          simp only [Node.start, startOperator, started]
          exact setup
      | ok chain =>
          have gains := gainsStartData_startChain p disk closed started
          simp only [Node.start, startOperator, started]
          exact gains
  | validator =>
      cases started : startChain p disk d with
      | error failure =>
          simp only [Node.start, startValidator, started]
          exact setup
      | ok chain =>
          have gains := gainsStartData_startChain p disk closed started
          simp only [Node.start, startValidator, started]
          exact gains

end Start

namespace Node

variable (p : Primitives) (signer : EIP155Signer)

/-- The batch of a block that a chain over this database committed. -/
def Commits (node next : Node) (block : Block) : Prop :=
  ∃ chain : BlockChain, chain.db = node.database ∧
    chain.verdict p signer block = .ok () ∧
      next.database =
        ⟨applyAll (chain.writeBatch p block) node.database.db, false, []⟩

section

variable {removeInputs :
  List UTXO → Database → Database × Except DbError Unit}

/-- A write of a chain over the node's database. -/
private theorem commits_of_writeWith (buffers : BuffersDeletions removeInputs)
    (disk : Bool) {chain : BlockChain} (block : Block) (node next : Node)
    (events : List NodeEvent) (idle : node.database.Idle)
    (baseDb : chain.db = node.database)
    (result : next.database =
      (chain.writeWith removeInputs p signer disk block).1.db)
    (reported : committedBlocks events = committedBlocks
      (chain.writeWith removeInputs p signer disk block).2.1) :
    (GainsStartData ⟨node.database.db, false, []⟩ next.database ∧
      committedBlocks events = []) ∨
    ∃ written, Commits p signer node next written ∧
      committedBlocks events = [written] := by
  rw [← baseDb] at idle
  rw [reported]
  rcases BlockChain.writeWith_cases p buffers signer disk chain block idle with
    ⟨same, silent, _⟩ | ⟨db, outcome, verdict, _⟩
  · left
    refine ⟨?_, silent⟩
    rw [result, same, ← baseDb]
    exact ⟨idle.1, idle.2, [], by simp, rfl⟩
  · right
    refine ⟨block, ⟨chain, baseDb, verdict, ?_⟩, ?_⟩
    · rw [result, db, baseDb]
    · rw [outcome]
      rfl

private theorem accepted_or_refused (buffers : BuffersDeletions removeInputs)
    (disk : Bool) {chain : BlockChain} (block : Block) (node next : Node)
    (result : Option (Except WriteError Unit)) (idle : node.database.Idle)
    (baseDb : chain.db = node.database)
    (database : next.database =
      (chain.writeWith removeInputs p signer disk block).1.db)
    (answer : result =
      some (chain.writeWith removeInputs p signer disk block).2.2) :
    (chain.verdict p signer block = .ok () ∧ disk = true ∧
        result = some (.ok ()) ∧
        next.utxoSet = applyAll block.changes node.utxoSet) ∨
      (¬ (chain.verdict p signer block = .ok () ∧ disk = true) ∧
        (∃ failure, result = some (.error failure)) ∧
        next.utxoSet = node.utxoSet) := by
  rw [← baseDb] at idle
  rw [utxoSet, utxoSet, database, answer, ← baseDb]
  rcases BlockChain.writeWith_cases p buffers signer disk chain block idle with
    ⟨same, _, ⟨failure, failed⟩, refused⟩ | ⟨db, outcome, verdict, accepted⟩
  · right
    exact ⟨refused, ⟨failure, congrArg some failed⟩, by rw [same]⟩
  · left
    refine ⟨verdict, accepted, by rw [outcome], ?_⟩
    rw [db]
    exact BlockChain.utxos_writeBatch p chain block

end

/-- What one step can do when no transaction is open: gain start data without
committing a block, or commit one block. -/
theorem step_cases (node : Node) (input : NodeStep)
    (idle : node.database.Idle) :
    (GainsStartData ⟨node.database.db, false, []⟩
        (node.step p signer input).1.database ∧
      committedBlocks (node.step p signer input).2 = []) ∨
    ∃ block, Commits p signer node (node.step p signer input).1 block ∧
      committedBlocks (node.step p signer input).2 = [block] := by
  have unchanged : GainsStartData ⟨node.database.db, false, []⟩
      node.database := ⟨idle.1, idle.2, [], by simp, rfl⟩
  cases input with
  | sealTxs time disk submits txs =>
      cases node with
      | operator o =>
          exact commits_of_writeWith p signer
            (Operator.buffersDeletions_removeInputs disk) disk
            (o.constructBlock p time txs).2 (.operator o) _ _ idle rfl
            (congrArg BlockChain.db
              (Operator.sealTxs_chain p signer o time disk submits txs))
            (Operator.sealTxs_committed p signer o time disk submits txs)
      | validator v => exact .inl ⟨unchanged, rfl⟩
      | stopped role d => exact .inl ⟨unchanged, rfl⟩
  | depositEvent time disk number depositor token amount =>
      cases node with
      | operator o =>
          exact commits_of_writeWith p signer
            (Operator.buffersDeletions_removeInputs disk) disk
            (o.constructDepositBlock p time number
              (Operator.depositTx depositor amount)) (.operator o) _ _ idle
            rfl rfl rfl
      | validator v => exact .inl ⟨unchanged, rfl⟩
      | stopped role d => exact .inl ⟨unchanged, rfl⟩
  | deliver disk block =>
      cases node with
      | operator o =>
          exact commits_of_writeWith p signer
            (Operator.buffersDeletions_removeInputs disk) disk block
            (.operator o) _ _ idle rfl rfl rfl
      | validator v =>
          exact commits_of_writeWith p signer
            (Validator.buffersDeletions_removeInputs disk) disk block
            (.validator v) _ _ idle rfl rfl rfl
      | stopped role d => exact .inl ⟨unchanged, rfl⟩
  | restart disk =>
      left
      exact ⟨gainsStartData_start p disk node.role rfl, rfl⟩

theorem start_role (disk : Bool) (role : Role) (d : Database) :
    (start p disk role d).role = role := by
  cases role with
  | operator addr =>
      cases started : startChain p disk d with
      | error failure => simp only [start, startOperator, started, Node.role]
      | ok chain =>
          simp only [start, startOperator, started, Node.role,
            Operator.newOperator]
  | validator =>
      cases started : startChain p disk d with
      | error failure => simp only [start, startValidator, started, Node.role]
      | ok chain => simp only [start, startValidator, started, Node.role]

theorem step_role (node : Node) (input : NodeStep) :
    (node.step p signer input).1.role = node.role := by
  cases input with
  | sealTxs time disk submits txs =>
      cases node with
      | operator o =>
          exact congrArg Role.operator
            (Operator.sealTxs_addr p signer o time disk submits txs)
      | validator v => rfl
      | stopped role d => rfl
  | depositEvent time disk number depositor token amount =>
      cases node <;> rfl
  | deliver disk block => cases node <;> rfl
  | restart disk => exact start_role p disk node.role _

@[simp] theorem role_withDatabase (node : Node) (d : Database) :
    (node.withDatabase d).role = node.role := by
  cases node <;> rfl

def isRestart : NodeStep → Bool
  | .restart _ => true
  | _ => false

/-- While a transaction is open no call of the node changes the database. -/
theorem step_database_of_busy (node : Node) (input : NodeStep)
    (busy : node.database.inBatch = true) (running : isRestart input = false) :
    (node.step p signer input).1.database = node.database := by
  have kept : ∀ removeInputs disk (chain : BlockChain) block,
      chain.db = node.database →
        (chain.writeWith removeInputs p signer disk block).1.db =
          node.database := by
    intro removeInputs disk chain block baseDb
    rw [BlockChain.writeWith_of_busy p signer disk block (baseDb ▸ busy)]
    exact baseDb
  cases input with
  | sealTxs time disk submits txs =>
      cases node with
      | operator o =>
          have chain := Operator.sealTxs_chain p signer o time disk submits txs
          exact (congrArg BlockChain.db chain).trans (kept _ _ _ _ rfl)
      | validator v => rfl
      | stopped role d => rfl
  | depositEvent time disk number depositor token amount =>
      cases node with
      | operator o => exact kept _ _ _ _ rfl
      | validator v => rfl
      | stopped role d => rfl
  | deliver disk block =>
      cases node with
      | operator o => exact kept _ _ _ _ rfl
      | validator v => exact kept _ _ _ _ rfl
      | stopped role d => rfl
  | restart disk => cases running

/-- The keys that belong to the event loop. -/
def isEventKey : DbKey → Bool
  | .fromBlock => true
  | .eventMarker _ => true
  | _ => false

theorem isEventKey_of_isStartData {change : Change DbKey DbValue}
    (data : isStartData change = true) : isEventKey change.key = false := by
  cases change with
  | delete key => cases data
  | put key value => cases key <;> first | rfl | cases data

theorem isEventKey_of_touches {block : Block} {key : DbKey}
    (touched : BlockChain.touches p block key) : isEventKey key = false := by
  cases key <;> first | rfl | cases touched

/-- The keys of the event loop are spared: nothing happens to the database, or
other keys change and no transaction is open. -/
def SparesEvents (before after : Database) : Prop :=
  after = before ∨
    after.Idle ∧ ∃ changes : List (Change DbKey DbValue),
      (∀ change ∈ changes, isEventKey change.key = false) ∧
        after.db = applyAll changes before.db

namespace SparesEvents

variable {before after : Database}

theorem of_gains (gains : GainsStartData ⟨before.db, false, []⟩ after) :
    SparesEvents before after := by
  obtain ⟨closed, empty, changes, data, contents⟩ := gains
  refine .inr ⟨⟨closed, empty⟩, changes, ?_, contents⟩
  intro change member
  exact isEventKey_of_isStartData (data change member)

theorem clean (spares : SparesEvents before after) (clean : before.Clean) :
    after.Clean := by
  rcases spares with same | ⟨idle, _⟩
  · rw [same]
    exact clean
  · exact idle.clean

theorem get_eq {key : DbKey} (spares : SparesEvents before after)
    (event : isEventKey key = true) : after.db key = before.db key := by
  rcases spares with same | ⟨_, changes, others, contents⟩
  · rw [same]
  · rw [contents]
    apply applyAll_of_keys
    intro change member same
    have other := others change member
    rw [same, event] at other
    cases other

theorem undeleted {key : DbKey} (spares : SparesEvents before after)
    (undeleted : key ∉ deletedKeys before.defaultBatch) :
    key ∉ deletedKeys after.defaultBatch := by
  rcases spares with same | ⟨⟨_, empty⟩, _⟩
  · rw [same]
    exact undeleted
  · rw [empty]
    exact List.not_mem_nil

/-- A key of the event loop that is held was held before. -/
theorem holds {key : DbKey} (spares : SparesEvents before after)
    (event : isEventKey key = true) (held : after.Holds key) :
    before.Holds key := by
  rcases held with present | buffered
  · left
    rwa [spares.get_eq event] at present
  · rcases spares with same | ⟨⟨_, empty⟩, _⟩
    · right
      rwa [same] at buffered
    · rw [empty] at buffered
      cases buffered

end SparesEvents

theorem step_sparesEvents (node : Node) (input : NodeStep)
    (clean : node.database.Clean) :
    SparesEvents node.database (node.step p signer input).1.database := by
  cases busy : node.database.inBatch with
  | true =>
      cases kind : isRestart input with
      | false =>
          exact .inl (node.step_database_of_busy p signer input busy kind)
      | true =>
          cases input with
          | restart disk =>
              exact .of_gains (gainsStartData_start p disk _ rfl)
          | sealTxs time disk submits txs => cases kind
          | depositEvent time disk number depositor token amount => cases kind
          | deliver disk block => cases kind
  | false =>
      rcases node.step_cases p signer input ⟨busy, clean busy⟩ with
        ⟨gains, _⟩ | ⟨block, ⟨chain, baseDb, _, db⟩, _⟩
      · exact .of_gains gains
      · right
        rw [db]
        refine ⟨⟨rfl, rfl⟩, chain.writeBatch p block, ?_, rfl⟩
        intro change member
        exact isEventKey_of_touches p (BlockChain.touches_writeBatch p member)

/-- `WriteBlock` of a running node without an open transaction: the block is
accepted when its path accepts it and the commit succeeds, and nothing changes
otherwise. -/
theorem writeBlock_cases {node : Node} {chain : BlockChain}
    (running : node.chain? = some chain) (idle : chain.db.Idle)
    (disk : Bool) (block : Block) :
    (chain.verdict p signer block = .ok () ∧ disk = true ∧
        (node.writeBlock p signer disk block).2.2 = some (.ok ()) ∧
        (node.writeBlock p signer disk block).1.utxoSet =
          applyAll block.changes node.utxoSet) ∨
      (¬ (chain.verdict p signer block = .ok () ∧ disk = true) ∧
        (∃ failure, (node.writeBlock p signer disk block).2.2 =
          some (.error failure)) ∧
        (node.writeBlock p signer disk block).1.utxoSet = node.utxoSet) := by
  cases node with
  | operator o =>
      cases running
      exact accepted_or_refused p signer
        (Operator.buffersDeletions_removeInputs disk) disk block
        (.operator o) _ _ idle rfl rfl rfl
  | validator v =>
      cases running
      exact accepted_or_refused p signer
        (Validator.buffersDeletions_removeInputs disk) disk block
        (.validator v) _ _ idle rfl rfl rfl
  | stopped role d => cases running

/-- While a transaction is open every block is refused. -/
theorem writeBlock_of_busy {node : Node} {chain : BlockChain}
    (running : node.chain? = some chain) (busy : chain.db.inBatch = true)
    (disk : Bool) (block : Block) :
    (node.writeBlock p signer disk block).2.2 =
      some (.error .databaseRace) := by
  cases node with
  | operator o =>
      cases running
      simp only [writeBlock, Operator.writeBlock,
        BlockChain.writeWith_of_busy p signer disk block busy]
  | validator v =>
      cases running
      simp only [writeBlock, Validator.writeBlock,
        BlockChain.writeWith_of_busy p signer disk block busy]
  | stopped role d => cases running

/-- The chain after an accepted block. -/
theorem writeBlock_accepted {node : Node} (clean : node.database.Clean)
    {disk : Bool} {block : Block}
    (accepted : (node.writeBlock p signer disk block).2.2 =
      some (.ok ())) :
    ∃ chain, node.chain? = some chain ∧ chain.db.Idle ∧
      chain.verdict p signer block = .ok () ∧
      (node.writeBlock p signer disk block).1.chain? =
        some { (chain.viewed p block).headed p block with
          db := ⟨applyAll (chain.writeBatch p block) chain.db.db, false,
            []⟩ } := by
  cases node with
  | operator o =>
      obtain ⟨idle, verdict, chain⟩ := BlockChain.writeWith_of_ok p
        (Operator.buffersDeletions_removeInputs disk) clean
        (Option.some.inj accepted)
      exact ⟨o.chain, rfl, idle, verdict, congrArg some chain⟩
  | validator v =>
      obtain ⟨idle, verdict, chain⟩ := BlockChain.writeWith_of_ok p
        (Validator.buffersDeletions_removeInputs disk) clean
        (Option.some.inj accepted)
      exact ⟨v.chain, rfl, idle, verdict, congrArg some chain⟩
  | stopped role d => cases accepted

end Node

end Plasma.Core
