import Plasma.Core.Node
import Plasma.Core.OperatorRun

/-!
# The event loop of the root chain client

`loopEvents` asks the root chain for the events from a block on, calls the
handler of every event, stores a marker for it and moves on to the next block.
Every database call of the loop is a step of its own, so that the other users
of the handle can act in between; a handler runs as one step.  The answers of
the root chain and of the disk and the clock are inputs.
-/

namespace Plasma.Core

open Plasma.Lib Plasma.Store

structure DepositEvent where
  depositor : Address
  depositBlock : Int
  token : Address
  amount : Int
deriving DecidableEq, Repr

structure BlockSubmittedEvent where
  root : Hash
  lastDepositBlockNum : Int
  submittedBlockNum : Int
  time : Int
deriving DecidableEq, Repr

/-- The event types the loop asks for. -/
inductive EventValue where
  | deposit (event : DepositEvent)
  | blockSubmitted (event : BlockSubmittedEvent)
deriving DecidableEq, Repr

structure ContractEvent where
  blockNum : UInt64
  value : EventValue
deriving DecidableEq, Repr

abbrev EventHash := BitVec 128

namespace Node

variable (p : Primitives) (signer : EIP155Signer)

/-- Only an operator registers a handler for deposits. -/
def dealWithDepositEvent (time : Int) (disk : Bool) (node : Node)
    (event : DepositEvent) : Node × List NodeEvent × Except WriteError Unit :=
  match node with
  | .operator o =>
      let (o, events, result) := o.handleDepositEvent p signer time disk
        event.depositBlock event.depositor event.token event.amount
      (.operator o, events, result)
  | other => (other, [], .ok ())

/-- `completeBlockSubmit` does nothing and its answer is dropped. -/
def dealWithBlockSubmittedEvent (node : Node) (_event : BlockSubmittedEvent) :
    Node × List NodeEvent × Except WriteError Unit :=
  (node, [], .ok ())

/-- The function registered for the name of an event. -/
def sub (time : Int) (disk : Bool) (node : Node) (event : ContractEvent) :
    Node × List NodeEvent × Except WriteError Unit :=
  match event.value with
  | .deposit event => node.dealWithDepositEvent p signer time disk event
  | .blockSubmitted event => node.dealWithBlockSubmittedEvent event

end Node

/-- The next call of the loop, with the events of the batch still to come. -/
inductive LoopPhase where
  | getContractEvents
  | next (events : List ContractEvent)
  | handle (event : ContractEvent) (rest : List ContractEvent)
  | putKey (event : ContractEvent) (rest : List ContractEvent)
  | putFromBlock (rest : List ContractEvent)
  | beginTx (rest : List ContractEvent)
  | delete (keys : List EventHash) (rest : List ContractEvent)
  | commitTx (rest : List ContractEvent)
  | rollbackTx (rest : List ContractEvent)
  | returned
deriving DecidableEq, Repr

/-- A process with its event loop, and the events the root chain has logged. -/
structure Client where
  node : Node
  log : List ContractEvent
  fromBlock : Int
  blockNum : UInt64
  hashList : List EventHash
  phase : LoopPhase

inductive LoopReport where
  | handled (event : ContractEvent) (result : Except WriteError Unit)
  | node (event : NodeEvent)
deriving DecidableEq

/-- The block from which the loop starts to ask. -/
def firstBlock : Int := 100

/-- The last event of a batch or of a block. -/
def endsBlock (blockNum : UInt64) : List ContractEvent → Bool
  | [] => true
  | next :: _ => blockNum != next.blockNum

namespace Client

def database (s : Client) : Database := s.node.database

def withDatabase (s : Client) (d : Database) : Client :=
  { s with node := s.node.withDatabase d }

/-- The loop of a process that has just been started. -/
def launch (node : Node) (log : List ContractEvent) : Client :=
  { node := node
    log := log
    fromBlock := firstBlock
    blockNum := 0
    hashList := []
    phase := .getContractEvents }

section

variable (p : Primitives) (signer : EIP155Signer)
  (hashEvent : ContractEvent → EventHash × List UInt8)

/-- One call of `loopEvents`.  The answer of a handler is not looked at. -/
def loopEvents (time : Int) (answer : Bool) (s : Client) :
    Client × List LoopReport :=
  match s.phase with
  | .getContractEvents =>
      if answer then
        ({ s with
            phase := .next (s.log.filter fun event =>
              s.fromBlock ≤ event.blockNum.toNat) }, [])
      else ({ s with phase := .returned }, [])
  | .next [] => ({ s with phase := .getContractEvents }, [])
  | .next (event :: rest) =>
      let key := (hashEvent event).1
      let s :=
        { s with blockNum := event.blockNum, hashList := s.hashList ++ [key] }
      if answer then
        if s.database.has (.eventMarker key) then
          ({ s with phase := .next rest }, [])
        else ({ s with phase := .handle event rest }, [])
      else ({ s with phase := .returned }, [])
  | .handle event rest =>
      let (node, events, result) := s.node.sub p signer time answer event
      ({ s with node := node, phase := .putKey event rest },
        events.map .node ++ [.handled event result])
  | .putKey event rest =>
      let (key, value) := hashEvent event
      match s.database.put answer (.eventMarker key) (.event value) with
      | (d, .error _) => ({ s.withDatabase d with phase := .returned }, [])
      | (d, .ok _) =>
          let s := s.withDatabase d
          if endsBlock s.blockNum rest then
            ({ s with
                fromBlock := (event.blockNum + 1).toInt64.toInt
                phase := .putFromBlock rest }, [])
          else ({ s with phase := .next rest }, [])
  | .putFromBlock rest =>
      match s.database.put answer .fromBlock
          (.fromBlock s.fromBlock.natAbs) with
      | (d, .error _) => ({ s.withDatabase d with phase := .returned }, [])
      | (d, .ok _) => ({ s.withDatabase d with phase := .beginTx rest }, [])
  | .beginTx rest =>
      match s.database.beginTx with
      | (_, false) => ({ s with phase := .next rest }, [])
      | (d, true) =>
          ({ s.withDatabase d with phase := .delete s.hashList rest }, [])
  | .delete [] rest => ({ s with phase := .commitTx rest }, [])
  | .delete (key :: keys) rest =>
      let d := (s.database.delete answer (.eventMarker key)).1
      ({ s.withDatabase d with phase := .delete keys rest }, [])
  | .commitTx rest =>
      match s.database.commitTx answer with
      | (d, .error _) =>
          ({ s.withDatabase d with phase := .rollbackTx rest }, [])
      | (d, .ok _) =>
          ({ s.withDatabase d with hashList := [], phase := .next rest }, [])
  | .rollbackTx rest =>
      ({ s.withDatabase s.database.rollbackTx.1 with phase := .next rest }, [])
  | .returned => (s, [])

end

end Client

namespace Client

section

variable (p : Primitives) (signer : EIP155Signer)
  (hashEvent : ContractEvent → EventHash × List UInt8) (time : Int)
  (answer : Bool)

/-- The change the next call of the loop makes to its own keys: a put that
returns `nil`, or a deletion. -/
def loopChanges (s : Client) : List (Change DbKey DbValue) :=
  let accepted := fun key value =>
    match (s.database.put answer key value).2 with
    | .ok _ => [Change.put key value]
    | .error _ => []
  match s.phase with
  | .putKey event _ =>
      accepted (.eventMarker (hashEvent event).1) (.event (hashEvent event).2)
  | .putFromBlock _ =>
      accepted .fromBlock (.fromBlock s.fromBlock.natAbs)
  | .delete (key :: _) _ => [.delete (.eventMarker key)]
  | _ => []

/-- What one call of the loop can do. -/
inductive Moves (s : Client) : Client → List LoopReport → Prop where
  | gaveUp (blockNum : UInt64) (hashList : List EventHash)
      (unchanged : s.loopChanges hashEvent answer = []) :
      Moves s { s with
        blockNum := blockNum, hashList := hashList, phase := .returned } []
  | fetched (phase : s.phase = .getContractEvents) :
      Moves s { s with
        phase := .next (s.log.filter fun event =>
          s.fromBlock ≤ event.blockNum.toNat) } []
  | exhausted (phase : s.phase = .next []) :
      Moves s { s with phase := .getContractEvents } []
  | skipped (event : ContractEvent) (rest : List ContractEvent)
      (phase : s.phase = .next (event :: rest))
      (stored : s.database.has (.eventMarker (hashEvent event).1) = true) :
      Moves s { s with
        blockNum := event.blockNum
        hashList := s.hashList ++ [(hashEvent event).1]
        phase := .next rest } []
  | found (event : ContractEvent) (rest : List ContractEvent)
      (phase : s.phase = .next (event :: rest))
      (absent : s.database.has (.eventMarker (hashEvent event).1) = false) :
      Moves s { s with
        blockNum := event.blockNum
        hashList := s.hashList ++ [(hashEvent event).1]
        phase := .handle event rest } []
  | called (event : ContractEvent) (rest : List ContractEvent)
      (phase : s.phase = .handle event rest) :
      Moves s { s with
        node := (s.node.sub p signer time answer event).1
        phase := .putKey event rest }
        ((s.node.sub p signer time answer event).2.1.map .node ++
          [.handled event (s.node.sub p signer time answer event).2.2])
  | marked (event : ContractEvent) (rest : List ContractEvent)
      (phase : s.phase = .putKey event rest)
      (more : endsBlock s.blockNum rest = false) :
      Moves s { s.withDatabase (s.database.perform (.put answer
          (.eventMarker (hashEvent event).1) (.event (hashEvent event).2))) with
        phase := .next rest } []
  | ended (event : ContractEvent) (rest : List ContractEvent)
      (phase : s.phase = .putKey event rest)
      (last : endsBlock s.blockNum rest = true) :
      Moves s { s.withDatabase (s.database.perform (.put answer
          (.eventMarker (hashEvent event).1) (.event (hashEvent event).2))) with
        fromBlock := (event.blockNum + 1).toInt64.toInt
        phase := .putFromBlock rest } []
  | numbered (rest : List ContractEvent)
      (phase : s.phase = .putFromBlock rest) :
      Moves s { s.withDatabase (s.database.perform
          (.put answer .fromBlock (.fromBlock s.fromBlock.natAbs))) with
        phase := .beginTx rest } []
  | refused (rest : List ContractEvent) (phase : s.phase = .beginTx rest) :
      Moves s { s with phase := .next rest } []
  | begun (rest : List ContractEvent) (phase : s.phase = .beginTx rest)
      (closed : s.database.inBatch = false) :
      Moves s { s.withDatabase (s.database.perform .beginTx) with
        phase := .delete s.hashList rest } []
  | deleted (key : EventHash) (keys : List EventHash)
      (rest : List ContractEvent)
      (phase : s.phase = .delete (key :: keys) rest) :
      Moves s { s.withDatabase (s.database.perform
          (.delete answer (.eventMarker key))) with
        phase := .delete keys rest } []
  | drained (rest : List ContractEvent) (phase : s.phase = .delete [] rest) :
      Moves s { s with phase := .commitTx rest } []
  | committed (rest : List ContractEvent) (phase : s.phase = .commitTx rest)
      (done : s.database.perform (.commitTx answer) =
        ⟨applyAll s.database.defaultBatch s.database.db, false, []⟩) :
      Moves s { s.withDatabase (s.database.perform (.commitTx answer)) with
        hashList := [], phase := .next rest } []
  | uncommitted (rest : List ContractEvent)
      (phase : s.phase = .commitTx rest) :
      Moves s { s with phase := .rollbackTx rest } []
  | rolledBack (rest : List ContractEvent)
      (phase : s.phase = .rollbackTx rest) :
      Moves s { s.withDatabase (s.database.perform .rollbackTx) with
        phase := .next rest } []

theorem loopEvents_moves (s : Client) :
    s.Moves p signer hashEvent time answer
      (s.loopEvents p signer hashEvent time answer).1
      (s.loopEvents p signer hashEvent time answer).2 := by
  have unchanged : s.withDatabase s.database = s := by
    rw [withDatabase, database, Node.withDatabase_self]
  cases phase : s.phase with
  | getContractEvents =>
      simp only [loopEvents, phase]
      cases answer with
      | false => exact .gaveUp _ _ (by simp only [loopChanges, phase])
      | true => exact .fetched phase
  | next events =>
      cases events with
      | nil =>
          simp only [loopEvents, phase]
          exact .exhausted phase
      | cons event rest =>
          simp only [loopEvents, phase]
          cases answer with
          | false => exact .gaveUp _ _ (by simp only [loopChanges, phase])
          | true =>
              simp only [if_true]
              split
              · rename_i stored
                exact .skipped event rest phase stored
              · rename_i absent
                exact .found event rest phase (Bool.not_eq_true _ ▸ absent)
  | handle event rest =>
      simp only [loopEvents, phase]
      exact .called event rest phase
  | putKey event rest =>
      simp only [loopEvents, phase]
      split
      · rename_i outcome
        rw [LDBDatabase.eq_of_put_error outcome, unchanged]
        exact .gaveUp _ _ (by simp only [loopChanges, phase, outcome])
      · rename_i d _ outcome
        have performed : _ = d := congrArg Prod.fst outcome
        rw [← performed]
        split
        · rename_i last
          exact .ended event rest phase last
        · rename_i more
          exact .marked event rest phase (Bool.not_eq_true _ ▸ more)
  | putFromBlock rest =>
      simp only [loopEvents, phase]
      split
      · rename_i outcome
        rw [LDBDatabase.eq_of_put_error outcome, unchanged]
        exact .gaveUp _ _ (by simp only [loopChanges, phase, outcome])
      · rename_i d _ outcome
        have performed : _ = d := congrArg Prod.fst outcome
        rw [← performed]
        exact .numbered rest phase
  | beginTx rest =>
      simp only [loopEvents, phase]
      split
      · exact .refused rest phase
      · rename_i d outcome
        have performed : _ = d := congrArg Prod.fst outcome
        rw [← performed]
        exact .begun rest phase (LDBDatabase.closed_of_beginTx outcome)
  | delete keys rest =>
      cases keys with
      | nil =>
          simp only [loopEvents, phase]
          exact .drained rest phase
      | cons key keys =>
          simp only [loopEvents, phase]
          exact .deleted key keys rest phase
  | commitTx rest =>
      simp only [loopEvents, phase]
      split
      · rename_i outcome
        rw [LDBDatabase.eq_of_commitTx_error outcome, unchanged]
        exact .uncommitted rest phase
      · rename_i d _ outcome
        have done := LDBDatabase.eq_of_commitTx_ok outcome
        have performed : _ = d := congrArg Prod.fst outcome
        rw [← performed] at done ⊢
        exact .committed rest phase done
  | rollbackTx rest =>
      simp only [loopEvents, phase]
      exact .rolledBack rest phase
  | returned =>
      simp only [loopEvents, phase]
      have same : s = { s with phase := .returned } := by
        rw [← phase]
      rw [same]
      exact .gaveUp _ _ rfl

variable {p signer hashEvent time answer} {s next : Client}
  {reports : List LoopReport}

namespace Moves

theorem log_eq (moves : s.Moves p signer hashEvent time answer next reports) :
    next.log = s.log := by
  cases moves <;> rfl

/-- A handler is called in one place only. -/
theorem handled (moves : s.Moves p signer hashEvent time answer next reports)
    {event : ContractEvent} {result : Except WriteError Unit}
    (called : .handled event result ∈ reports) :
    ∃ rest, s.phase = .handle event rest ∧
      result = (s.node.sub p signer time answer event).2.2 := by
  cases moves with
  | called other rest phase =>
      rcases List.mem_append.mp called with report | last
      · obtain ⟨_, _, impossible⟩ := List.mem_map.mp report
        cases impossible
      · cases List.mem_singleton.mp last
        exact ⟨rest, phase, rfl⟩
  | _ => cases called

end Moves

end

end Client

/-- A step of the process or of the root chain.  `call` is a single database
call of another goroutine. -/
inductive ClientStep where
  | mined (number : UInt64) (values : List EventValue)
  | loop (time : Int) (answer : Bool)
  | sealTxs (time : Int) (disk submits : Bool) (txs : List Transaction)
  | deliver (disk : Bool) (block : Block)
  | call (call : DbCall DbKey DbValue)
  | restart (disk : Bool)

namespace Client

variable (p : Primitives) (signer : EIP155Signer)
  (hashEvent : ContractEvent → EventHash × List UInt8)

/-- A call of the node outside the loop. -/
def nodeStep (input : NodeStep) (s : Client) : Client × List LoopReport :=
  let (node, events) := s.node.step p signer input
  ({ s with node := node }, events.map .node)

/-- The blocks of the root chain have increasing numbers and the events of a
block are different, a stopped process runs no loop and only the loop touches
the markers of events. -/
def step (s : Client) : ClientStep → Client × List LoopReport
  | .mined number values =>
      if (∀ event ∈ s.log, event.blockNum < number) ∧ values.Nodup then
        ({ s with log := s.log ++ values.map (ContractEvent.mk number) }, [])
      else (s, [])
  | .loop time answer =>
      match s.node with
      | .stopped _ _ => (s, [])
      | _ => s.loopEvents p signer hashEvent time answer
  | .sealTxs time disk submits txs =>
      s.nodeStep p signer (.sealTxs time disk submits txs)
  | .deliver disk block => s.nodeStep p signer (.deliver disk block)
  | .call call =>
      match call.key? with
      | some (.eventMarker _) => (s, [])
      | _ => (s.withDatabase (s.database.perform call), [])
  | .restart disk =>
      let (node, events) := s.node.step p signer (.restart disk)
      (launch node s.log, events.map .node)

end Client

namespace Node

variable (p : Primitives) (signer : EIP155Signer) (time : Int) (disk : Bool)

theorem sub_sparesEvents (node : Node) (event : ContractEvent)
    (clean : node.database.Clean) :
    SparesEvents node.database
      (node.sub p signer time disk event).1.database := by
  obtain ⟨blockNum, value⟩ := event
  cases value with
  | blockSubmitted event => exact .inl rfl
  | deposit event =>
      have spares := node.step_sparesEvents p signer
        (.depositEvent time disk event.depositBlock event.depositor event.token
          event.amount) clean
      cases node with
      | operator o => exact spares
      | validator v => exact .inl rfl
      | stopped role d => exact .inl rfl

theorem sub_database_of_busy (node : Node) (event : ContractEvent)
    (busy : node.database.inBatch = true) :
    (node.sub p signer time disk event).1.database = node.database := by
  obtain ⟨blockNum, value⟩ := event
  cases value with
  | blockSubmitted event => rfl
  | deposit event =>
      have same := node.step_database_of_busy p signer
        (.depositEvent time disk event.depositBlock event.depositor event.token
          event.amount) busy rfl
      cases node with
      | operator o => exact same
      | validator v => rfl
      | stopped role d => rfl

theorem sub_role (node : Node) (event : ContractEvent) :
    (node.sub p signer time disk event).1.role = node.role := by
  obtain ⟨blockNum, value⟩ := event
  cases value with
  | blockSubmitted event => rfl
  | deposit event => cases node <;> rfl

/-- When the handler of an operator returns `nil`, and that it has then written
the deposit block. -/
theorem dealWithDepositEvent_cases (o : Operator) (event : DepositEvent)
    (clean : o.chain.db.Clean) :
    ((dealWithDepositEvent p signer time disk (.operator o) event).2.2 =
        .ok () ∧
      (o.chain.db.inBatch = false ∧ disk = true ∧
        (int64 event.depositBlock).tmod 1000 ≠ 0) ∧
      ∃ block, .committed block ∈ (dealWithDepositEvent p signer time disk
          (.operator o) event).2.1 ∧
        block.header.number = event.depositBlock ∧
        block.transactions =
          [Operator.depositTx event.depositor event.amount]) ∨
    ((∃ failure, (dealWithDepositEvent p signer time disk (.operator o)
        event).2.2 = .error failure) ∧
      ¬ (o.chain.db.inBatch = false ∧ disk = true ∧
        (int64 event.depositBlock).tmod 1000 ≠ 0)) := by
  have result : (dealWithDepositEvent p signer time disk (.operator o)
      event).2 = (o.chain.writeWith (Operator.removeInputs disk) p signer disk
        (o.constructDepositBlock p time event.depositBlock
          (Operator.depositTx event.depositor event.amount))).2 := rfl
  rw [result]
  cases busy : o.chain.db.inBatch with
  | true =>
      right
      rw [BlockChain.writeWith_of_busy p signer disk _ busy]
      exact ⟨⟨_, rfl⟩, nofun⟩
  | false =>
      rcases BlockChain.writeWith_cases p
          (Operator.buffersDeletions_removeInputs disk) signer disk o.chain
          (o.constructDepositBlock p time event.depositBlock
            (Operator.depositTx event.depositor event.amount))
          ⟨busy, clean busy⟩ with
        ⟨_, _, failed, refused⟩ | ⟨_, outcome, verdict, taken⟩
      · right
        refine ⟨failed, ?_⟩
        rintro ⟨_, taken, deposit⟩
        refine refused ⟨?_, taken⟩
        have path : (o.constructDepositBlock p time event.depositBlock
            (Operator.depositTx event.depositor
              event.amount)).onDepositPath = true := bne_iff_ne.mpr deposit
        rw [BlockChain.verdict, if_pos path]
      · left
        rw [outcome]
        refine ⟨rfl, ⟨rfl, taken, onDepositPath_of_verdict verdict⟩, _,
          List.mem_cons_of_mem _ List.mem_cons_self, rfl, rfl⟩

end Node

theorem Client.Moves.role_eq {p : Primitives} {signer : EIP155Signer}
    {hashEvent : ContractEvent → EventHash × List UInt8} {time : Int}
    {answer : Bool} {s next : Client} {reports : List LoopReport}
    (moves : s.Moves p signer hashEvent time answer next reports) :
    next.node.role = s.node.role := by
  cases moves <;> first
    | rfl
    | exact Node.role_withDatabase _ _
    | exact Node.sub_role p signer time answer _ _

end Plasma.Core
