import Plasma.Core.Conservation
import Plasma.Core.EventOnce

/-!
# The accounts of a process

The process of an operator seals transactions and handles deposits while the
event loop opens transactions of its own on the shared database handle.  As
long as it is not restarted and takes no block from a peer, its recorded
outputs are worth the deposits whose handler returned `nil` minus the fees of
its child blocks.
-/

namespace Plasma.Core

open Plasma.Lib Plasma.Store

namespace ContractEvent

def deposit? (event : ContractEvent) : Option DepositEvent :=
  match event.value with
  | .deposit event => some event
  | .blockSubmitted _ => none

def depositNumber? (event : ContractEvent) : Option Int :=
  event.deposit?.map DepositEvent.depositBlock

/-- What the event deposits. -/
def amount (event : ContractEvent) : Int :=
  (event.deposit?.map DepositEvent.amount).getD 0

end ContractEvent

def amountTotal (events : List ContractEvent) : Int :=
  (events.map ContractEvent.amount).sum

theorem amountTotal_append (first second : List ContractEvent) :
    amountTotal (first ++ second) =
      amountTotal first + amountTotal second := by
  rw [amountTotal, List.map_append, List.sum_append]
  rfl

def LoopReport.credited? : LoopReport → Option ContractEvent
  | .handled event (.ok _) => some event
  | _ => none

/-- The events whose handler returned `nil`. -/
def credited (history : List LoopReport) : List ContractEvent :=
  history.filterMap LoopReport.credited?

/-- The fees of a child block. -/
def Block.fees (block : Block) : Int :=
  if block.onDepositPath then 0
  else (block.transactions.map Transaction.fee).sum

def LoopReport.fees : LoopReport → Int
  | .node (.committed block) => block.fees
  | _ => 0

/-- The fees of the child blocks of a history. -/
def feesTaken (history : List LoopReport) : Int :=
  (history.map LoopReport.fees).sum

theorem feesTaken_append (first second : List LoopReport) :
    feesTaken (first ++ second) = feesTaken first + feesTaken second := by
  rw [feesTaken, List.map_append, List.sum_append]
  rfl

theorem feesTaken_node (events : List NodeEvent) :
    feesTaken (events.map .node) =
      ((committedBlocks events).map Block.fees).sum := by
  induction events with
  | nil => rfl
  | cons event events induction =>
      cases event <;>
        simp_all [feesTaken, committedBlocks, LoopReport.fees]

theorem depositTotal_children (before : UtxoSet) (blocks : List Block) :
    depositTotal (blocks.map (.child before)) = 0 := by
  induction blocks with
  | nil => rfl
  | cons block blocks induction => exact induction

theorem credited_node (events : List NodeEvent) :
    credited (events.map .node) = [] := by
  apply List.filterMap_eq_nil_iff.mpr
  intro report member
  obtain ⟨event, _, rfl⟩ := List.mem_map.mp member
  rfl

theorem credited_append (first second : List LoopReport) :
    credited (first ++ second) = credited first ++ credited second :=
  List.filterMap_append

/-- Every credited event is one of the called ones. -/
theorem credited_sublist (history : List LoopReport) :
    (credited history).Sublist (calls history) := by
  induction history with
  | nil => exact List.Sublist.refl _
  | cons report history induction =>
      rcases report with ⟨event, result⟩ | event
      · rcases result with failure | done
        · exact induction.cons event
        · exact induction.cons_cons event
      · exact induction

/-!
## The operator and the shared handle
-/

/-- The operator once the transaction of the event loop is gone. -/
def Operator.closed (o : Operator) : Operator :=
  { o with chain := { o.chain with db := ⟨o.chain.db.db, false, []⟩ } }

/-- What every state of the process keeps: only the event loop leaves
transactions open, and without them the operator is in a state of a run. -/
structure SharedState (past : List OperatorStep) (o : Operator) : Prop where
  clean : o.chain.db.Clean
  buffers : o.chain.db.Buffers fun key => Node.isEventKey key = true
  run : RunState past o.closed

namespace SharedState

variable {p : Primitives} {signer : EIP155Signer} {past : List OperatorStep}
  {o next : Operator} {step : OperatorStep}

theorem of_run (run : RunState past o) : SharedState past o := by
  have same : o.closed = o := by
    rw [Operator.closed, ← run.idle.eq_mk]
  exact ⟨run.idle.clean, run.idle.buffers _, same.symm ▸ run⟩

theorem runState (state : SharedState past o)
    (closed : o.chain.db.inBatch = false) : RunState past o := by
  have idle : o.chain.db.Idle := ⟨closed, state.clean closed⟩
  have same : o.closed = o := by
    rw [Operator.closed, ← idle.eq_mk]
  exact same ▸ state.run

/-- A database call of the event loop. -/
theorem call (state : SharedState past o) {call : DbCall DbKey DbValue}
    (own : ∀ change, call.change? = some change →
      Node.isEventKey change.key = true) :
    SharedState past
        { o with chain := { o.chain with db := o.chain.db.perform call } } ∧
      Rawdb.utxos (o.chain.db.perform call).db = o.chain.utxoSet := by
  obtain ⟨buffers, contents⟩ := state.buffers.perform own
  have outputs : Rawdb.utxos (o.chain.db.perform call).db =
      o.chain.utxoSet := by
    funext id
    have same := contents (.utxo id) Bool.false_ne_true
    simp only [Rawdb.utxos, same]
    rfl
  refine ⟨⟨state.clean.perform call, buffers, ⟨rfl, rfl⟩, state.run.counter,
    ?_⟩, outputs⟩
  intro id held
  apply state.run.used id
  intro absent
  apply held
  exact (congrFun outputs id).trans absent

/-- Neither call of the operator does anything while a transaction is open;
`Seal` counts all the same. -/
theorem perform_of_busy (p : Primitives) (signer : EIP155Signer)
    (step : OperatorStep) (busy : o.chain.db.inBatch = true) :
    (o.perform p signer step).1.chain = o.chain ∧
      (o.perform p signer step).1.currentChildBlock =
        o.currentChildBlock + step.advance ∧
      (o.perform p signer step).2 = [] := by
  cases step with
  | sealTxs time disk submits txs =>
      have refused : o.sealWrite p signer time disk txs =
          (o.chain, [], .error .databaseRace) :=
        BlockChain.writeWith_of_busy p signer disk _ busy
      have failed : (o.sealWrite p signer time disk txs).2.2 =
          .error .databaseRace := by
        rw [refused]
      rw [Operator.perform, Operator.sealTxs_of_error p signer o time disk
        submits txs failed, refused]
      exact ⟨rfl, rfl, rfl⟩
  | depositEvent time disk number depositor token amount =>
      have refused : o.handleDepositEvent p signer time disk number depositor
          token amount = (o, [], .error .databaseRace) := by
        rw [Operator.handleDepositEvent, Operator.sealDeposit,
          Operator.writeBlock, BlockChain.writeWith_of_busy p signer disk _
            busy]
      rw [Operator.perform, refused]
      exact ⟨rfl, (UInt64.add_zero _).symm, rfl⟩

/-- A call of the operator. -/
theorem perform (state : SharedState past o)
    (admissible : Admissible (past ++ [step])) :
    SharedState (past ++ [step]) (o.perform p signer step).1 := by
  cases busy : o.chain.db.inBatch with
  | false => exact of_run ((state.runState busy).perform admissible)
  | true =>
      obtain ⟨chain, counter, _⟩ := perform_of_busy p signer step busy
      have after : RunState (past ++ [step])
          (o.closed.perform p signer step).1 := state.run.perform admissible
      have counted := after.counter
      obtain ⟨_, advanced, _⟩ := o.closed.perform_cases p signer step
        state.run.idle
      rw [advanced] at counted
      refine ⟨?_, ?_, ⟨rfl, rfl⟩, ?_, ?_⟩
      · rw [chain]
        exact state.clean
      · rw [chain]
        exact state.buffers
      · rw [← counted]
        exact congrArg UInt64.toNat counter
      · intro id held
        apply UsedNumber.append
        apply state.run.used id
        rw [Operator.closed, chain] at held
        exact held

/-- A call of the operator records nothing, or it moves the value of the
outputs by what it records. -/
theorem value_perform (p : Primitives) (signer : EIP155Signer)
    (state : SharedState past o) (admissible : Admissible (past ++ [step])) :
    ((o.perform p signer step).1.chain.utxoSet.value : Int) =
        o.chain.utxoSet.value + depositTotal (o.perform p signer step).2 -
          feeTotal (o.perform p signer step).2 ∧
      ((o.perform p signer step).2 = [] ∨
        (o.perform p signer step).2 = [step.written p o] ∧
          o.chain.verdict p signer (step.block p o) = .ok () ∧
          RunState past o) := by
  cases busy : o.chain.db.inBatch with
  | true =>
      obtain ⟨chain, _, nothing⟩ := perform_of_busy p signer step busy
      rw [chain, nothing]
      exact ⟨by simp [depositTotal, feeTotal], .inl rfl⟩
  | false =>
      have run := state.runState busy
      obtain ⟨_, _, outcome⟩ := o.perform_cases p signer step run.idle
      rcases outcome with ⟨same, nothing⟩ | ⟨changed, entry, verdict⟩
      · rw [same, nothing]
        exact ⟨by simp [depositTotal, feeTotal], .inl rfl⟩
      · rw [changed, entry]
        exact ⟨value_of_verdict run admissible verdict,
          .inr ⟨rfl, verdict, run⟩⟩

end SharedState

/-!
## Steps of the process
-/

/-- A step of a process that is not restarted and takes no block from a
peer. -/
def ClientStep.Undisturbed : ClientStep → Prop
  | .mined number _ => number.toNat + 1 < 2 ^ 63
  | .loop _ _ => True
  | .sealTxs _ _ _ txs => txs.length < 2 ^ 32
  | .deliver _ _ => False
  | .call _ => False
  | .restart _ => False

instance : DecidablePred ClientStep.Undisturbed
  | .mined number _ => inferInstanceAs (Decidable (number.toNat + 1 < 2 ^ 63))
  | .loop _ _ => isTrue trivial
  | .sealTxs _ _ _ txs => inferInstanceAs (Decidable (txs.length < 2 ^ 32))
  | .deliver _ _ => isFalse id
  | .call _ => isFalse id
  | .restart _ => isFalse id

/-- The deposits of a log have numbers between those of child blocks that
differ as 64-bit numbers. -/
structure DepositsApart (log : List ContractEvent) : Prop where
  bounded : ∀ event ∈ log, ∀ deposit ∈ event.deposit?,
    1 ≤ deposit.depositBlock ∧ ¬ (1000 ∣ deposit.depositBlock) ∧
      0 ≤ deposit.amount
  apart : ∀ first ∈ log, ∀ second ∈ log, ∀ number ∈ first.depositNumber?,
    ∀ other ∈ second.depositNumber?, uint64 number = uint64 other →
      first = second

theorem DepositsApart.of_subset {log later : List ContractEvent}
    (apart : DepositsApart later) (subset : log ⊆ later) :
    DepositsApart log := by
  refine ⟨fun event member => apart.bounded event (subset member), ?_⟩
  intro first firstLogged second secondLogged
  exact apart.apart first (subset firstLogged) second (subset secondLogged)

theorem DepositsApart.numbers_nodup {log called : List ContractEvent}
    (apart : DepositsApart log) (once : called.Nodup) (logged : called ⊆ log) :
    ((called.filterMap ContractEvent.depositNumber?).map uint64).Nodup := by
  apply List.pairwise_map.mpr
  apply List.pairwise_filterMap.mpr
  refine once.imp_of_mem ?_
  intro first second firstCalled secondCalled different number numbered other
    otherNumbered same
  apply different
  exact apart.apart first (logged firstCalled) second (logged secondCalled)
    number numbered other otherNumbered same

/-- The handler of a deposit fails and writes nothing, or it returns `nil` and
has written the deposit block. -/
theorem handleDepositEvent_cases (p : Primitives) (signer : EIP155Signer)
    (time : Int) (disk : Bool) (o : Operator) (event : DepositEvent)
    (clean : o.chain.db.Clean) :
    (committedBlocks (o.handleDepositEvent p signer time disk
        event.depositBlock event.depositor event.token event.amount).2.1 = [] ∧
      ∃ failure, (o.handleDepositEvent p signer time disk event.depositBlock
        event.depositor event.token event.amount).2.2 = .error failure) ∨
    ∃ block : Block, committedBlocks (o.handleDepositEvent p signer time disk
        event.depositBlock event.depositor event.token event.amount).2.1 =
          [block] ∧
      block.onDepositPath = true ∧
      (o.handleDepositEvent p signer time disk event.depositBlock
        event.depositor event.token event.amount).2.2 = .ok () := by
  have result : (o.handleDepositEvent p signer time disk event.depositBlock
      event.depositor event.token event.amount).2 =
      (o.chain.writeWith (Operator.removeInputs disk) p signer disk
        (o.constructDepositBlock p time event.depositBlock
          (Operator.depositTx event.depositor event.amount))).2 := rfl
  rw [result]
  cases busy : o.chain.db.inBatch with
  | true =>
      left
      rw [BlockChain.writeWith_of_busy p signer disk _ busy]
      exact ⟨rfl, _, rfl⟩
  | false =>
      rcases BlockChain.writeWith_cases p
          (Operator.buffersDeletions_removeInputs disk) signer disk o.chain
          (o.constructDepositBlock p time event.depositBlock
            (Operator.depositTx event.depositor event.amount))
          ⟨busy, clean busy⟩ with
        ⟨_, silent, failed, _⟩ | ⟨_, outcome, verdict, _⟩
      · exact .inl ⟨silent, failed⟩
      · right
        rw [outcome]
        exact ⟨_, rfl, bne_iff_ne.mpr (onDepositPath_of_verdict verdict), rfl⟩

namespace Client

/-- The accounts after the calls of `past` of the operator. -/
structure Books (past : List OperatorStep) (history : List LoopReport)
    (s : Client) : Prop where
  numbers : depositNumbers past =
    (calls history).filterMap ContractEvent.depositNumber?
  bounded : ∀ step ∈ past, step.Bounded
  running : ∃ o, s.node = .operator o ∧ SharedState past o ∧
    (o.chain.utxoSet.value : Int) + feesTaken history =
      amountTotal (credited history)

namespace Books

variable {p : Primitives} {signer : EIP155Signer}
  {hashEvent : ContractEvent → EventHash × List UInt8}
  {past : List OperatorStep} {history reports : List LoopReport}
  {s next : Client} {o : Operator} {made : OperatorStep}

theorem admissible (books : Books past history s)
    (short : past.length + 1 < 2 ^ 50) (bounded : made.Bounded)
    (distinct : (((calls history).filterMap ContractEvent.depositNumber? ++
      made.depositNumber?.toList).map uint64).Nodup) :
    Admissible (past ++ [made]) := by
  refine ⟨?_, ?_, ?_⟩
  · rw [List.length_append]
    exact short
  · intro other member
    rcases List.mem_append.mp member with earlier | last
    · exact books.bounded other earlier
    · rw [List.mem_singleton.mp last]
      exact bounded
  · have numbers := books.numbers
    rw [depositNumbers] at numbers
    rw [depositNumbers, List.filterMap_append, numbers]
    cases given : made.depositNumber? <;> simpa [given] using distinct

/-- A step that leaves the node alone and reports no deposit. -/
theorem kept (books : Books past history s) (node : next.node = s.node)
    (called : (calls reports).filterMap ContractEvent.depositNumber? = [])
    (fees : feesTaken reports = 0)
    (credits : amountTotal (credited reports) = 0) :
    Books past (history ++ reports) next := by
  refine ⟨?_, books.bounded, ?_⟩
  · rw [calls_append, List.filterMap_append, called, List.append_nil]
    exact books.numbers
  · obtain ⟨o, running, state, balance⟩ := books.running
    refine ⟨o, node.trans running, state, ?_⟩
    rw [feesTaken_append, credited_append, amountTotal_append, fees, credits]
    omega

/-- A database call of the event loop. -/
theorem call (books : Books past history s) {call : DbCall DbKey DbValue}
    (own : ∀ change, call.change? = some change →
      Node.isEventKey change.key = true)
    (node : next.node = s.node.withDatabase (s.database.perform call)) :
    Books past (history ++ []) next := by
  rw [List.append_nil]
  obtain ⟨o, running, state, balance⟩ := books.running
  obtain ⟨kept, outputs⟩ := state.call own
  refine ⟨books.numbers, books.bounded, _, ?_, kept, ?_⟩
  · rw [node, database, running]
    rfl
  · rw [← balance, BlockChain.utxoSet, outputs]

/-- A call of the operator. -/
theorem operation (books : Books past history s)
    (node : s.node = .operator o) (admissible : Admissible (past ++ [made]))
    (after : next.node = .operator (o.perform p signer made).1)
    (called : (calls reports).filterMap ContractEvent.depositNumber? =
      made.depositNumber?.toList)
    (fees : feesTaken reports = feeTotal (o.perform p signer made).2)
    (credits : amountTotal (credited reports) =
      depositTotal (o.perform p signer made).2) :
    Books (past ++ [made]) (history ++ reports) next := by
  obtain ⟨other, running, state, balance⟩ := books.running
  rw [node] at running
  cases running
  obtain ⟨moved, _⟩ := state.value_perform p signer admissible
  refine ⟨?_, admissible.bounded, _, after, state.perform admissible, ?_⟩
  · have numbers := books.numbers
    rw [depositNumbers] at numbers
    rw [calls_append, List.filterMap_append, called, depositNumbers,
      List.filterMap_append, numbers]
    cases given : made.depositNumber? <;> simp [given]
  · rw [feesTaken_append, credited_append, amountTotal_append, fees, credits]
    omega

theorem sealed (books : Books past history s) (once : (calls history).Nodup)
    (logged : calls history ⊆ s.log) (apart : DepositsApart s.log)
    (short : past.length + 1 < 2 ^ 50) (time : Int) (disk submits : Bool)
    {txs : List Transaction} (few : txs.length < 2 ^ 32) :
    Books (past ++ [.sealTxs time disk submits txs])
      (history ++ (s.nodeStep p signer (.sealTxs time disk submits txs)).2)
      (s.nodeStep p signer (.sealTxs time disk submits txs)).1 := by
  obtain ⟨o, node, state, _⟩ := books.running
  have admissible : Admissible
      (past ++ [.sealTxs time disk submits txs]) := by
    have bounded : (OperatorStep.sealTxs time disk submits txs).Bounded := few
    apply books.admissible short bounded
    simpa [OperatorStep.depositNumber?] using
      apart.numbers_nodup once logged
  have blocks : (o.perform p signer (.sealTxs time disk submits txs)).2 =
      (committedBlocks (o.sealTxs p signer time disk submits txs).2.1).map
        (.child o.chain.utxoSet) := rfl
  have reports : (s.nodeStep p signer (.sealTxs time disk submits txs)).2 =
      (o.sealTxs p signer time disk submits txs).2.1.map .node := by
    rw [nodeStep, node]
    rfl
  have after : (s.nodeStep p signer (.sealTxs time disk submits txs)).1.node =
      .operator (o.perform p signer (.sealTxs time disk submits txs)).1 := by
    rw [nodeStep, node]
    rfl
  obtain ⟨_, outcome⟩ := state.value_perform p signer admissible
  rw [reports]
  apply books.operation node admissible after
  · rw [calls_node]
    rfl
  · rw [feesTaken_node, blocks]
    rw [blocks] at outcome
    rcases outcome with nothing | ⟨entry, _, run⟩
    · rw [List.map_eq_nil_iff.mp nothing]
      rfl
    · obtain ⟨block, committed, same⟩ := List.map_eq_singleton_iff.mp entry
      injection same with _ same
      have path : ((OperatorStep.sealTxs time disk submits txs).block p
          o).onDepositPath = false :=
        sealed_onDepositPath time txs run admissible
      rw [committed, same, List.map_singleton, List.sum_singleton, Block.fees,
        if_neg (Bool.eq_false_iff.mp path)]
      exact (add_zero _).symm
  · rw [credited_node, blocks, depositTotal_children]
    rfl

/-- The handler of a deposit is called. -/
theorem deposited (books : Books past history s) (node : s.node = .operator o)
    (state : SharedState past o) (time : Int) (answer : Bool)
    {blockNum : UInt64} {event : DepositEvent}
    (admissible : Admissible (past ++ [.depositEvent time answer
      event.depositBlock event.depositor event.token event.amount]))
    (after : next.node = .operator (o.handleDepositEvent p signer time answer
      event.depositBlock event.depositor event.token event.amount).1) :
    Books (past ++ [.depositEvent time answer event.depositBlock
        event.depositor event.token event.amount])
      (history ++ ((o.handleDepositEvent p signer time answer
          event.depositBlock event.depositor event.token
          event.amount).2.1.map .node ++
        [.handled ⟨blockNum, .deposit event⟩ (o.handleDepositEvent p signer
          time answer event.depositBlock event.depositor event.token
          event.amount).2.2])) next := by
  have blocks : (o.perform p signer (.depositEvent time answer
      event.depositBlock event.depositor event.token event.amount)).2 =
        (committedBlocks (o.handleDepositEvent p signer time answer
          event.depositBlock event.depositor event.token
          event.amount).2.1).map fun _ =>
            .deposit event.depositBlock event.depositor event.amount := rfl
  apply books.operation node admissible after
  · rw [calls_append, calls_node]
    rfl
  · rw [feesTaken_append, feesTaken_node, blocks]
    rcases handleDepositEvent_cases p signer time answer o event
        state.clean with ⟨nothing, _⟩ | ⟨block, committed, path, _⟩
    · rw [nothing]
      rfl
    · rw [committed, List.map_singleton, List.sum_singleton, Block.fees,
        if_pos path]
      rfl
  · rw [credited_append, credited_node, blocks]
    rcases handleDepositEvent_cases p signer time answer o event
        state.clean with
      ⟨nothing, failure, failed⟩ | ⟨block, committed, _, returned⟩
    · rw [nothing, failed]
      rfl
    · rw [committed, returned]
      rfl

/-- The handler of an event is called. -/
theorem called (books : Books past history s) {event : ContractEvent}
    (once : (calls history ++ [event]).Nodup)
    (logged : calls history ++ [event] ⊆ s.log) (apart : DepositsApart s.log)
    (short : past.length + 1 < 2 ^ 50) (time : Int) (answer : Bool)
    (after : next.node = (s.node.sub p signer time answer event).1) :
    ∃ later, later.length ≤ past.length + 1 ∧
      Books later (history ++
        ((s.node.sub p signer time answer event).2.1.map .node ++
          [.handled event (s.node.sub p signer time answer event).2.2]))
        next := by
  have current : event ∈ s.log := logged (by simp)
  obtain ⟨blockNum, value⟩ := event
  cases value with
  | blockSubmitted event =>
      exact ⟨past, Nat.le_succ _, books.kept after rfl rfl rfl⟩
  | deposit event =>
      obtain ⟨o, node, state, _⟩ := books.running
      rw [node] at after ⊢
      have bounded : (OperatorStep.depositEvent time answer event.depositBlock
          event.depositor event.token event.amount).Bounded :=
        apart.bounded _ current event rfl
      have admissible := books.admissible short bounded (by
        have numbers := apart.numbers_nodup once logged
        rw [List.filterMap_append] at numbers
        exact numbers)
      exact ⟨_, by rw [List.length_append]; rfl,
        books.deposited node state time answer admissible after⟩

/-- A call of the event loop. -/
theorem loop (books : Books past history s)
    (once : (calls (history ++ reports)).Nodup)
    (logged : calls (history ++ reports) ⊆ s.log)
    (apart : DepositsApart s.log) (short : past.length + 1 < 2 ^ 50)
    {time : Int} {answer : Bool}
    (moves : s.Moves p signer hashEvent time answer next reports) :
    ∃ later, later.length ≤ past.length + 1 ∧
      Books later (history ++ reports) next := by
  have kept : ∀ {same : Client}, same.node = s.node →
      ∃ later, later.length ≤ past.length + 1 ∧
        Books later (history ++ []) same := by
    intro same node
    exact ⟨past, Nat.le_succ _, books.kept node rfl rfl rfl⟩
  have stored : ∀ {same : Client} (call : DbCall DbKey DbValue),
      (∀ change, call.change? = some change →
        Node.isEventKey change.key = true) →
      same.node = s.node.withDatabase (s.database.perform call) →
        ∃ later, later.length ≤ past.length + 1 ∧
          Books later (history ++ []) same := by
    intro same call own node
    exact ⟨past, Nat.le_succ _, books.call own node⟩
  cases moves with
  | called event rest phase =>
      rw [calls_append, calls_append, calls_node] at once logged
      exact books.called once logged apart short time answer rfl
  | marked event rest phase more =>
      refine stored (.put answer _ _) ?_ rfl
      rintro change ⟨⟩
      rfl
  | ended event rest phase last =>
      refine stored (.put answer _ _) ?_ rfl
      rintro change ⟨⟩
      rfl
  | numbered rest phase =>
      refine stored (.put answer _ _) ?_ rfl
      rintro change ⟨⟩
      rfl
  | deleted key keys rest phase =>
      refine stored (.delete answer _) ?_ rfl
      rintro change ⟨⟩
      rfl
  | begun rest phase closed =>
      refine stored .beginTx ?_ rfl
      rintro change ⟨⟩
  | committed rest phase done =>
      refine stored (.commitTx answer) ?_ rfl
      rintro change ⟨⟩
  | rolledBack rest phase =>
      refine stored .rollbackTx ?_ rfl
      rintro change ⟨⟩
  | _ => exact kept rfl

/-- Every step of an undisturbed process keeps the accounts. -/
theorem step (books : Books past history s) {input : ClientStep}
    (undisturbed : input.Undisturbed)
    (once : Once hashEvent
      (calls (history ++ (s.step p signer hashEvent input).2))
      (s.step p signer hashEvent input).1)
    (apart : DepositsApart (s.step p signer hashEvent input).1.log)
    (short : past.length + 1 < 2 ^ 50) :
    ∃ later, later.length ≤ past.length + 1 ∧
      Books later (history ++ (s.step p signer hashEvent input).2)
        (s.step p signer hashEvent input).1 := by
  cases input with
  | mined number values =>
      refine ⟨past, Nat.le_succ _, ?_⟩
      simp only [Client.step]
      split
      · exact books.kept rfl rfl rfl rfl
      · exact books.kept rfl rfl rfl rfl
  | loop time answer =>
      obtain ⟨o, node, _⟩ := books.running
      have running : s.step p signer hashEvent (.loop time answer) =
          s.loopEvents p signer hashEvent time answer := by
        simp only [Client.step, node]
      rw [running] at once apart ⊢
      have moves := loopEvents_moves p signer hashEvent time answer s
      have logged := once.logged
      rw [moves.log_eq] at logged apart
      exact books.loop once.once logged apart short moves
  | sealTxs time disk submits txs =>
      have silent : calls (history ++ (s.step p signer hashEvent
          (.sealTxs time disk submits txs)).2) = calls history := by
        rw [calls_append]
        exact (congrArg _ (calls_node _)).trans (List.append_nil _)
      have called := once.once
      have logged := once.logged
      rw [silent] at called logged
      refine ⟨past ++ [.sealTxs time disk submits txs],
        by rw [List.length_append]; rfl, ?_⟩
      exact books.sealed called logged apart short time disk submits
        undisturbed
  | deliver disk block => exact undisturbed.elim
  | call call => exact undisturbed.elim
  | restart disk => exact undisturbed.elim

end Books

section Run

variable {p : Primitives} {signer : EIP155Signer}
  {hashEvent : ContractEvent → EventHash × List UInt8} {addr : Address}
  {start : Operator} {s : Client} {history : List LoopReport}

theorem books_started
    (launched : startOperator p true addr Database.empty = .ok start) :
    Books [] [] (started p true (.operator addr)) := by
  have genesis := eq_genesisOperator p addr launched
  have node : (started p true (.operator addr)).node = .operator start := by
    simp only [started, launch, Node.start, launched]
  refine ⟨rfl, ?_, start, node, ?_, ?_⟩
  · intro step member
    cases member
  · rw [genesis]
    exact .of_run (runState_genesis p addr)
  · have empty : start.chain.utxoSet = fun _ => none := by
      rw [genesis]
      exact funext (genesisOperator_utxoSet p addr)
    rw [empty]
    simp [UtxoSet.value, feesTaken, amountTotal, credited]

/-- Every run of an undisturbed process keeps the accounts. -/
theorem books_run
    (launched : startOperator p true addr Database.empty = .ok start)
    {steps : List ClientStep}
    (reached : (s, history) = execute (step p signer hashEvent)
      (started p true (.operator addr)) steps)
    (undisturbed : ∀ input ∈ steps, input.Undisturbed)
    (short : steps.length < 2 ^ 50) (distinct : Distinct hashEvent s.log)
    (apart : DepositsApart s.log) :
    Once hashEvent (calls history) s ∧ ∃ past, Books past history s := by
  have run := execute_invariant (step p signer hashEvent)
    (fun inputs s history => (∀ input ∈ inputs, input.Undisturbed) →
      inputs.length < 2 ^ 50 → Distinct hashEvent s.log →
        DepositsApart s.log → Once hashEvent (calls history) s ∧
          ∃ past, past.length ≤ inputs.length ∧ Books past history s)
    (by
      intro inputs s history input holds undisturbed short distinct apart
      have grows : s.log ⊆ (s.step p signer hashEvent input).1.log :=
        log_subset input
      have before := distinct.of_subset grows
      have current := undisturbed input (by simp)
      rw [List.length_append, List.length_singleton] at short
      obtain ⟨once, past, few, books⟩ := holds
        (fun other member => undisturbed other (by simp [member])) (by omega)
        before (apart.of_subset grows)
      have recovers : Recovers hashEvent s history input := by
        cases input with
        | mined number values => exact current
        | restart disk => exact current.elim
        | _ => trivial
      have after : Once hashEvent
          (calls (history ++ (s.step p signer hashEvent input).2))
          (s.step p signer hashEvent input).1 := once.step before recovers
      obtain ⟨later, length, kept⟩ := books.step current after apart (by omega)
      refine ⟨after, later, ?_, kept⟩
      rw [List.length_append, List.length_singleton]
      omega)
    (fun _ _ _ _ => ⟨once_started true _, [], le_refl _,
      books_started launched⟩) steps
  rw [← reached] at run
  obtain ⟨once, past, _, books⟩ := run undisturbed short distinct apart
  exact ⟨once, past, books⟩

/-- The outputs of an undisturbed process are worth the credited deposits
minus the fees. -/
theorem value_eq_credited
    (launched : startOperator p true addr Database.empty = .ok start)
    {steps : List ClientStep}
    (reached : (s, history) = execute (step p signer hashEvent)
      (started p true (.operator addr)) steps)
    (undisturbed : ∀ input ∈ steps, input.Undisturbed)
    (short : steps.length < 2 ^ 50) (distinct : Distinct hashEvent s.log)
    (apart : DepositsApart s.log) :
    (s.node.utxoSet.value : Int) + feesTaken history =
        amountTotal (credited history) ∧
      (credited history).Nodup ∧ credited history ⊆ s.log := by
  obtain ⟨once, past, books⟩ := books_run launched reached undisturbed short
    distinct apart
  obtain ⟨o, node, _, balance⟩ := books.running
  have sublist := credited_sublist history
  refine ⟨?_, sublist.nodup once.once,
    List.Subset.trans sublist.subset once.logged⟩
  rw [node]
  exact balance

end Run

end Client

end Plasma.Core
