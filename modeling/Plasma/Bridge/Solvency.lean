import Plasma.Bridge.ChildNumbers
import Plasma.Contract.Deposits
import Plasma.Core.Accounts

/-!
# Solvency

A deployment is the contract on the root chain and the process of the operator
with its event loop.  The root chain mines blocks of arbitrary transactions and
logs the events of the contract; the process seals, asks for the log and
handles it in between.  What was ever paid into the contract is what the child
chain accounts for: it is recorded in outputs, was taken as a fee, or belongs
to a deposit that is not credited.
-/

namespace Plasma.Bridge

open Plasma.Core Plasma.Contract Plasma.Lib Plasma.Store

/-!
## The events of the contract
-/

/-- The events of a call that the loop asks for. -/
def emitted (c : Crypto) (s : RootChain) (m : Message) : List EventValue :=
  match m.call with
  | .deposit => (RootChain.depositEvents c s m).map fun event =>
      .deposit ⟨event.depositor, event.depositBlock.toNat, 0,
        event.amount.toNat⟩
  | .submitBlock root => (registrations (RootChain.step c s m).2).map
      fun entry => .blockSubmitted ⟨root, s.currentDepositBlock.toNat,
        entry.1.toNat, m.timestamp.toNat⟩
  | _ => []

def emittedLog (c : Crypto) : RootChain → List Message → List EventValue
  | _, [] => []
  | s, m :: messages =>
      emitted c s m ++ emittedLog c (RootChain.step c s m).1 messages

/-- The number of the block an event is about. -/
def eventNumber : EventValue → Int
  | .deposit event => event.depositBlock
  | .blockSubmitted event => event.submittedBlockNum

def eventAmount : EventValue → Int
  | .deposit event => event.amount
  | .blockSubmitted _ => 0

section Events

variable {c : Crypto}

theorem emittedLog_append (s : RootChain) (messages later : List Message) :
    emittedLog c s (messages ++ later) = emittedLog c s messages ++
      emittedLog c (execute (RootChain.step c) s messages).1 later := by
  induction messages generalizing s with
  | nil => rfl
  | cons m messages induction =>
      rw [List.cons_append, emittedLog, emittedLog, induction,
        List.append_assoc]
      rfl

/-- The events carry the registered numbers. -/
theorem eventNumber_emitted (s : RootChain) (m : Message) :
    (emitted c s m).map eventNumber =
      (registrations (RootChain.step c s m).2).map
        fun entry => (entry.1.toNat : Int) := by
  rcases RootChain.step_registers c s m with
    ⟨silent, _⟩ | ⟨root, call, _, one, _⟩ | ⟨number, entry, call, _, _, one, _⟩
  · rw [silent]
    unfold emitted
    split
    · rename_i call
      simp only [RootChain.depositEvents, call, silent]
      rfl
    · rw [silent]
      rfl
    · rfl
  · simp only [emitted, call, one]
    rfl
  · simp only [emitted, RootChain.depositEvents, call, one]
    rfl

theorem eventNumber_emittedLog (s : RootChain) (messages : List Message) :
    (emittedLog c s messages).map eventNumber =
      (registrations (execute (RootChain.step c) s messages).2).map
        fun entry => (entry.1.toNat : Int) := by
  induction messages generalizing s with
  | nil => rfl
  | cons m messages induction =>
      rw [emittedLog, List.map_append, eventNumber_emitted, induction,
        execute_cons, registrations_append, List.map_append]

theorem eventAmount_emitted (s : RootChain) (m : Message) :
    ((emitted c s m).map eventAmount).sum =
      (((RootChain.depositEvents c s m).map fun event =>
        event.amount.toNat).sum : Nat) := by
  cases call : m.call with
  | deposit =>
      simp only [emitted, call, List.map_map]
      generalize RootChain.depositEvents c s m = events
      induction events with
      | nil => rfl
      | cons event events induction =>
          rw [List.map_cons, List.map_cons, List.sum_cons, List.sum_cons,
            induction, Nat.cast_add]
          rfl
  | submitBlock root =>
      simp only [emitted, RootChain.depositEvents, call, List.map_map]
      generalize registrations (RootChain.step c s m).2 = entries
      induction entries with
      | nil => rfl
      | cons entry entries induction =>
          rw [List.map_cons, List.sum_cons, induction]
          rfl
  | _ =>
      simp only [emitted, RootChain.depositEvents, call]
      rfl

theorem eventAmount_emittedLog (s : RootChain) (messages : List Message) :
    ((emittedLog c s messages).map eventAmount).sum =
      (((RootChain.depositLog c s messages).map fun event =>
        event.amount.toNat).sum : Nat) := by
  induction messages generalizing s with
  | nil => rfl
  | cons m messages induction =>
      rw [emittedLog, RootChain.depositLog, List.map_append, List.map_append,
        List.sum_append, List.sum_append, eventAmount_emitted, induction,
        Nat.cast_add]

/-- The number of a deposit lies between those of child blocks. -/
theorem deposit_of_emittedLog {past : List Effect} {s : RootChain}
    (numbered : RootChain.Numbered c past s) {messages : List Message}
    {event : DepositEvent}
    (member : .deposit event ∈ emittedLog c s messages) :
    1 ≤ event.depositBlock ∧ ¬ (1000 ∣ event.depositBlock) ∧
      0 ≤ event.amount := by
  induction messages generalizing past s with
  | nil => cases member
  | cons m messages induction =>
      rcases List.mem_append.mp member with first | later
      · cases call : m.call with
        | deposit =>
            simp only [emitted, call] at first
            obtain ⟨d, logged, same⟩ := List.mem_map.mp first
            cases same
            rcases RootChain.depositEvents_cases c s m with
              ⟨none, _⟩ | ⟨other, one, _, _, given, room⟩
            · rw [none] at logged
              cases logged
            · rw [one] at logged
              cases List.mem_singleton.mp logged
              have place := RootChain.getDepositBlock_toNat given
              obtain ⟨k, positive, interval⟩ := numbered.interval
              have low := numbered.room
              dsimp only
              omega
        | submitBlock root =>
            simp only [emitted, call] at first
            obtain ⟨entry, _, impossible⟩ := List.mem_map.mp first
            cases impossible
        | _ =>
            simp only [emitted, call] at first
            cases first
      · exact induction (numbered.step m) later

end Events

/-!
## The deployment
-/

/-- The process of the operator and the transactions of the root chain that
call the contract. -/
structure Deployment where
  client : Client
  transactions : List Message

/-- The root chain mines a block, the event loop makes its next call, or the
operator seals. -/
inductive DeploymentStep where
  | mined (number : UInt64) (messages : List Message)
  | loop (time : Int) (answer : Bool)
  | sealTxs (time : Int) (disk submits : Bool) (txs : List Transaction)

namespace DeploymentStep

/-- Block numbers have a successor in an `int64`, and a block has fewer than
2^32 transactions. -/
def Bounded : DeploymentStep → Prop
  | .mined number _ => number.toNat + 1 < 2 ^ 63
  | .loop _ _ => True
  | .sealTxs _ _ _ txs => txs.length < 2 ^ 32

instance : DecidablePred Bounded
  | .mined number _ => inferInstanceAs (Decidable (number.toNat + 1 < 2 ^ 63))
  | .loop _ _ => isTrue trivial
  | .sealTxs _ _ _ txs => inferInstanceAs (Decidable (txs.length < 2 ^ 32))

end DeploymentStep

namespace Deployment

variable (p : Primitives) (signer : EIP155Signer)
  (hashEvent : ContractEvent → EventHash × List UInt8) (c : Crypto)
  (deployer : Address)

def contract (s : Deployment) : RootChain :=
  contractAfter c deployer s.transactions

/-- What the contract has done. -/
def effects (s : Deployment) : List Effect :=
  historyAfter c deployer s.transactions

/-- The transactions that a step adds to the root chain, whose block numbers
increase. -/
def mines (s : Deployment) : DeploymentStep → List Message
  | .mined number messages =>
      if ∀ event ∈ s.client.log, event.blockNum < number then messages else []
  | _ => []

/-- What a step is to the process. -/
def input (s : Deployment) : DeploymentStep → ClientStep
  | .mined number messages =>
      .mined number (emittedLog c (s.contract c deployer) messages)
  | .loop time answer => .loop time answer
  | .sealTxs time disk submits txs => .sealTxs time disk submits txs

def step (s : Deployment) (move : DeploymentStep) :
    Deployment × List LoopReport :=
  let (client, reports) :=
    s.client.step p signer hashEvent (s.input c deployer move)
  (⟨client, s.transactions ++ s.mines move⟩, reports)

/-- The first start of the operator over a new contract. -/
def first (addr : Address) : Deployment :=
  ⟨Client.started p true (.operator addr), []⟩

variable {p signer hashEvent c deployer} {s : Deployment}
  {history : List LoopReport}

theorem numbers_nodup (c : Crypto) (deployer : Address)
    (messages : List Message) :
    ((emittedLog c (RootChain.new deployer) messages).map
      eventNumber).Nodup := by
  rw [eventNumber_emittedLog]
  apply List.pairwise_map.mpr
  refine (RootChain.numbered_run c deployer messages).increasing.imp ?_
  intro earlier later less same
  omega

/-- The log of the root chain holds the events of the contract. -/
def Logs (c : Crypto) (deployer : Address) (s : Deployment) : Prop :=
  s.client.log.map ContractEvent.value =
    emittedLog c (RootChain.new deployer) s.transactions

theorem logs_step (logs : s.Logs c deployer) (move : DeploymentStep) :
    (s.step p signer hashEvent c deployer move).1.Logs c deployer := by
  have unmined : s.mines move = [] →
      (s.client.step p signer hashEvent (s.input c deployer move)).1.log =
        s.client.log →
      (s.step p signer hashEvent c deployer move).1.Logs c deployer := by
    intro none same
    simp only [Logs, step, none, List.append_nil]
    rw [same]
    exact logs
  cases move with
  | mined number messages =>
      by_cases above : ∀ event ∈ s.client.log, event.blockNum < number
      · have split : emittedLog c (RootChain.new deployer)
            (s.transactions ++ messages) =
              emittedLog c (RootChain.new deployer) s.transactions ++
                emittedLog c (s.contract c deployer) messages :=
          emittedLog_append _ _ _
        have whole := numbers_nodup c deployer (s.transactions ++ messages)
        rw [split, List.map_append] at whole
        have different : (emittedLog c (s.contract c deployer)
            messages).Nodup := whole.of_append_right.of_map
        simp only [Logs, step, input, mines, Client.step, if_pos above,
          if_pos (And.intro above different)]
        rw [List.map_append, logs, split, List.map_map]
        exact congrArg _ (List.map_id _)
      · apply unmined (if_neg above)
        simp only [input, Client.step]
        rw [if_neg (fun both => above both.1)]
  | loop time answer =>
      apply unmined rfl
      simp only [input, Client.step]
      split
      · rfl
      · exact (Client.loopEvents_moves p signer hashEvent time answer
          s.client).log_eq
  | sealTxs time disk submits txs => exact unmined rfl rfl

/-- The process takes part in a run with steps of its own. -/
theorem client_run (addr : Address) {moves : List DeploymentStep}
    (bounded : ∀ move ∈ moves, move.Bounded) :
    ((execute (step p signer hashEvent c deployer) (first p addr)
        moves).1).Logs c deployer ∧
      ∃ inputs : List ClientStep, inputs.length = moves.length ∧
        (∀ input ∈ inputs, input.Undisturbed) ∧
        ((execute (step p signer hashEvent c deployer) (first p addr)
            moves).1.client,
          (execute (step p signer hashEvent c deployer) (first p addr)
            moves).2) =
          execute (Client.step p signer hashEvent)
            (Client.started p true (.operator addr)) inputs := by
  have initially : (first p addr).Logs c deployer := rfl
  refine execute_invariant (step p signer hashEvent c deployer)
    (fun past s history => (∀ move ∈ past, move.Bounded) →
      s.Logs c deployer ∧
        ∃ inputs : List ClientStep, inputs.length = past.length ∧
          (∀ input ∈ inputs, input.Undisturbed) ∧
          (s.client, history) = execute (Client.step p signer hashEvent)
            (Client.started p true (.operator addr)) inputs)
    ?_ (fun _ => ⟨initially, [], rfl, List.forall_mem_nil _, rfl⟩) moves
    bounded
  intro past s history move holds bounded
  obtain ⟨logs, inputs, length, undisturbed, reached⟩ :=
    holds fun other member => bounded other (by simp [member])
  have current : (s.input c deployer move).Undisturbed := by
    have limit := bounded move (by simp)
    cases move <;> exact limit
  refine ⟨logs_step logs move, inputs ++ [s.input c deployer move], ?_, ?_, ?_⟩
  · rw [List.length_append, List.length_append, length]
    rfl
  · intro input member
    rcases List.mem_append.mp member with earlier | last
    · exact undisturbed input earlier
    · rw [List.mem_singleton.mp last]
      exact current
  · rw [execute_append, ← reached]
    simp only [step, execute_cons, execute_nil, List.append_nil]

/-- The numbers of the contract meet what the process needs of a log. -/
theorem depositsApart (logs : s.Logs c deployer)
    (few : s.transactions.length < 2 ^ 50) :
    DepositsApart s.client.log := by
  have logged : ∀ event ∈ s.client.log, event.value ∈
      emittedLog c (RootChain.new deployer) s.transactions := by
    intro event member
    rw [← logs]
    exact List.mem_map_of_mem member
  have nodup : (s.client.log.map fun event =>
      eventNumber event.value).Nodup := by
    have numbers := numbers_nodup c deployer s.transactions
    rw [← logs, List.map_map] at numbers
    exact numbers
  have small : ∀ event ∈ s.client.log, 0 ≤ eventNumber event.value ∧
      eventNumber event.value < 2 ^ 64 := by
    intro event member
    have number := List.mem_map_of_mem (f := eventNumber) (logged event member)
    rw [eventNumber_emittedLog] at number
    obtain ⟨entry, registered, same⟩ := List.mem_map.mp number
    have numbered := numbered_after c deployer s.transactions
    have below := numbered.below entry registered
    have room := numbered.room
    have child := currentChildBlock_le c deployer s.transactions
    have submitted : submissions s.transactions ≤ s.transactions.length :=
      List.countP_le_length
    omega
  constructor
  · intro event member deposit read
    obtain ⟨blockNum, value⟩ := event
    cases value with
    | blockSubmitted event => cases read
    | deposit event =>
        cases read
        exact deposit_of_emittedLog (RootChain.Numbered.new c deployer)
          (logged _ member)
  · intro first firstLogged second secondLogged number read other otherRead
      same
    have named : ∀ event : ContractEvent, ∀ number ∈ event.depositNumber?,
        eventNumber event.value = number := by
      rintro ⟨blockNum, value⟩ number read
      cases value with
      | blockSubmitted event => cases read
      | deposit event =>
          cases read
          rfl
    have left := small first firstLogged
    have right := small second secondLogged
    rw [named first number read] at left
    rw [named second other otherRead] at right
    have equal : number = other := by
      have low := congrArg UInt64.toNat same
      rw [uint64_toNat, uint64_toNat] at low
      omega
    apply List.inj_on_of_nodup_map nodup firstLogged secondLogged
    rw [named first number read, named second other otherRead, equal]

theorem amountTotal_log (logs : s.Logs c deployer) :
    amountTotal s.client.log =
      ((s.contract c deployer).balance + paid (s.effects c deployer) :
        Nat) := by
  have read : s.client.log.map ContractEvent.amount =
      (s.client.log.map ContractEvent.value).map eventAmount := by
    rw [List.map_map]
    apply List.map_congr_left
    rintro ⟨blockNum, value⟩ _
    cases value <;> rfl
  have balance := RootChain.balance_run c deployer s.transactions
  rw [amountTotal, read, logs, eventAmount_emittedLog, ← balance]
  rfl

/-- Events that are credited once and the others make up the log. -/
theorem amountTotal_split {log credits : List ContractEvent}
    (different : log.Nodup) (once : credits.Nodup) (logged : credits ⊆ log) :
    amountTotal log = amountTotal credits +
      amountTotal (log.filter fun event => event ∉ credits) := by
  have own : (log.filter fun event => event ∈ credits).Perm credits := by
    apply (List.perm_ext_iff_of_nodup (different.filter _) once).mpr
    intro event
    simp only [List.mem_filter, decide_eq_true_eq]
    exact ⟨fun both => both.2, fun member => ⟨logged member, member⟩⟩
  have parts := List.filter_append_perm
    (fun event => decide (event ∈ credits)) log
  calc amountTotal log
      = amountTotal (log.filter (fun event => event ∈ credits) ++
          log.filter fun event => !decide (event ∈ credits)) :=
        ((parts.map ContractEvent.amount).sum_eq).symm
    _ = amountTotal (log.filter fun event => event ∈ credits) +
          amountTotal (log.filter fun event => !decide (event ∈ credits)) :=
        amountTotal_append _ _
    _ = amountTotal credits +
          amountTotal (log.filter fun event => !decide (event ∈ credits)) := by
        rw [amountTotal, (own.map ContractEvent.amount).sum_eq]
        rfl
    _ = _ := by simp only [decide_not]

end Deployment

/-- A deposit of five is mined, its block is written, and a child block spends
the deposit with a fee of one. -/
def spentDeposit : List DeploymentStep :=
  .mined 100 [⟨Core.Sample.alice, 5, 20, .deposit⟩] ::
    List.replicate 9 (.loop Core.Sample.now true) ++
      [.sealTxs Core.Sample.now true true [Core.Sample.spend]]

end Plasma.Bridge
