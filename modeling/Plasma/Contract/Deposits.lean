import Plasma.Contract.Challenge
import Plasma.Contract.LifeCycle

/-!
# Deposits and what is paid for them

A deposit registers the digest of its depositor and its amount, and an exit
from its block has to show both.  So what the contract pays for the positions
of a deposit block is the amount of the deposit, to the depositor or, after a
challenge, to nobody; and the depositor can start the exit as long as nobody
has started it before.
-/

namespace Plasma.Contract

open Plasma.Core Plasma.Lib

/-- The event `Deposit`; its token is the zero address. -/
structure Deposit where
  depositor : Address
  depositBlock : Word
  amount : Word
deriving DecidableEq, Repr

namespace Deposit

/-- What the root of the deposit block is the digest of. -/
def input (d : Deposit) : Bytes := depositInput d.depositor 0 d.amount

end Deposit

theorem depositInput_injective {sender other token otherToken : Address}
    {amount otherAmount : Word}
    (same : depositInput sender token amount =
      depositInput other otherToken otherAmount) :
    sender = other ∧ token = otherToken ∧ amount = otherAmount := by
  obtain ⟨addresses, amounts⟩ := List.append_inj same (by
    simp [length_addressBytes])
  obtain ⟨senders, tokens⟩ := List.append_inj addresses (by
    simp [length_addressBytes])
  refine ⟨BitVec.eq_of_toNat_eq ?_, BitVec.eq_of_toNat_eq ?_,
    BitVec.eq_of_toNat_eq ?_⟩
  · exact bigEndian_injective sender.isLt other.isLt senders
  · exact bigEndian_injective token.isLt otherToken.isLt tokens
  · exact bigEndian_injective amount.isLt otherAmount.isLt amounts

namespace RootChain

variable (c : Crypto)

/-- The events `Deposit` a call emits. -/
def depositEvents (s : RootChain) (m : Message) : List Deposit :=
  match m.call with
  | .deposit => (registrations (step c s m).2).map fun entry =>
      ⟨m.sender, entry.1, m.value⟩
  | _ => []

/-- The events of a run. -/
def depositLog : RootChain → List Message → List Deposit
  | _, [] => []
  | s, m :: messages =>
      depositEvents c s m ++ depositLog (step c s m).1 messages

variable {c}

theorem depositLog_append (s : RootChain) (messages later : List Message) :
    depositLog c s (messages ++ later) = depositLog c s messages ++
      depositLog c (execute (step c) s messages).1 later := by
  induction messages generalizing s with
  | nil => rfl
  | cons m messages induction =>
      rw [List.cons_append, depositLog, depositLog, induction,
        List.append_assoc]
      rfl

theorem depositLog_concat (s : RootChain) (messages : List Message)
    (m : Message) :
    depositLog c s (messages ++ [m]) = depositLog c s messages ++
      depositEvents c (execute (step c) s messages).1 m := by
  rw [depositLog_append]
  exact congrArg _ (List.append_nil _)

variable {m : Message} {s next : RootChain}

theorem paid_append (first second : List Effect) :
    paid (first ++ second) = paid first + paid second := by
  rw [paid, List.map_append, List.sum_append]
  rfl

theorem paid_hashed (inputs : List Bytes) :
    paid (inputs.map Effect.hashed) = 0 := by
  induction inputs with
  | nil => rfl
  | cons input inputs induction =>
      rw [List.map_cons, paid, List.map_cons, List.sum_cons]
      exact (Nat.zero_add _).trans induction

/-- A call that is no deposit only pays out. -/
theorem balance_step (c : Crypto) (s : RootChain) {m : Message}
    (other : m.call ≠ .deposit) :
    (step c s m).1.balance + paid (step c s m).2 = s.balance := by
  rcases step_cases c s m with same | ⟨inputs, effect, emitted, act⟩ | taken
  · rw [same]
    rfl
  · rw [emitted, paid_append, paid_hashed]
    generalize (step c s m).1 = next at act
    cases act with
    | submitted call fits => rfl
    | deposited call room number => exact absurd call other
    | exitStarted source positive fresh => rfl
    | challenged call => rfl
  · exact (rounds_pay taken).1

/-- What a call does to the deposits: nothing, or one deposit is logged,
registered and paid for. -/
theorem depositEvents_cases (c : Crypto) (s : RootChain) (m : Message) :
    (depositEvents c s m = [] ∧
      (step c s m).1.balance + paid (step c s m).2 = s.balance ∧
      (m.call = .deposit → (step c s m).2 = [])) ∨
    ∃ d : Deposit, depositEvents c s m = [d] ∧
      (step c s m).2 = [.hashed d.input,
        .registered d.depositBlock (c.keccak256 d.input) m.timestamp] ∧
      (step c s m).1.balance = s.balance + d.amount.toNat ∧
      s.getDepositBlock = some d.depositBlock ∧
      s.currentDepositBlock.toNat < 1000 := by
  by_cases call : m.call = .deposit
  · have performed : perform c s m =
        deposit c s m.sender m.value m.timestamp := by
      simp only [perform, call]
    cases outcome : deposit c s m.sender m.value m.timestamp with
    | none =>
        have same : step c s m = (s, []) := by
          rw [step, performed, outcome]
          rfl
        refine .inl ⟨?_, ?_, ?_⟩
        · simp only [depositEvents, call, same]
          rfl
        · rw [same]
          rfl
        · rw [same]
          exact fun _ => rfl
    | some result =>
        obtain ⟨next, effects⟩ := result
        have taken : step c s m = (next, effects) := by
          rw [step, performed, outcome]
          rfl
        simp only [deposit, Option.bind_eq_bind, Option.bind_eq_some_iff,
          require_eq_some, SafeMath.add_eq_some, Option.pure_def,
          Option.some.injEq, Prod.mk.injEq] at outcome
        obtain ⟨_, room, number, named, _, ⟨_, rfl⟩, rfl, rfl⟩ := outcome
        right
        refine ⟨⟨m.sender, number, m.value⟩, ?_, ?_, ?_, named, room⟩
        · simp only [depositEvents, call, taken]
          rfl
        · rw [taken]
          rfl
        · rw [taken]
  · left
    refine ⟨?_, balance_step c s call, fun deposit => absurd deposit call⟩
    unfold depositEvents
    split
    · contradiction
    · rfl

/-- The contract holds what was deposited and not paid out. -/
theorem balance_run (c : Crypto) (deployer : Address)
    (messages : List Message) :
    (execute (step c) (new deployer) messages).1.balance +
        paid (execute (step c) (new deployer) messages).2 =
      ((depositLog c (new deployer) messages).map
        fun d => d.amount.toNat).sum := by
  refine (execute_invariant (step c) (fun past s history =>
    s = (execute (step c) (new deployer) past).1 ∧
      s.balance + paid history =
        ((depositLog c (new deployer) past).map fun d => d.amount.toNat).sum)
    ?_ ⟨rfl, rfl⟩ messages).2
  rintro past s history m ⟨reached, balance⟩
  refine ⟨?_, ?_⟩
  · rw [execute_append, ← reached]
    rfl
  · rw [depositLog_concat, ← reached, paid_append, List.map_append,
      List.sum_append]
    rcases depositEvents_cases c s m with
      ⟨none, kept, _⟩ | ⟨d, one, effects, grown, _⟩
    · rw [none, List.map_nil, List.sum_nil]
      omega
    · rw [one, effects, grown, List.map_singleton, List.sum_singleton]
      show s.balance + d.amount.toNat + (paid history + 0) = _
      omega

/-!
## Exits from deposit blocks
-/

/-- An amount under a position of a deposit block is that of the deposit, and
its owner is the depositor or nobody. -/
def OfDeposit (log : List Deposit) (utxoPos : Word) (owner : Address)
    (amount : Word) : Prop :=
  amount ≠ 0 → utxoPos.toNat / 1000000000 % 1000 ≠ 0 →
    ∃ d ∈ log, d.depositBlock.toNat = utxoPos.toNat / 1000000000 ∧
      amount = d.amount ∧ (owner = d.depositor ∨ owner = 0)

theorem OfDeposit.mono {log : List Deposit} {utxoPos : Word} {owner : Address}
    {amount : Word} (backed : OfDeposit log utxoPos owner amount)
    (more : List Deposit) : OfDeposit (log ++ more) utxoPos owner amount := by
  intro positive odd
  obtain ⟨d, member, rest⟩ := backed positive odd
  exact ⟨d, List.mem_append_left _ member, rest⟩

theorem OfDeposit.cleared {log : List Deposit} {utxoPos : Word}
    {owner : Address} {amount : Word}
    (backed : OfDeposit log utxoPos owner amount) :
    OfDeposit log utxoPos 0 amount := by
  intro positive odd
  obtain ⟨d, member, number, same, _⟩ := backed positive odd
  exact ⟨d, member, number, same, .inr rfl⟩

/-- No digest of the history is zero or the digest of two inputs. -/
structure Injective (c : Crypto) (history : List Effect) : Prop where
  free : CollisionFree c history
  nonzero : ¬ ZeroDigest c history

theorem Injective.of_append {first second : List Effect}
    (injective : Injective c (first ++ second)) : Injective c first :=
  ⟨injective.free.of_append, fun zero => injective.nonzero zero.mono⟩

theorem Injective.of_inputs {history : List Effect}
    (free : CollisionFree c history)
    (nonzero : ∀ input ∈ hashedInputs history, c.keccak256 input ≠ 0) :
    Injective c history := by
  refine ⟨free, ?_⟩
  rintro ⟨input, hashed, digest⟩
  exact nonzero input (mem_hashedInputs.mpr hashed) digest

/-- What is logged is registered under the number of the deposit. -/
structure DepositsLogged (c : Crypto) (log : List Deposit) (past : List Effect)
    (s : RootChain) : Prop where
  numbered : Numbered c past s
  logged : ∀ d ∈ log, d.depositBlock.toNat % 1000 ≠ 0 ∧
    .hashed d.input ∈ past ∧
    ∃ time, (d.depositBlock, ⟨c.keccak256 d.input, time⟩) ∈ registrations past

/-- What a run keeps about its deposits. -/
structure DepositBacked (c : Crypto) (log : List Deposit) (past : List Effect)
    (s : RootChain) : Prop extends DepositsLogged c log past s where
  blocks : ∀ entry ∈ registrations past, entry.1.toNat % 1000 ≠ 0 →
    ∃ d ∈ log, d.depositBlock = entry.1 ∧ .hashed d.input ∈ past ∧
      entry.2.root = c.keccak256 d.input
  exits : Injective c past → ∀ utxoPos,
    OfDeposit log utxoPos (s.exits utxoPos).owner (s.exits utxoPos).amount
  payouts : Injective c past → ∀ utxoPos payee amount time,
    .removed utxoPos payee amount time ∈ past →
      OfDeposit log utxoPos payee amount

/-- A digest that is the root of a block shows that the block was
registered. -/
theorem Numbered.registered {past extra : List Effect}
    (numbered : Numbered c past s)
    (injective : Injective c (past ++ extra)) {input : Bytes}
    (hashed : .hashed input ∈ past ++ extra) {blknum : Word}
    (digest : (s.childChain blknum).root = c.keccak256 input) :
    ∃ entry ∈ registrations past, entry.1 = blknum ∧
      entry.2.root = c.keccak256 input := by
  have listed : blknum ∈ (registrations past).map Prod.fst := by
    by_contra absent
    rw [numbered.unset blknum absent] at digest
    exact injective.nonzero ⟨input, hashed, digest.symm⟩
  obtain ⟨entry, member, rfl⟩ := List.mem_map.mp listed
  refine ⟨entry, member, rfl, ?_⟩
  rw [← numbered.stored entry member]
  exact digest

/-- An exit of a transaction lies in a submitted block: the root of a deposit
block is the digest of an input of another length. -/
theorem DepositBacked.utxo_block {log : List Deposit} {past extra : List Effect}
    (backed : DepositBacked c log past s)
    (injective : Injective c (past ++ extra)) {utxoPos : Word} {input : Bytes}
    (hashed : .hashed input ∈ past ++ extra) (size : input.length = 64)
    (digest : c.keccak256 input =
      (s.childChain (utxoPos / 1000000000)).root) :
    utxoPos.toNat / 1000000000 % 1000 = 0 := by
  by_contra odd
  obtain ⟨entry, member, number, root⟩ :=
    backed.numbered.registered injective hashed digest.symm
  rw [← blknum_toNat, ← number] at odd
  obtain ⟨d, _, _, other, same⟩ := backed.blocks entry member odd
  have equal : input = d.input := by
    apply injective.free
    · exact mem_hashedInputs.mpr hashed
    · exact mem_hashedInputs.mpr (List.mem_append_left _ other)
    · rw [← root, same]
  rw [equal, Deposit.input, length_depositInput] at size
  cases size

/-- A deposit exit shows the depositor and the amount of the deposit. -/
theorem DepositBacked.deposit_exit {log : List Deposit}
    {past extra : List Effect}
    (backed : DepositBacked c log past s)
    (injective : Injective c (past ++ extra)) {utxoPos : Word}
    {sender token : Address} {amount : Word}
    (hashed : .hashed (depositInput sender token amount) ∈ past ++ extra)
    (digest : (s.childChain (utxoPos / 1000000000)).root =
      c.keccak256 (depositInput sender token amount)) :
    OfDeposit log utxoPos sender amount := by
  intro _ odd
  obtain ⟨entry, member, number, root⟩ :=
    backed.numbered.registered injective hashed digest
  rw [← blknum_toNat, ← number] at odd
  obtain ⟨d, logged, block, other, same⟩ := backed.blocks entry member odd
  have equal : depositInput sender token amount = d.input := by
    apply injective.free
    · exact mem_hashedInputs.mpr hashed
    · exact mem_hashedInputs.mpr (List.mem_append_left _ other)
    · rw [← root, same]
  obtain ⟨depositor, _, value⟩ := depositInput_injective equal
  refine ⟨d, logged, ?_, value, .inl depositor⟩
  rw [block, number, blknum_toNat]

theorem require_of {condition : Prop} [Decidable condition]
    (holds : condition) : require condition = some () :=
  if_pos holds

theorem addExitToQueue_of_fresh (now : Word) (exitor : Address)
    (createdAt : Word) {utxoPos amount : Word} (positive : amount ≠ 0)
    (fresh : (s.exits utxoPos).amount = 0) :
    ∃ next, addExitToQueue s now utxoPos exitor 0 amount createdAt =
      some next := by
  have above : 0 < amount := by
    rw [BitVec.lt_def]
    exact Nat.pos_of_ne_zero fun zero => positive (BitVec.eq_of_toNat_eq zero)
  have known : hasQueue 0 = true := rfl
  simp only [addExitToQueue, require_of known,
    require_of above, require_of fresh, Option.bind_eq_bind,
    Option.bind_some, Option.pure_def]
  exact ⟨_, rfl⟩

/-- What a successful deposit exit does. -/
theorem startDepositExit_cases {depositPos : Word} {token : Address}
    {amount : Word}
    (call : m.call = .startDepositExit depositPos token amount) :
    step c s m = (s, []) ∨
      ((s.childChain (depositPos / 1000000000)).root =
          c.keccak256 (depositInput m.sender token amount) ∧
        (step c s m).1.exits =
          Function.update s.exits depositPos ⟨m.sender, 0, amount⟩ ∧
        (step c s m).1.currentFeeExit = s.currentFeeExit ∧
        ∃ time, (step c s m).2 = [.hashed (depositInput m.sender token amount),
          .exitStarted .deposit depositPos m.timestamp time]) := by
  rw [step]
  cases performed : perform c s m with
  | none => exact .inl rfl
  | some result =>
      obtain ⟨next, effects⟩ := result
      simp only [perform, call, startDepositExit, Option.bind_eq_bind,
        Option.bind_eq_some_iff, require_eq_some, Option.pure_def,
        Option.some.injEq, Prod.mk.injEq] at performed
      obtain ⟨_, _, _, _, _, root, _, added, rfl, rfl⟩ := performed
      obtain ⟨_, _, rfl⟩ := addExitToQueue_eq_some added
      exact .inr ⟨root, rfl, rfl, _, rfl⟩

theorem exits_update {P : Word → Address → Word → Prop} {exits : Word → Exit}
    (holds : ∀ utxoPos, P utxoPos (exits utxoPos).owner (exits utxoPos).amount)
    {position : Word} {e : Exit} (own : P position e.owner e.amount) :
    ∀ utxoPos, P utxoPos (Function.update exits position e utxoPos).owner
      (Function.update exits position e utxoPos).amount := by
  intro utxoPos
  by_cases same : utxoPos = position
  · subst same
    rw [Function.update_self]
    exact own
  · rw [Function.update_of_ne same]
    exact holds utxoPos

theorem exits_rounds {P : Word → Address → Word → Prop}
    (cleared : ∀ utxoPos owner amount, P utxoPos owner amount →
      P utxoPos 0 amount)
    {effects : List Effect} (taken : Rounds m s effects next)
    (holds : ∀ utxoPos,
      P utxoPos (s.exits utxoPos).owner (s.exits utxoPos).amount) :
    (∀ utxoPos,
        P utxoPos (next.exits utxoPos).owner (next.exits utxoPos).amount) ∧
      ∀ utxoPos payee amount time,
        .removed utxoPos payee amount time ∈ effects →
          P utxoPos payee amount := by
  induction taken with
  | done s =>
      refine ⟨holds, ?_⟩
      intro utxoPos payee amount time member
      cases member
  | next first rest induction =>
      cases first with
      | @round exitableAt front queue read mature funded deleted =>
          obtain ⟨later, payouts⟩ :=
            induction (exits_update holds (cleared _ _ _ (holds front)))
          refine ⟨later, ?_⟩
          intro utxoPos payee amount time member
          rcases List.mem_cons.mp member with same | paid
          · cases same
            exact holds front
          · exact payouts utxoPos payee amount time paid

/-- A property of the stored exits that clearing an owner keeps, and that the
exits have which a call can start, holds after the call and of what it
pays. -/
theorem exits_step (c : Crypto) (s : RootChain) (m : Message)
    {P : Word → Address → Word → Prop}
    (cleared : ∀ utxoPos owner amount, P utxoPos owner amount →
      P utxoPos 0 amount)
    (deposit : ∀ utxoPos token amount,
      .hashed (depositInput m.sender token amount) ∈ (step c s m).2 →
      (s.childChain (utxoPos / 1000000000)).root =
        c.keccak256 (depositInput m.sender token amount) →
      P utxoPos m.sender amount)
    (utxo : ∀ utxoPos input, .hashed input ∈ (step c s m).2 →
      input.length = 64 →
      c.keccak256 input = (s.childChain (utxoPos / 1000000000)).root →
      ∀ owner amount, P utxoPos owner amount)
    (fee : ∀ owner amount, P s.currentFeeExit owner amount)
    (holds : ∀ utxoPos,
      P utxoPos (s.exits utxoPos).owner (s.exits utxoPos).amount) :
    (∀ utxoPos, P utxoPos ((step c s m).1.exits utxoPos).owner
        ((step c s m).1.exits utxoPos).amount) ∧
      ∀ utxoPos payee amount time,
        .removed utxoPos payee amount time ∈ (step c s m).2 →
          P utxoPos payee amount := by
  rcases step_cases c s m with same | ⟨inputs, effect, emitted, act⟩ | taken
  · rw [same]
    refine ⟨holds, ?_⟩
    intro utxoPos payee amount time member
    cases member
  · have silent : ∀ utxoPos payee amount time,
        effect ≠ .removed utxoPos payee amount time →
          .removed utxoPos payee amount time ∉ (step c s m).2 := by
      intro utxoPos payee amount time other member
      rw [emitted] at member
      rcases List.mem_append.mp member with digest | last
      · obtain ⟨_, _, impossible⟩ := List.mem_map.mp digest
        cases impossible
      · exact other (List.mem_singleton.mp last).symm
    have listed : ∀ input ∈ inputs, .hashed input ∈ (step c s m).2 := by
      intro input member
      rw [emitted]
      exact List.mem_append_left _ (List.mem_map_of_mem member)
    generalize reached : (step c s m).1 = after at act
    have quiet : ∀ utxoPos payee amount time,
        effect ≠ .removed utxoPos payee amount time := by
      intro utxoPos payee amount time
      cases act <;> simp
    refine ⟨?_, fun utxoPos payee amount time member =>
      absurd member (silent utxoPos payee amount time
        (quiet utxoPos payee amount time))⟩
    cases act with
    | submitted call fits => exact holds
    | deposited call room number => exact holds
    | challenged call => exact exits_update holds (cleared _ _ _ (holds _))
    | exitStarted source positive fresh =>
        cases source with
        | @deposit depositPos token amount call kind root =>
            rcases startDepositExit_cases (c := c) (s := s) call with
              same | ⟨_, exits, _⟩
            · rw [← reached, same]
              exact holds
            · rw [← reached, exits]
              exact exits_update holds
                (deposit _ _ _ (listed _ List.mem_cons_self) root)
        | utxo call included =>
            obtain ⟨input, member, size, digest⟩ := included
            exact exits_update holds
              (utxo _ input (listed input member) size digest _ _)
        | fee call => exact exits_update holds (fee _ _)
  · exact exits_rounds cleared taken holds

theorem rounds_currentFeeExit {effects : List Effect}
    (taken : Rounds m s effects next) :
    next.currentFeeExit = s.currentFeeExit := by
  induction taken with
  | done s => rfl
  | next first rest induction =>
      cases first with
      | round front mature funded deleted => exact induction

/-- A call starts at most one fee exit. -/
theorem currentFeeExit_step (c : Crypto) (s : RootChain) (m : Message) :
    (step c s m).1.currentFeeExit.toNat ≤ s.currentFeeExit.toNat + 1 := by
  rcases step_cases c s m with same | ⟨inputs, effect, emitted, act⟩ | taken
  · rw [same]
    exact Nat.le_succ _
  · generalize (step c s m).1 = next at act
    cases act with
    | submitted call fits => exact Nat.le_succ _
    | deposited call room number => exact Nat.le_succ _
    | challenged call => exact Nat.le_succ _
    | exitStarted source positive fresh =>
        cases source with
        | deposit call kind root => exact Nat.le_succ _
        | utxo call included => exact Nat.le_succ _
        | fee call =>
            rw [BitVec.toNat_add]
            exact Nat.mod_le _ _
  · rw [rounds_currentFeeExit taken]
    exact Nat.le_succ _

/-- A logged deposit has a number between two child blocks. -/
theorem DepositsLogged.deposits {log : List Deposit} {past : List Effect}
    (backed : DepositsLogged c log past s) {d : Deposit}
    (member : d ∈ depositEvents c s m) :
    d.depositBlock.toNat % 1000 ≠ 0 ∧ .hashed d.input ∈ (step c s m).2 ∧
      ∃ time, (d.depositBlock, ⟨c.keccak256 d.input, time⟩) ∈
        registrations (step c s m).2 := by
  rcases depositEvents_cases c s m with
    ⟨none, _⟩ | ⟨other, one, effects, _, number, room⟩
  · rw [none] at member
    cases member
  · rw [one] at member
    cases List.mem_singleton.mp member
    rw [effects]
    refine ⟨?_, List.mem_cons_self, m.timestamp, List.mem_singleton_self _⟩
    obtain ⟨k, _, multiple⟩ := backed.numbered.interval
    have place := getDepositBlock_toNat number
    have first := backed.numbered.room.1
    omega

/-- What a call registers under a number of deposits is logged. -/
theorem DepositBacked.registers {log : List Deposit} {past : List Effect}
    (backed : DepositBacked c log past s) {entry : Word × ChildBlock}
    (member : entry ∈ registrations (step c s m).2)
    (odd : entry.1.toNat % 1000 ≠ 0) :
    ∃ d ∈ depositEvents c s m, d.depositBlock = entry.1 ∧
      .hashed d.input ∈ (step c s m).2 ∧
      entry.2.root = c.keccak256 d.input := by
  rcases depositEvents_cases c s m with
    ⟨_, _, silent⟩ | ⟨d, one, effects, _⟩
  · exfalso
    rcases step_registers c s m with ⟨none, _⟩ |
      ⟨root, _, _, registered, _⟩ | ⟨_, _, call, _⟩
    · rw [none] at member
      cases member
    · rw [registered] at member
      cases List.mem_singleton.mp member
      obtain ⟨k, _, multiple⟩ := backed.numbered.interval
      apply odd
      rw [multiple]
      exact Nat.mul_mod_right 1000 k
    · rw [silent call] at member
      cases member
  · rw [effects] at member
    cases List.mem_singleton.mp member
    refine ⟨d, ?_, rfl, ?_, rfl⟩
    · rw [one]
      exact List.mem_singleton_self d
    · rw [effects]
      exact List.mem_cons_self

theorem DepositsLogged.step {log : List Deposit} {past : List Effect}
    (backed : DepositsLogged c log past s) (m : Message) :
    DepositsLogged c (log ++ depositEvents c s m) (past ++ (step c s m).2)
      (step c s m).1 := by
  refine ⟨backed.numbered.step m, ?_⟩
  intro d member
  rw [registrations_append]
  rcases List.mem_append.mp member with earlier | new
  · obtain ⟨odd, hashed, time, registered⟩ := backed.logged d earlier
    exact ⟨odd, List.mem_append_left _ hashed, time,
      List.mem_append_left _ registered⟩
  · obtain ⟨odd, hashed, time, registered⟩ := backed.deposits new
    exact ⟨odd, List.mem_append_right _ hashed, time,
      List.mem_append_right _ registered⟩

theorem logged_run (c : Crypto) (deployer : Address)
    (messages : List Message) :
    DepositsLogged c (depositLog c (new deployer) messages)
      (execute (RootChain.step c) (new deployer) messages).2
      (execute (RootChain.step c) (new deployer) messages).1 := by
  refine (execute_invariant (RootChain.step c) (fun past s history =>
    s = (execute (RootChain.step c) (new deployer) past).1 ∧
      DepositsLogged c (depositLog c (new deployer) past) history s)
    ?_ ?_ messages).2
  · rintro past s history m ⟨reached, logged⟩
    constructor
    · rw [execute_append, ← reached]
      rfl
    · rw [depositLog_concat, ← reached]
      exact logged.step m
  · refine ⟨rfl, Numbered.new c deployer, ?_⟩
    intro d member
    cases member

theorem DepositBacked.step {log : List Deposit} {past : List Effect}
    (backed : DepositBacked c log past s)
    (small : s.currentFeeExit.toNat < 1000000000) (m : Message) :
    DepositBacked c (log ++ depositEvents c s m) (past ++ (step c s m).2)
      (step c s m).1 := by
  have started : Injective c (past ++ (RootChain.step c s m).2) →
      (∀ utxoPos, OfDeposit log utxoPos
          ((RootChain.step c s m).1.exits utxoPos).owner
          ((RootChain.step c s m).1.exits utxoPos).amount) ∧
        ∀ utxoPos payee amount time,
          .removed utxoPos payee amount time ∈ (RootChain.step c s m).2 →
            OfDeposit log utxoPos payee amount := by
    intro injective
    apply exits_step c s m
    · intro utxoPos owner amount
      exact OfDeposit.cleared
    · intro utxoPos token amount hashed digest
      exact backed.deposit_exit injective (List.mem_append_right _ hashed)
        digest
    · intro utxoPos input hashed size digest owner amount _ odd
      exact absurd (backed.utxo_block injective
        (List.mem_append_right _ hashed) size digest) odd
    · intro owner amount _ odd
      rw [Nat.div_eq_of_lt small] at odd
      exact absurd rfl odd
    · exact backed.exits injective.of_append
  refine ⟨backed.toDepositsLogged.step m, ?_, ?_, ?_⟩
  · intro entry member odd
    rw [registrations_append] at member
    rcases List.mem_append.mp member with earlier | new
    · obtain ⟨d, logged, number, hashed, root⟩ :=
        backed.blocks entry earlier odd
      exact ⟨d, List.mem_append_left _ logged, number,
        List.mem_append_left _ hashed, root⟩
    · obtain ⟨d, logged, number, hashed, root⟩ := backed.registers new odd
      exact ⟨d, List.mem_append_right _ logged, number,
        List.mem_append_right _ hashed, root⟩
  · intro injective utxoPos
    exact ((started injective).1 utxoPos).mono _
  · intro injective utxoPos payee amount time member
    rcases List.mem_append.mp member with earlier | new
    · exact (backed.payouts injective.of_append utxoPos payee amount time
        earlier).mono _
    · exact ((started injective).2 utxoPos payee amount time new).mono _

theorem backed_run (c : Crypto) (deployer : Address)
    {messages : List Message} (short : messages.length < 1000000000) :
    DepositBacked c (depositLog c (new deployer) messages)
      (execute (RootChain.step c) (new deployer) messages).2
      (execute (RootChain.step c) (new deployer) messages).1 := by
  refine (execute_invariant (RootChain.step c) (fun past s history =>
    past.length < 1000000000 →
      s = (execute (RootChain.step c) (new deployer) past).1 ∧
        s.currentFeeExit.toNat ≤ past.length + 1 ∧
        DepositBacked c (depositLog c (new deployer) past) history s)
    ?_ ?_ messages short).2.2
  · intro past s history m holds short
    rw [List.length_append, List.length_singleton] at short
    obtain ⟨reached, fees, backed⟩ := holds (by omega)
    have more := currentFeeExit_step c s m
    refine ⟨?_, ?_, ?_⟩
    · rw [execute_append, ← reached]
      rfl
    · rw [List.length_append, List.length_singleton]
      omega
    · rw [depositLog_concat, ← reached]
      exact backed.step (by omega) m
  · intro _
    refine ⟨rfl, le_refl 1, logged_run c deployer [], ?_, ?_, ?_⟩
    · intro entry member
      cases member
    · intro _ utxoPos positive
      exact absurd rfl positive
    · intro _ utxoPos payee amount time member
      cases member

/-- In every run whose digests are injective, what is paid for a position of a
deposit block is the amount of its deposit, and it is paid to the depositor or,
after a challenge, to nobody. -/
theorem deposit_payouts_backed (c : Crypto) (deployer : Address)
    {messages : List Message} (short : messages.length < 1000000000)
    {history : List Effect}
    (run : history = (execute (RootChain.step c) (new deployer) messages).2)
    (injective : Injective c history) {utxoPos : Word} {payee : Address}
    {amount time : Word} (paid : .removed utxoPos payee amount time ∈ history)
    (positive : amount ≠ 0)
    (deposited : utxoPos.toNat / 1000000000 % 1000 ≠ 0) :
    ∃ d ∈ depositLog c (new deployer) messages,
      d.depositBlock.toNat = utxoPos.toNat / 1000000000 ∧
        amount = d.amount ∧ (payee = d.depositor ∨ payee = 0) := by
  subst run
  exact (backed_run c deployer short).payouts injective utxoPos payee amount
    time paid positive deposited

/-- The deposit is exited and finalised. -/
def exitedRun : List Message :=
  [Sample.depositMessage Sample.alice 5, Sample.depositExit 1000000000,
    Sample.finalize]

theorem deposit_paid_to_depositor :
    ∃ d ∈ depositLog Sample.crypto (new Sample.alice) exitedRun,
      d.depositBlock.toNat = 1 ∧ 5 = d.amount ∧
        (Sample.alice = d.depositor ∨ Sample.alice = 0) := by
  have traced : CollisionFree Sample.crypto (execute (step Sample.crypto)
        (new Sample.alice) exitedRun).2 ∧
      (∀ input ∈ hashedInputs (execute (step Sample.crypto)
          (new Sample.alice) exitedRun).2,
        Sample.crypto.keccak256 input ≠ 0) ∧
      .removed 1000000000 Sample.alice 5 (Sample.start + weeks 3) ∈
        (execute (step Sample.crypto) (new Sample.alice) exitedRun).2 := by
    decide +kernel
  obtain ⟨free, nonzero, paid⟩ := traced
  exact deposit_payouts_backed Sample.crypto Sample.alice (by decide) rfl
    (.of_inputs free nonzero) paid (by decide) (by decide)

/-- In every run whose digests are injective, an exit from the block of a
deposit can be started by the depositor of a positive amount, by nobody else
and for no other amount, and exactly while the exit stored under the position
has no amount. -/
theorem deposit_exit_starts_iff (c : Crypto) (deployer : Address)
    {messages : List Message} {s : RootChain} {history : List Effect}
    (run : execute (RootChain.step c) (new deployer) messages = (s, history))
    {d : Deposit} (logged : d ∈ depositLog c (new deployer) messages)
    {m : Message} {utxoPos : Word} {token : Address} {amount : Word}
    (call : m.call = .startDepositExit utxoPos token amount)
    (position : utxoPos / 1000000000 = d.depositBlock)
    (injective : Injective c
      (history ++ [.hashed (depositInput m.sender token amount)])) :
    (perform c s m).isSome = true ↔
      m.value = 0 ∧ m.sender = d.depositor ∧ token = 0 ∧
        amount = d.amount ∧ amount ≠ 0 ∧ (s.exits utxoPos).amount = 0 := by
  have backed := logged_run c deployer messages
  rw [run] at backed
  obtain ⟨odd, hashed, time, registered⟩ := backed.logged d logged
  have stored := backed.numbered.stored _ registered
  have root : (s.childChain (utxoPos / 1000000000)).root =
      c.keccak256 d.input := by
    rw [position, stored]
  constructor
  · intro succeeds
    obtain ⟨⟨next, effects⟩, performed⟩ := Option.isSome_iff_exists.mp succeeds
    simp only [perform, call, startDepositExit, Option.bind_eq_bind,
      Option.bind_eq_some_iff, require_eq_some, Option.pure_def,
      Option.some.injEq, Prod.mk.injEq] at performed
    obtain ⟨_, free, _, _, _, digest, _, added, _, _⟩ := performed
    obtain ⟨positive, fresh, _⟩ := addExitToQueue_eq_some added
    have equal : depositInput m.sender token amount = d.input := by
      apply injective.free
      · exact mem_hashedInputs.mpr (by simp)
      · exact mem_hashedInputs.mpr (List.mem_append_left _ hashed)
      · rw [← digest, root]
    obtain ⟨depositor, zero, value⟩ := depositInput_injective equal
    exact ⟨free, depositor, zero, value, positive, fresh⟩
  · rintro ⟨free, depositor, rfl, rfl, positive, fresh⟩
    have kind : utxoPos / 1000000000 % childBlockInterval ≠ 0 := by
      rw [position]
      intro multiple
      apply odd
      exact (BitVec.toNat_umod ..).symm.trans (congrArg BitVec.toNat multiple)
    rw [Deposit.input, ← depositor] at root
    obtain ⟨next, added⟩ := addExitToQueue_of_fresh m.timestamp m.sender
      (s.childChain (utxoPos / 1000000000)).timestamp positive fresh
    rw [perform, call]
    simp only [startDepositExit, require_of free,
      require_of kind, require_of root, added,
      Option.bind_eq_bind, Option.bind_some, Option.pure_def,
      Option.isSome_some]

/-- The deposit is made. -/
def depositedRun : List Message := [Sample.depositMessage Sample.alice 5]

def deposited : RootChain :=
  (execute (step Sample.crypto) (new Sample.alice) depositedRun).1

/-- Nobody but the depositor can start the exit. -/
theorem depositor_alone_starts_exit :
    (perform Sample.crypto deposited
        (Sample.depositExit 1000000000)).isSome = true ∧
      (perform Sample.crypto deposited (Sample.message Sample.bob 20
        (.startDepositExit 1000000000 0 7))).isSome = false := by
  have run : execute (step Sample.crypto) (new Sample.alice) depositedRun =
      (deposited, (execute (step Sample.crypto) (new Sample.alice)
        depositedRun).2) := Prod.mk.eta.symm
  have traced : CollisionFree Sample.crypto
        ((execute (step Sample.crypto) (new Sample.alice) depositedRun).2 ++
          [.hashed (depositInput Sample.bob 0 7)]) ∧
      (∀ input ∈ hashedInputs ((execute (step Sample.crypto)
          (new Sample.alice) depositedRun).2 ++
            [.hashed (depositInput Sample.bob 0 7)]),
        Sample.crypto.keccak256 input ≠ 0) ∧
      CollisionFree Sample.crypto
        ((execute (step Sample.crypto) (new Sample.alice) depositedRun).2 ++
          [.hashed (depositInput Sample.alice 0 5)]) ∧
      (∀ input ∈ hashedInputs ((execute (step Sample.crypto)
          (new Sample.alice) depositedRun).2 ++
            [.hashed (depositInput Sample.alice 0 5)]),
        Sample.crypto.keccak256 input ≠ 0) ∧
      (⟨Sample.alice, 1, 5⟩ : Deposit) ∈
        depositLog Sample.crypto (new Sample.alice) depositedRun ∧
      (deposited.exits 1000000000).amount = 0 := by
    decide +kernel
  obtain ⟨otherFree, otherNonzero, free, nonzero, logged, fresh⟩ := traced
  have position : (1000000000 : Word) / 1000000000 = 1 := by decide
  have depositorStarts := deposit_exit_starts_iff Sample.crypto Sample.alice
    (m := Sample.depositExit 1000000000) run logged rfl position
    (.of_inputs free nonzero)
  have otherStarts := deposit_exit_starts_iff Sample.crypto Sample.alice
    (m := Sample.message Sample.bob 20 (.startDepositExit 1000000000 0 7))
    run logged rfl position (.of_inputs otherFree otherNonzero)
  constructor
  · exact depositorStarts.mpr ⟨rfl, rfl, rfl, rfl, by decide, fresh⟩
  · apply Bool.eq_false_iff.mpr
    intro started
    obtain ⟨_, depositor, _⟩ := otherStarts.mp started
    exact absurd depositor (by decide)

end RootChain

end Plasma.Contract
