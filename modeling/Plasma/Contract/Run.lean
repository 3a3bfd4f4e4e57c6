import Plasma.Contract.RootChain

/-!
# Runs of the contract

What one successful call does, stated once: it performs a single action, after
hashing some byte strings, or it finalises exits in rounds.  The run rule turns
a property that actions and rounds keep into one of every run.
-/

namespace Plasma.Contract

open Plasma.Core Plasma.Lib

namespace RootChain

/-- How the three functions that start an exit choose its position and its
creation time; `feeExits` is the fee counter afterwards. -/
inductive ExitSource (c : Crypto) (m : Message) (s : RootChain) :
    List Bytes → ExitKind → Word → Word → Word → Prop where
  | deposit {depositPos : Word} {token : Address} {amount : Word}
      (call : m.call = .startDepositExit depositPos token amount)
      (kind : depositPos / 1000000000 % childBlockInterval ≠ 0)
      (root : (s.childChain (depositPos / 1000000000)).root =
        c.keccak256 (depositInput m.sender token amount)) :
      ExitSource c m s [depositInput m.sender token amount] .deposit depositPos
        (s.childChain (depositPos / 1000000000)).timestamp s.currentFeeExit
  | utxo {utxoPos : Word} {txBytes proof sigs rest : Bytes}
      {inputs : List Bytes}
      (call : m.call = .startExit utxoPos txBytes proof sigs rest)
      (included : ∃ input ∈ inputs, input.length = 64 ∧ c.keccak256 input =
        (s.childChain (utxoPos / 1000000000)).root) :
      ExitSource c m s inputs .utxo utxoPos
        (s.childChain (utxoPos / 1000000000)).timestamp s.currentFeeExit
  | fee {token : Address} {amount : Word}
      (call : m.call = .startFeeExit token amount) :
      ExitSource c m s [] .fee s.currentFeeExit (m.timestamp + 1)
        (s.currentFeeExit + 1)

/-- What a successful call other than `finalizeExits` does. -/
inductive Acts (c : Crypto) (m : Message) (s : RootChain) :
    List Bytes → Effect → RootChain → Prop where
  | submitted {root : Hash} (call : m.call = .submitBlock root)
      (fits : s.currentChildBlock.toNat + 1000 < 2 ^ 256) :
      Acts c m s [] (.registered s.currentChildBlock root m.timestamp)
        { s with
          childChain := Function.update s.childChain s.currentChildBlock
            ⟨root, m.timestamp⟩
          currentChildBlock := s.currentChildBlock + childBlockInterval
          currentDepositBlock := 1 }
  | deposited {depositBlock : Word} (call : m.call = .deposit)
      (room : s.currentDepositBlock < childBlockInterval)
      (number : s.getDepositBlock = some depositBlock) :
      Acts c m s [depositInput m.sender 0 m.value]
        (.registered depositBlock
          (c.keccak256 (depositInput m.sender 0 m.value)) m.timestamp)
        { s with
          childChain := Function.update s.childChain depositBlock
            ⟨c.keccak256 (depositInput m.sender 0 m.value), m.timestamp⟩
          currentDepositBlock := s.currentDepositBlock + 1
          balance := s.balance + m.value.toNat }
  | exitStarted {inputs : List Bytes} {kind : ExitKind}
      {utxoPos createdAt feeExits : Word} {exitor : Address} {amount : Word}
      (source : ExitSource c m s inputs kind utxoPos createdAt feeExits)
      (positive : amount ≠ 0) (fresh : (s.exits utxoPos).amount = 0) :
      Acts c m s inputs
        (.exitStarted kind utxoPos m.timestamp
          (exitableAt createdAt m.timestamp))
        { s with
          queue := s.queue.insert (exitableAt createdAt m.timestamp) utxoPos
          exits := Function.update s.exits utxoPos ⟨exitor, 0, amount⟩
          currentFeeExit := feeExits }
  | challenged {inputs : List Bytes} {cUtxoPos eUtxoIndex utxoPos : Word}
      {txBytes proof sigs confirmationSig rest : Bytes}
      (call : m.call = .challengeExit cUtxoPos eUtxoIndex txBytes proof sigs
        confirmationSig rest) :
      Acts c m s inputs (.challenged utxoPos (s.exits utxoPos).owner)
        { s with
          exits := Function.update s.exits utxoPos
            { s.exits utxoPos with owner := 0 } }

/-- One round of finalisation. -/
inductive Removes (m : Message) (s : RootChain) :
    Effect → RootChain → Prop where
  | round {exitableAt utxoPos : Word} {queue : PriorityQueue}
      (front : s.queue.getMin = some (exitableAt, utxoPos))
      (mature : exitableAt < m.timestamp)
      (funded : (s.exits utxoPos).amount.toNat ≤ s.balance)
      (deleted : s.queue.delMin = some (queue, exitableAt, utxoPos)) :
      Removes m s
        (.removed utxoPos (s.exits utxoPos).owner (s.exits utxoPos).amount
          m.timestamp)
        { s with
          balance := s.balance - (s.exits utxoPos).amount.toNat
          queue := queue
          exits := Function.update s.exits utxoPos
            { s.exits utxoPos with owner := 0 } }

/-- The rounds of one call. -/
inductive Rounds (m : Message) :
    RootChain → List Effect → RootChain → Prop where
  | done (s : RootChain) : Rounds m s [] s
  | next {s next final : RootChain} {effect : Effect} {effects : List Effect}
      (first : Removes m s effect next) (rest : Rounds m next effects final) :
      Rounds m s (effect :: effects) final

end RootChain

namespace PriorityQueue

/-- Deleting returns what reading the front returns. -/
theorem getMin_of_delMin {q rest : PriorityQueue} {front : Word × Word}
    (deleted : q.delMin = some (rest, front)) : q.getMin = some front := by
  rw [delMin] at deleted
  rw [getMin]
  split at deleted
  · next nonempty =>
      rw [if_pos nonempty]
      exact congrArg (fun result => result.map Prod.snd) deleted
  · cases deleted

end PriorityQueue

namespace RootChain

variable {c : Crypto} {m : Message} {s next : RootChain}
  {effects : List Effect}

theorem addExitToQueue_eq_some {now utxoPos : Word} {exitor token : Address}
    {amount createdAt : Word}
    (added : addExitToQueue s now utxoPos exitor token amount createdAt =
      some next) :
    amount ≠ 0 ∧ (s.exits utxoPos).amount = 0 ∧
      next = { s with
        queue := s.queue.insert (exitableAt createdAt now) utxoPos
        exits := Function.update s.exits utxoPos ⟨exitor, 0, amount⟩ } := by
  simp only [addExitToQueue, Option.bind_eq_bind, Option.bind_eq_some_iff,
    require_eq_some, Option.pure_def, Option.some.injEq] at added
  obtain ⟨_, known, _, positive, _, fresh, rfl⟩ := added
  have zero : token = 0 := eq_of_beq known
  refine ⟨?_, fresh, by rw [zero]⟩
  rintro rfl
  exact BitVec.not_lt_zero positive

theorem submitBlock_acts {root : Hash} (call : m.call = .submitBlock root)
    (performed : submitBlock s m.sender m.timestamp root =
      some (next, effects)) :
    ∃ inputs effect, effects = inputs.map Effect.hashed ++ [effect] ∧
      Acts c m s inputs effect next := by
  simp only [submitBlock, Option.bind_eq_bind, Option.bind_eq_some_iff,
    require_eq_some, SafeMath.add_eq_some, Option.pure_def, Option.some.injEq,
    Prod.mk.injEq] at performed
  obtain ⟨_, _, sum, ⟨fits, rfl⟩, rfl, rfl⟩ := performed
  exact ⟨[], _, rfl, .submitted call fits⟩

theorem deposit_acts (call : m.call = .deposit)
    (performed : deposit c s m.sender m.value m.timestamp =
      some (next, effects)) :
    ∃ inputs effect, effects = inputs.map Effect.hashed ++ [effect] ∧
      Acts c m s inputs effect next := by
  simp only [deposit, Option.bind_eq_bind, Option.bind_eq_some_iff,
    require_eq_some, SafeMath.add_eq_some, Option.pure_def, Option.some.injEq,
    Prod.mk.injEq] at performed
  obtain ⟨_, room, number, named, sum, ⟨_, rfl⟩, rfl, rfl⟩ := performed
  exact ⟨[_], _, rfl, .deposited call room named⟩

theorem startDepositExit_acts {depositPos : Word} {token : Address}
    {amount : Word} (call : m.call = .startDepositExit depositPos token amount)
    (performed : startDepositExit c s m.sender m.timestamp depositPos token
      amount = some (next, effects)) :
    ∃ inputs effect, effects = inputs.map Effect.hashed ++ [effect] ∧
      Acts c m s inputs effect next := by
  simp only [startDepositExit, Option.bind_eq_bind, Option.bind_eq_some_iff,
    require_eq_some, Option.pure_def, Option.some.injEq, Prod.mk.injEq]
    at performed
  obtain ⟨_, kind, _, root, _, added, rfl, rfl⟩ := performed
  obtain ⟨positive, fresh, rfl⟩ := addExitToQueue_eq_some added
  exact ⟨[_], _, rfl, .exitStarted (.deposit call kind root) positive fresh⟩

theorem startFeeExit_acts {token : Address} {amount : Word}
    (call : m.call = .startFeeExit token amount)
    (performed : startFeeExit s m.sender m.timestamp token amount =
      some (next, effects)) :
    ∃ inputs effect, effects = inputs.map Effect.hashed ++ [effect] ∧
      Acts c m s inputs effect next := by
  simp only [startFeeExit, Option.bind_eq_bind, Option.bind_eq_some_iff,
    require_eq_some, SafeMath.add_eq_some, Option.pure_def, Option.some.injEq,
    Prod.mk.injEq] at performed
  obtain ⟨_, _, _, added, _, ⟨_, rfl⟩, rfl, rfl⟩ := performed
  obtain ⟨positive, fresh, rfl⟩ := addExitToQueue_eq_some added
  exact ⟨[], _, rfl, .exitStarted (.fee call) positive fresh⟩

theorem startExit_acts {utxoPos : Word} {txBytes proof sigs rest : Bytes}
    (call : m.call = .startExit utxoPos txBytes proof sigs rest)
    (performed : startExit c s m.sender m.timestamp utxoPos txBytes proof sigs
      rest = some (next, effects)) :
    ∃ inputs effect, effects = inputs.map Effect.hashed ++ [effect] ∧
      Acts c m s inputs effect next := by
  simp only [startExit, Option.bind_eq_bind, Option.bind_eq_some_iff,
    require_eq_some, Option.pure_def, Option.some.injEq, Prod.mk.injEq]
    at performed
  obtain ⟨_, _, _, _, txSigs, _, _, _, _, _, _, checked, _, member, _, added,
    rfl, rfl⟩ := performed
  obtain ⟨positive, fresh, rfl⟩ := addExitToQueue_eq_some added
  refine ⟨_, _, rfl, .exitStarted (.utxo call ?_) positive fresh⟩
  obtain ⟨input, covered, size, digest⟩ := Merkle.climb_mem c
    (Merkle.proofElements 16 proof) (utxoPos % 1000000000 / 10000)
    (c.keccak256 (wordBytes (c.keccak256 txBytes) ++ txSigs))
    (by simp [Merkle.proofElements])
  refine ⟨input, List.mem_append_right _ covered, size, ?_⟩
  rw [Merkle.checkMembership] at checked
  split at checked
  · rw [← Option.some.inj checked] at member
    exact digest.trans (eq_of_beq member)
  · cases checked

theorem challengeExit_acts {cUtxoPos eUtxoIndex : Word}
    {txBytes proof sigs confirmationSig rest : Bytes}
    (call : m.call = .challengeExit cUtxoPos eUtxoIndex txBytes proof sigs
      confirmationSig rest)
    (performed : challengeExit c s cUtxoPos eUtxoIndex txBytes proof sigs
      confirmationSig rest = some (next, effects)) :
    ∃ inputs effect, effects = inputs.map Effect.hashed ++ [effect] ∧
      Acts c m s inputs effect next := by
  simp only [challengeExit, Option.bind_eq_bind, Option.bind_eq_some_iff,
    require_eq_some, Option.pure_def, Option.some.injEq, Prod.mk.injEq]
    at performed
  obtain ⟨_, _, _, _, _, _, _, _, rfl, rfl⟩ := performed
  exact ⟨_, _, rfl, .challenged call⟩

theorem finalizeRound_removes {exitableAt utxoPos : Word}
    {accepts : Address → Bool} {effect : Effect}
    (front : s.queue.getMin = some (exitableAt, utxoPos))
    (mature : exitableAt < m.timestamp)
    (performed : finalizeRound s m.timestamp utxoPos accepts =
      some (next, effect)) :
    Removes m s effect next := by
  simp only [finalizeRound, Option.bind_eq_bind, Option.bind_eq_some_iff,
    require_eq_some, Option.pure_def, Option.some.injEq, Prod.mk.injEq]
    at performed
  obtain ⟨_, funded, _, _, ⟨queue, split⟩, deleted, rfl, rfl⟩ := performed
  have same := PriorityQueue.getMin_of_delMin deleted
  rw [front] at same
  rw [← Option.some.inj same] at deleted
  exact .round front mature funded deleted

theorem finalizeLoop_rounds {accepts : Address → Bool} (rounds : Nat)
    {front : Word × Word} (read : s.queue.getMin = some front)
    (performed : finalizeLoop m.timestamp accepts rounds s front =
      some (next, effects)) :
    Rounds m s effects next := by
  induction rounds generalizing s front effects with
  | zero =>
      cases performed
      exact .done _
  | succ rounds induction =>
      obtain ⟨exitableAt, utxoPos⟩ := front
      rw [finalizeLoop] at performed
      split at performed
      · next mature =>
          simp only [Option.bind_eq_bind, Option.bind_eq_some_iff] at performed
          obtain ⟨⟨middle, effect⟩, first, rest⟩ := performed
          have removes := finalizeRound_removes read mature first
          split at rest
          · simp only [Option.bind_eq_some_iff, Option.pure_def,
              Option.some.injEq, Prod.mk.injEq] at rest
            obtain ⟨following, readNext, ⟨final, others⟩, loop, rfl, rfl⟩ :=
              rest
            exact .next removes (induction readNext loop)
          · cases rest
            exact .next removes (.done _)
      · cases performed
        exact .done _

/-- What a successful call does. -/
theorem perform_cases (performed : perform c s m = some (next, effects)) :
    (∃ inputs effect, effects = inputs.map Effect.hashed ++ [effect] ∧
      Acts c m s inputs effect next) ∨ Rounds m s effects next := by
  cases call : m.call with
  | deposit =>
      simp only [perform, call] at performed
      exact .inl (deposit_acts call performed)
  | submitBlock root =>
      simp only [perform, call, Option.bind_eq_bind, Option.bind_eq_some_iff]
        at performed
      exact .inl (submitBlock_acts call performed.choose_spec.2)
  | startDepositExit depositPos token amount =>
      simp only [perform, call, Option.bind_eq_bind, Option.bind_eq_some_iff]
        at performed
      exact .inl (startDepositExit_acts call performed.choose_spec.2)
  | startFeeExit token amount =>
      simp only [perform, call, Option.bind_eq_bind, Option.bind_eq_some_iff]
        at performed
      exact .inl (startFeeExit_acts call performed.choose_spec.2)
  | startExit utxoPos txBytes proof sigs rest =>
      simp only [perform, call, Option.bind_eq_bind, Option.bind_eq_some_iff]
        at performed
      exact .inl (startExit_acts call performed.choose_spec.2)
  | challengeExit cUtxoPos eUtxoIndex txBytes proof sigs confirmationSig rest =>
      simp only [perform, call, Option.bind_eq_bind, Option.bind_eq_some_iff]
        at performed
      exact .inl (challengeExit_acts call performed.choose_spec.2)
  | finalizeExits token accepts =>
      simp only [perform, call, finalizeExits, Option.bind_eq_bind,
        Option.bind_eq_some_iff] at performed
      obtain ⟨_, _, _, _, front, read, loop⟩ := performed
      exact .inr (finalizeLoop_rounds _ read loop)

/-- What any call does. -/
theorem step_cases (c : Crypto) (s : RootChain) (m : Message) :
    step c s m = (s, []) ∨
      (∃ inputs effect, (step c s m).2 =
          inputs.map Effect.hashed ++ [effect] ∧
        Acts c m s inputs effect (step c s m).1) ∨
      Rounds m s (step c s m).2 (step c s m).1 := by
  rw [step]
  cases performed : perform c s m with
  | none => exact .inl rfl
  | some result => exact .inr (perform_cases performed)

/-- Induction over runs: a property of the history and the storage that every
action and every round of finalisation keeps. -/
theorem run_induction {c : Crypto} {Ok : RootChain → Message → Prop}
    (Inv : List Effect → RootChain → Prop)
    (acts : ∀ past s m inputs effect next, Inv past s → Ok s m →
      Acts c m s inputs effect next →
        Inv (past ++ (inputs.map Effect.hashed ++ [effect])) next)
    (removes : ∀ past s m effect next, Inv past s →
      Removes m s effect next → Inv (past ++ [effect]) next)
    {start : RootChain} (initially : Inv [] start) {messages : List Message}
    (meets : StepsMeet (step c) Ok start messages) :
    Inv (execute (step c) start messages).2
      (execute (step c) start messages).1 := by
  have rounds : ∀ m s effects next, Rounds m s effects next →
      ∀ past, Inv past s → Inv (past ++ effects) next := by
    intro m s effects next taken
    induction taken with
    | done s =>
        intro past holds
        simpa using holds
    | next first rest induction =>
        intro past holds
        have later := induction _ (removes past _ m _ _ holds first)
        simpa using later
  refine execute_induction (step c) Ok (fun _ s past => Inv past s) ?_
    initially meets
  intro _ s past m holds admitted
  rcases step_cases c s m with same | ⟨inputs, effect, emitted, act⟩ | taken
  · rw [same]
    simpa using holds
  · rw [emitted]
    exact acts past s m inputs effect _ holds admitted act
  · exact rounds m s _ _ taken past holds

end RootChain

/-!
## A sample network

The operator deposits, spends the deposit in a child block and exits.  The
tables hold the Keccak digests and the signatures of the byte strings used in
concrete runs; the Merkle path of the child block has empty siblings.
-/

namespace Sample

def alice : Address := 0x71562b71999873db5b286df957af199ec94617f7

def bob : Address := 0x703c4b2bd70c169f5717101caee543299fc946c7

def start : Word := 1528684688

/-- The transaction that pays the output of deposit block 1 to the
recipient. -/
def spendPayloads : List Bytes :=
  [[1], [], [], [], [], [], addressBytes 0, addressBytes bob, [5],
    addressBytes 0, []]

def spendBytes : Bytes :=
  Rlp.encodeList (spendPayloads.map Rlp.encodeString)

def spendHash : Hash :=
  0x9b68291d413cb2e90fb752c22d2f0c3eb3e64fc2c6cfc043958d694cbcb8a272

def spendSigs : Bytes :=
  bigEndian 32
      0x2be64ff2bb5c82a092f88d8e1802bf45d5ca7af4275fd973df230cb2b89eafcc ++
    bigEndian 32
      0x792d961251c01b1bf9154f8f1b9ceca0bf98f80720cc73e5e02285114aa7a911 ++
    [27] ++ List.replicate 65 0

/-- The nodes from the leaf of the transaction to the root of its block. -/
def path : List Hash :=
  [0xc090456a8fb648dcd30bce90362ea02e1f5fbe75de6f7b693809d89c3eee4a47,
    0x670bb0d34ecd57ea965395c2f2b97298a5223f20b5d40a53eb62427b87869eb4,
    0xda45e8293c3117ba2946b3e0e7b280d7dd9a31baae93249a7155000cff69a553,
    0x1e75e61f87a4b3b5fb2a80274f8b98abee164b2f7cb769253d164adc06d04529,
    0x2ca93e3289b1f260a172ac0703e84e41a215cc70ca5f4154b78b67dc648b140b,
    0xf88029588486dbec4f4733f2e3b13f483a5b2d82a7b582fc95615751335b6d25,
    0x5159a38d1e6e96c456d9f3a3286c9a4db9cf6ef64c4d0a37b540066cac0c5ae3,
    0x4fafddca5e552c424b1623393d50c30f85faf77599fa79ab15d7d0b4bc3604e0,
    0x760e5ce488a327e4e6f4dd07d8989f8affbaab8705c7f2bab01eb7e88cafe9a1,
    0xda07ebe48afeaf0051a2d146618a74da932dd162c970d0dfae99eba7cdec3642,
    0x0bc4f6144edc3c6af9a1470a547fa8c13949571197613d6d5fc5fed2d1909c3f,
    0x0c6224437940916bc64dfbd994ae8bcb087d38fd66a8d9007925bf096b04977d,
    0x40be10bb594c796f7c957129891cdaaaa719904aec58686848cb3a9bbc7a7cbd,
    0x1abdd86f825c7e77b4564cdef5861a118d19222076b199ae126b8c659e9e7923,
    0xb59d140867b78a0bdc246617e8fb0d676e480a26ea3d5bb328f86b6a9b0d4792,
    0x0aada63857deff4ec34ad417b2456a60121a3e39b44161c967b3300bcaab0d66,
    0x36c330c7fb6734f9cb5347a0f64d7ab88c925fc0058639bbc9d7daea4db20251]

def spendRoot : Hash :=
  0x36c330c7fb6734f9cb5347a0f64d7ab88c925fc0058639bbc9d7daea4db20251

def confirmationHash : Hash :=
  0xd09af4295b8ccf96f527755a6f01134386c8d270d4d06f1bb64749952d491fb2

def confirmationSig : Bytes :=
  bigEndian 32
      0x886f098678b42f30e2a64658ccab5163d4a47178e9109aeb9eaabff0850ed7a4 ++
    bigEndian 32
      0x2e0e63629acfa338ef23fe60b093f2df4825dd08b35b6ec2a24660fe34e66a9f ++
    [27]

def proof : Bytes := List.replicate 512 0

def digests : List (Bytes × Hash) :=
  [(depositInput alice 0 5,
      0x0891eedf424f5706c59ee36e1a24788c3a0f1fb3dc60f4393be76a98ec3f6af7),
    (depositInput bob 0 7,
      0xf2a385a412bea12f751d8c51cf7e016db491c94bb189fcfe5fb94f378d96a3f0),
    (spendBytes, spendHash),
    (wordBytes spendHash ++ spendSigs, path.headD 0),
    (wordBytes spendHash ++ wordBytes spendRoot, confirmationHash)] ++
  (path.zip path.tail).map fun link => (wordBytes link.1 ++ wordBytes 0, link.2)

def crypto : Crypto :=
  { keccak256 := fun input =>
      ((digests.find? fun entry => entry.1 = input).map Prod.snd).getD 0
    ecrecover := fun hash v r s =>
      if v = 27 ∧
        ((hash = spendHash ∧
            r = 0x2be64ff2bb5c82a092f88d8e1802bf45d5ca7af4275fd973df230cb2b89eafcc ∧
            s = 0x792d961251c01b1bf9154f8f1b9ceca0bf98f80720cc73e5e02285114aa7a911) ∨
          (hash = confirmationHash ∧
            r = 0x886f098678b42f30e2a64658ccab5163d4a47178e9109aeb9eaabff0850ed7a4 ∧
            s = 0x2e0e63629acfa338ef23fe60b093f2df4825dd08b35b6ec2a24660fe34e66a9f))
      then alice
      else 0 }

/-- A call without a value, some seconds after the start. -/
def message (sender : Address) (seconds : Word) (call : Call) : Message :=
  { sender := sender
    value := 0
    timestamp := start + seconds
    call := call }

def depositMessage (sender : Address) (value : Word) : Message :=
  { sender := sender
    value := value
    timestamp := start
    call := .deposit }

def submitMessage : Message := message alice 10 (.submitBlock spendRoot)

def depositExit (depositPos : Word) : Message :=
  message alice 20 (.startDepositExit depositPos 0 5)

/-- The exit of the first output of the transaction. -/
def utxoExit (utxoPos : Word) : Message :=
  message bob 25 (.startExit utxoPos spendBytes proof
    (spendSigs ++ confirmationSig) [])

def feeExit : Message := message alice 30 (.startFeeExit 0 3)

def challenge : Message :=
  message bob 40 (.challengeExit 1000000000000 0 spendBytes proof spendSigs
    confirmationSig [])

def finalize : Message :=
  message bob (weeks 3) (.finalizeExits 0 fun _ => true)

end Sample

end Plasma.Contract
