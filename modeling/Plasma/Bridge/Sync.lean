import Plasma.Bridge.Download
import Plasma.Core.Replay

/-!
# Syncing a validator

A validator writes the blocks its peers gossip and runs `downloadBlocks`
beside it.  The contract, the gossip and the loop take their steps in any
order; a call of `WriteBlock` is one step.  Peers come and go, and every query
of the root chain may fail.
-/

namespace Plasma.Bridge

open Plasma.Core Plasma.Contract Plasma.Lib

/-- Where `downloadBlocks` stands.  The numbers a pass has passed over without
a peer are remembered for the statements only. -/
inductive DownloadLoop where
  | idle (currentBlockNum : Int)
  | counting (currentBlockNum : Int) (first : RootChain)
  | ready (maxBlockNum : Int)
  | running (blockNum maxBlockNum currentBlockNum : Int) (missed : List Int)
  | fetching (blockNum maxBlockNum currentBlockNum : Int) (missed : List Int)
  | returned

namespace DownloadLoop

/-- The first counter of `getMaxBlockNum`; an error ends the loop. -/
def readChild (answered : Bool) (contract : RootChain) :
    DownloadLoop → DownloadLoop
  | .idle currentBlockNum =>
      if answered then .counting currentBlockNum contract else .returned
  | loop => loop

/-- The second counter, and the decision whether there is something to
download. -/
def readDeposit (answered : Bool) (contract : RootChain) :
    DownloadLoop → DownloadLoop
  | .counting currentBlockNum first =>
      let maxBlockNum := getMaxBlockNum first contract
      if answered then
        if currentBlockNum ≥ maxBlockNum then .idle currentBlockNum
        else .ready maxBlockNum
      else .returned
  | loop => loop

def beginPass (head : Int) : DownloadLoop → DownloadLoop
  | .ready maxBlockNum =>
      .running (wrap64 (int64 head + 1)) maxBlockNum (int64 head) []
  | loop => loop

/-- The head of the inner loop.  The error of the query is not looked at, so a
failed one reads as no root. -/
def query (answered : Bool) (contract : RootChain) (head : Int) :
    DownloadLoop → DownloadLoop
  | .running blockNum maxBlockNum currentBlockNum missed =>
      if blockNum ≤ maxBlockNum then
        let root :=
          if answered then getRootChainBlockByBlockNum contract blockNum else 0
        if root = 0 then
          .running (wrap64 (jump blockNum + 1)) maxBlockNum (int64 head) missed
        else .fetching blockNum maxBlockNum (int64 head) missed
      else .idle currentBlockNum
  | loop => loop

/-- One round of the loop is one round of `requests`, when every query is
answered. -/
theorem query_requests (contract : Nat → RootChain) (rounds clock : Nat)
    (head blockNum maxBlockNum currentBlockNum : Int) (missed : List Int) :
    (∃ next, query true (contract clock) head
          (.running blockNum maxBlockNum currentBlockNum missed) =
            .running next maxBlockNum (int64 head) missed ∧
        requests (fun clock => getRootChainBlockByBlockNum (contract clock))
            maxBlockNum (rounds + 1) clock blockNum =
          requests (fun clock => getRootChainBlockByBlockNum (contract clock))
            maxBlockNum rounds (clock + 1) next) ∨
      (query true (contract clock) head
          (.running blockNum maxBlockNum currentBlockNum missed) =
            .fetching blockNum maxBlockNum (int64 head) missed ∧
        requests (fun clock => getRootChainBlockByBlockNum (contract clock))
            maxBlockNum (rounds + 1) clock blockNum =
          (requests (fun clock => getRootChainBlockByBlockNum (contract clock))
            maxBlockNum rounds (clock + 1) (wrap64 (blockNum + 1))).map
              (blockNum :: ·)) ∨
      (query true (contract clock) head
          (.running blockNum maxBlockNum currentBlockNum missed) =
            .idle currentBlockNum ∧
        requests (fun clock => getRootChainBlockByBlockNum (contract clock))
          maxBlockNum (rounds + 1) clock blockNum = some []) := by
  rw [query, requests]
  by_cases inside : blockNum ≤ maxBlockNum
  · rw [if_pos inside, if_pos inside]
    by_cases empty :
        getRootChainBlockByBlockNum (contract clock) blockNum = 0
    · left
      exact ⟨wrap64 (jump blockNum + 1), by simp [empty], if_pos empty⟩
    · right
      left
      exact ⟨by simpa using empty, if_neg empty⟩
  · rw [if_neg inside, if_neg inside]
    exact .inr (.inr ⟨rfl, rfl⟩)

def passOver : DownloadLoop → DownloadLoop
  | .fetching blockNum maxBlockNum currentBlockNum missed =>
      .running (wrap64 (blockNum + 1)) maxBlockNum currentBlockNum
        (blockNum :: missed)
  | loop => loop

/-- The loop goes on after a written block and ends with any error. -/
def fetched (written : Bool) : DownloadLoop → DownloadLoop
  | .fetching blockNum maxBlockNum currentBlockNum missed =>
      if written then
        .running (wrap64 (blockNum + 1)) maxBlockNum currentBlockNum missed
      else .returned
  | loop => loop

def startsPass : DownloadLoop → Bool
  | .ready _ => true
  | .idle _ => false
  | .counting _ _ => false
  | .running _ _ _ _ => false
  | .fetching _ _ _ _ => false
  | .returned => false

def requested : DownloadLoop → Option Int
  | .fetching blockNum _ _ _ => some blockNum
  | .idle _ => none
  | .counting _ _ => none
  | .ready _ => none
  | .running _ _ _ _ => none
  | .returned => none

def missed : DownloadLoop → List Int
  | .running _ _ _ missed => missed
  | .fetching _ _ _ missed => missed
  | .idle _ => []
  | .counting _ _ => []
  | .ready _ => []
  | .returned => []

/-- The numbers the running pass has still to look at. -/
def Ahead (number : Int) : DownloadLoop → Prop
  | .running blockNum maxBlockNum _ _ =>
      blockNum ≤ number ∧ number ≤ maxBlockNum
  | .fetching blockNum maxBlockNum _ _ =>
      blockNum ≤ number ∧ number ≤ maxBlockNum
  | .idle _ => False
  | .counting _ _ => False
  | .ready _ => False
  | .returned => False

end DownloadLoop

/-- The validator, the calls the contract has taken, and the loop. -/
structure SyncState where
  validator : Validator
  calls : List Message
  loop : DownloadLoop

/-- What a request for a block leads to: there is no peer, the response is no
block, or a block is handed to `WriteBlock`. -/
inductive PeerAnswer where
  | noPeer
  | noBlock
  | block (busy disk : Bool) (block : Block)

inductive SyncStep where
  | gossip (busy disk : Bool) (block : Block)
  | contract (message : Message)
  | readChild (answered : Bool)
  | readDeposit (answered : Bool)
  | beginPass
  | query (answered : Bool)
  | fetch (answer : PeerAnswer)

namespace SyncState

def head (s : SyncState) : Int := s.validator.chain.currentBlock.number

def withLoop (s : SyncState) (loop : DownloadLoop) : SyncState :=
  { s with loop := loop }

def Has (s : SyncState) (number : Int) : Prop :=
  ∃ hash, StoredAt s.validator.chain.db.db (uint64 number) hash

end SyncState

section Machine

variable (c : Crypto) (deployer : Address) (p : Primitives)
  (signer : EIP155Signer)

/-- `WriteBlock` of a received block; `busy` tells that a transaction of
another goroutine is open. -/
def receive (busy disk : Bool) (v : Validator) (block : Block) :
    Validator × List NodeEvent × Except WriteError Unit :=
  if busy then (v, [], .error .databaseRace)
  else v.writeBlock p signer disk block

def syncStep (s : SyncState) : SyncStep → SyncState × List NodeEvent
  | .gossip busy disk block =>
      let (v, events, _) := receive p signer busy disk s.validator block
      ({ s with validator := v }, events)
  | .contract message => ({ s with calls := s.calls ++ [message] }, [])
  | .readChild answered =>
      (s.withLoop (s.loop.readChild answered
        (contractAfter c deployer s.calls)), [])
  | .readDeposit answered =>
      (s.withLoop (s.loop.readDeposit answered
        (contractAfter c deployer s.calls)), [])
  | .beginPass => (s.withLoop (s.loop.beginPass s.head), [])
  | .query answered =>
      (s.withLoop (s.loop.query answered (contractAfter c deployer s.calls)
        s.head), [])
  | .fetch .noPeer => (s.withLoop s.loop.passOver, [])
  | .fetch .noBlock => (s.withLoop (s.loop.fetched false), [])
  | .fetch (.block busy disk block) =>
      if s.loop.requested.isSome then
        let (v, events, result) := receive p signer busy disk s.validator block
        ({ s with validator := v, loop := s.loop.fetched result.isOk }, events)
      else (s, [])

end Machine

section Conditions

variable (c : Crypto) (deployer : Address) (p : Primitives)
  (signer : EIP155Signer)

def SyncState.registered (s : SyncState) : List Nat :=
  registeredNumbers (historyAfter c deployer s.calls)

/-- Every number up to the head that has a root is in the database. -/
def NoGaps (s : SyncState) : Prop :=
  ∀ number : Word,
    ((contractAfter c deployer s.calls).childChain number).root ≠ 0 →
      (number.toNat : Int) ≤ s.head → s.Has number.toNat

/-- The block passes its path and becomes the head. -/
def Raises (s : SyncState) (busy : Bool) (block : Block) : Prop :=
  busy = false ∧ s.validator.chain.verdict p signer block = .ok () ∧
    s.head < block.number

/-- A block that arrives has been decoded, so that it has an encoding, and a
peer answers with the block it was asked for. -/
def Honest (s : SyncState) : SyncStep → Prop
  | .fetch (.block _ _ block) => block.encodes = true ∧
      (s.loop.requested = none ∨ s.loop.requested = some block.number)
  | .fetch .noPeer => True
  | .fetch .noBlock => True
  | .gossip _ _ block => block.encodes = true
  | .contract _ => True
  | .readChild _ => True
  | .readDeposit _ => True
  | .beginPass => True
  | .query _ => True

/-- A gossiped block may raise the head over registered numbers only if they
are in the database or the running pass comes to them. -/
def SafeGossip (s : SyncState) (busy disk : Bool) (block : Block) : Prop :=
  Raises p signer s busy block →
    ∀ number ∈ s.registered c deployer, s.head < number →
      (number : Int) ≤ block.number →
        s.Has number ∨ s.loop.Ahead number ∨
          ((number : Int) = block.number ∧ disk = true)

/-- The contract registers roots above the head or under numbers that are
already in the database. -/
def SafeCall (s : SyncState) (message : Message) : Prop :=
  ∀ entry ∈ registrations
      (RootChain.step c (contractAfter c deployer s.calls) message).2,
    entry.2.root ≠ 0 ∧
      (s.head < entry.1.toNat ∨ s.Has entry.1.toNat)

/-- Without a peer the loop passes over numbers that lie above the head or are
already in the database. -/
def SafePass (s : SyncState) : Prop :=
  ∀ number, s.loop.requested = some number →
    s.head < number ∨ s.Has number

/-- A download may raise the head only if the numbers the pass has passed over
have arrived by gossip. -/
def SafeDownload (s : SyncState) (busy disk : Bool) (block : Block) : Prop :=
  Raises p signer s busy block → disk = true →
    ∀ number ∈ s.loop.missed, s.Has number

/-- The condition on every step.  The numbers of the contract and of the head
stay in the range of the loop variables. -/
def Safe (s : SyncState) : SyncStep → Prop
  | .gossip busy disk block => SafeGossip c deployer p signer s busy disk block
  | .contract message => SafeCall c deployer s message
  | .readChild _ =>
      (contractAfter c deployer s.calls).currentChildBlock.toNat <
        2 ^ 63
  | .readDeposit _ => True
  | .beginPass => s.head + 1 < 2 ^ 63
  | .query answered => answered = true
  | .fetch .noPeer => SafePass s
  | .fetch .noBlock => True
  | .fetch (.block busy disk block) => SafeDownload p signer s busy disk block

end Conditions

section Reading

variable {c : Crypto} {deployer : Address}

/-- The largest number as it was read at two earlier times. -/
def MaxRead (c : Crypto) (deployer : Address) (calls : List Message)
    (maxBlockNum : Int) : Prop :=
  ∃ before after, before <+: after ∧ after <+: calls ∧
    (contractAfter c deployer before).currentChildBlock.toNat <
        2 ^ 63 ∧
      maxBlockNum = getMaxBlockNum (contractAfter c deployer before)
        (contractAfter c deployer after)

namespace MaxRead

variable {calls later : List Message} {maxBlockNum : Int}

theorem mono (read : MaxRead c deployer calls maxBlockNum)
    (grows : calls <+: later) : MaxRead c deployer later maxBlockNum := by
  obtain ⟨before, after, first, second, fits, rfl⟩ := read
  exact ⟨before, after, first, second.trans grows, fits, rfl⟩

theorem small (read : MaxRead c deployer calls maxBlockNum) :
    maxBlockNum / 1000 * 1000 + 1000 < 2 ^ 63 := by
  obtain ⟨before, after, first, _, fits, rfl⟩ := read
  exact (settled_of_le_max first fits).1

theorem stable (read : MaxRead c deployer calls maxBlockNum)
    (grows : calls <+: later) {number : Nat}
    (below : (number : Int) ≤ maxBlockNum) :
    number ∈ registeredNumbers (historyAfter c deployer later) ↔
      number ∈ registeredNumbers (historyAfter c deployer calls) := by
  obtain ⟨before, after, first, second, fits, rfl⟩ := read
  have settled := (settled_of_le_max first fits).2 number (by omega) below
  rw [Int.toNat_natCast] at settled
  rw [registered_stable (second.trans grows) settled,
    registered_stable second settled]

/-- Up to the largest number, a number that is not registered ends its
interval. -/
theorem gap (read : MaxRead c deployer calls maxBlockNum) {number other : Nat}
    (positive : 1 ≤ number) (unregistered : number ∉
      registeredNumbers (historyAfter c deployer calls))
    (above : number ≤ other) (below : (other : Int) ≤ maxBlockNum)
    (inGap : other < number / 1000 * 1000 + 1000) :
    other ∉ registeredNumbers (historyAfter c deployer calls) := by
  have numberBelow : (number : Int) ≤ maxBlockNum := by omega
  obtain ⟨before, after, first, second, fits, rfl⟩ := read
  obtain ⟨counts, registered⟩ := RootChain.registered_run c deployer after
  have settled :=
    (settled_of_le_max first fits).2 number (by omega) numberBelow
  have otherSettled :=
    (settled_of_le_max first fits).2 other (by omega) below
  rw [Int.toNat_natCast] at settled otherSettled
  rw [registered_stable second settled] at unregistered
  rw [registered_stable second otherSettled]
  exact unregistered_gap (numbered_after c deployer after) registered positive
    settled unregistered above inGap

end MaxRead

end Reading

section Receiving

variable (p : Primitives) (signer : EIP155Signer)

/-- A received block is refused, or becomes the head although its commit
fails, or is written. -/
theorem receive_cases (busy disk : Bool) {v : Validator}
    (idle : v.chain.db.Idle) (block : Block) :
    ((receive p signer busy disk v block).1.chain.db = v.chain.db ∧
        (receive p signer busy disk v block).2.2.isOk = false ∧
        ((receive p signer busy disk v block).1.chain.currentBlock =
            v.chain.currentBlock ∨
          ((busy = false ∧ v.chain.verdict p signer block = .ok () ∧
              v.chain.currentBlock.number < block.number) ∧ disk = false ∧
            (receive p signer busy disk v block).1.chain.currentBlock =
              block))) ∨
      ((receive p signer busy disk v block).1.chain.db =
          ⟨applyAll (v.chain.writeBatch p block) v.chain.db.db, false, []⟩ ∧
        (receive p signer busy disk v block).2.2.isOk = true ∧
        (busy = false ∧ v.chain.verdict p signer block = .ok () ∧
          disk = true) ∧
        (receive p signer busy disk v block).1.chain.currentBlock =
          if block.number > v.chain.currentBlock.number then block
          else v.chain.currentBlock) := by
  cases busy with
  | true =>
      left
      exact ⟨rfl, rfl, .inl rfl⟩
  | false =>
      have written : receive p signer false disk v block =
          v.writeBlock p signer disk block := rfl
      rw [written, Validator.writeBlock]
      rcases BlockChain.writeWith_head p
          (Validator.buffersDeletions_removeInputs disk) signer disk v.chain
          block idle with
        ⟨same, _, ⟨failure, failed⟩, _, current⟩ |
          ⟨applied, outcome, verdict, commits, current⟩
      · left
        refine ⟨same, congrArg Except.isOk failed, ?_⟩
        rcases current with kept | ⟨verdict, failed, raises, taken⟩
        · exact .inl kept
        · exact .inr ⟨⟨rfl, verdict, raises⟩, failed, taken⟩
      · right
        have success := congrArg (fun result => result.2.isOk) outcome
        exact ⟨applied, success, ⟨rfl, verdict, commits⟩, current⟩

theorem receive_idle (busy disk : Bool) {v : Validator}
    (idle : v.chain.db.Idle) (block : Block) :
    (receive p signer busy disk v block).1.chain.db.Idle := by
  rcases receive_cases p signer busy disk idle block with
    ⟨same, _, _⟩ | ⟨applied, _, _, _⟩
  · rw [same]
    exact idle
  · rw [applied]
    exact ⟨rfl, rfl⟩

theorem receive_storedAt (busy disk : Bool) {v : Validator}
    (idle : v.chain.db.Idle) {block : Block} (encodes : block.encodes = true)
    {number : UInt64} {hash : Hash}
    (stored : StoredAt v.chain.db.db number hash) :
    StoredAt (receive p signer busy disk v block).1.chain.db.db number hash := by
  rcases receive_cases p signer busy disk idle block with
    ⟨same, _, _⟩ | ⟨applied, _, ⟨_, verdict, _⟩, _⟩
  · rw [same]
    exact stored
  · rw [applied]
    exact BlockChain.storedAt_writeBatch verdict
      (Block.storable_of_encodes encodes) (.inr stored)

end Receiving

section Invariant

variable (c : Crypto) (deployer : Address)

/-- The registered numbers a pass has left behind are in the database or were
passed over. -/
def Visited (s : SyncState) (blockNum maxBlockNum : Int)
    (missed : List Int) : Prop :=
  ∀ number ∈ s.registered c deployer, (number : Int) < blockNum →
    (number : Int) ≤ maxBlockNum → s.Has number ∨ (number : Int) ∈ missed

/-- What the variables of the loop stand for. -/
def LoopReads (s : SyncState) : DownloadLoop → Prop
  | .idle _ => True
  | .counting _ first =>
      ∃ before, before <+: s.calls ∧
        (contractAfter c deployer before).currentChildBlock.toNat <
          2 ^ 63 ∧ first = contractAfter c deployer before
  | .ready maxBlockNum => MaxRead c deployer s.calls maxBlockNum
  | .running blockNum maxBlockNum _ missed =>
      MaxRead c deployer s.calls maxBlockNum ∧ 1 ≤ blockNum ∧
        Visited c deployer s blockNum maxBlockNum missed
  | .fetching blockNum maxBlockNum _ missed =>
      (MaxRead c deployer s.calls maxBlockNum ∧ 1 ≤ blockNum ∧
        Visited c deployer s blockNum maxBlockNum missed) ∧
          blockNum ≤ maxBlockNum
  | .returned => True

/-- Up to the head, every registered number is in the database or ahead of the
running pass. -/
def Covered (s : SyncState) : Prop :=
  ∀ number ∈ s.registered c deployer, (number : Int) ≤ s.head →
    s.Has number ∨ s.loop.Ahead number

structure Synced (s : SyncState) : Prop where
  idle : s.validator.chain.db.Idle
  nonneg : 0 ≤ s.head
  roots : ∀ entry ∈ registrations (historyAfter c deployer s.calls),
    entry.2.root ≠ 0
  reads : LoopReads c deployer s s.loop
  covered : s.loop ≠ .returned → Covered c deployer s

end Invariant

section Preservation

variable {c : Crypto} {deployer : Address} {p : Primitives}
  {signer : EIP155Signer} {s t : SyncState}

def SyncState.received (p : Primitives) (signer : EIP155Signer)
    (s : SyncState) (busy disk : Bool) (block : Block) : SyncState :=
  { s with validator := (receive p signer busy disk s.validator block).1 }

/-- The reads of the loop stay valid when the contract goes on and blocks are
added to the database. -/
theorem LoopReads.mono {loop : DownloadLoop}
    (reads : LoopReads c deployer s loop) (grows : s.calls <+: t.calls)
    (keeps : ∀ number, s.Has number → t.Has number) :
    LoopReads c deployer t loop := by
  have visited : ∀ blockNum maxBlockNum missed,
      MaxRead c deployer s.calls maxBlockNum →
        Visited c deployer s blockNum maxBlockNum missed →
          Visited c deployer t blockNum maxBlockNum missed := by
    intro blockNum maxBlockNum missed read before number member below upTo
    have earlier := (read.stable grows upTo).mp member
    exact (before number earlier below upTo).imp_left (keeps number)
  cases loop with
  | idle currentBlockNum => trivial
  | counting currentBlockNum first =>
      obtain ⟨before, past, fits, same⟩ := reads
      exact ⟨before, past.trans grows, fits, same⟩
  | ready maxBlockNum => exact MaxRead.mono reads grows
  | running blockNum maxBlockNum currentBlockNum missed =>
      obtain ⟨read, positive, before⟩ := reads
      exact ⟨read.mono grows, positive, visited _ _ _ read before⟩
  | fetching blockNum maxBlockNum currentBlockNum missed =>
      obtain ⟨⟨read, positive, before⟩, inside⟩ := reads
      exact ⟨⟨read.mono grows, positive, visited _ _ _ read before⟩, inside⟩
  | returned => trivial

section Received

variable (p : Primitives) (signer : EIP155Signer) (busy disk : Bool)
  (idle : s.validator.chain.db.Idle) (block : Block)

include idle in
theorem has_received (encodes : block.encodes = true) {number : Int} (has : s.Has number) :
    (s.received p signer busy disk block).Has number := by
  obtain ⟨hash, stored⟩ := has
  exact ⟨hash, receive_storedAt p signer busy disk idle encodes stored⟩

include idle in
theorem has_of_written (encodes : block.encodes = true)
    (written : (receive p signer busy disk s.validator block).2.2.isOk =
      true) :
    disk = true ∧ (s.received p signer busy disk block).Has block.number := by
  rcases receive_cases p signer busy disk idle block with
    ⟨_, refused, _⟩ | ⟨applied, _, ⟨_, verdict, commits⟩, _⟩
  · rw [refused] at written
    cases written
  · refine ⟨commits, block.hash p, ?_⟩
    change StoredAt (receive p signer busy disk s.validator
      block).1.chain.db.db _ _
    rw [applied]
    exact BlockChain.storedAt_writeBatch verdict
      (Block.storable_of_encodes encodes) (.inl ⟨rfl, rfl, encodes⟩)

include idle in
theorem head_received :
    (s.received p signer busy disk block).head = s.head ∨
      (Raises p signer s busy block ∧
        (s.received p signer busy disk block).head = block.number ∧
        (disk = true →
          (receive p signer busy disk s.validator block).2.2.isOk = true)) := by
  rcases receive_cases p signer busy disk idle block with
    ⟨_, _, same | ⟨raises, failed, head⟩⟩ |
      ⟨_, written, ⟨free, accepted, _⟩, head⟩
  · exact .inl (congrArg Block.number same)
  · refine .inr ⟨raises, congrArg Block.number head, ?_⟩
    intro commits
    rw [failed] at commits
    cases commits
  · by_cases raises : block.number > s.validator.chain.currentBlock.number
    · rw [if_pos raises] at head
      exact .inr ⟨⟨free, accepted, raises⟩, congrArg Block.number head,
        fun _ => written⟩
    · rw [if_neg raises] at head
      exact .inl (congrArg Block.number head)

include idle in
theorem head_le_received :
    s.head ≤ (s.received p signer busy disk block).head := by
  rcases head_received p signer busy disk idle block with
    same | ⟨⟨_, _, raises⟩, head, _⟩
  · exact same.ge
  · rw [head]
    exact raises.le

end Received

theorem Synced.gossip (synced : Synced c deployer s) {busy disk : Bool}
    {block : Block} (encodes : block.encodes = true)
    (safe : SafeGossip c deployer p signer s busy disk block) :
    Synced c deployer (s.received p signer busy disk block) := by
  have keeps : ∀ number : Int, s.Has number →
      (s.received p signer busy disk block).Has number := fun _ has =>
    has_received p signer busy disk synced.idle block encodes has
  refine ⟨receive_idle p signer busy disk synced.idle block, ?_, synced.roots,
    synced.reads.mono (List.prefix_refl _) keeps, ?_⟩
  · exact synced.nonneg.trans (head_le_received p signer busy disk
      synced.idle block)
  · intro active number registered below
    by_cases earlier : (number : Int) ≤ s.head
    · exact (synced.covered active number registered earlier).imp_left
        (keeps number)
    · rcases head_received p signer busy disk synced.idle block with
        same | ⟨raises, head, commits⟩
      · rw [same] at below
        exact (earlier below).elim
      · rw [head] at below
        rcases safe raises number registered (by omega) below with
          has | ahead | ⟨same, durable⟩
        · exact .inl (keeps number has)
        · exact .inr ahead
        · left
          rw [same]
          exact (has_of_written p signer busy disk synced.idle block encodes
            (commits durable)).2

theorem historyAfter_concat (calls : List Message) (message : Message) :
    historyAfter c deployer (calls ++ [message]) =
      historyAfter c deployer calls ++
        (RootChain.step c (contractAfter c deployer calls) message).2 := by
  simp [historyAfter, contractAfter, execute_append]

theorem Synced.contract (synced : Synced c deployer s) {message : Message}
    (safe : SafeCall c deployer s message) :
    Synced c deployer { s with calls := s.calls ++ [message] } := by
  refine ⟨synced.idle, synced.nonneg, ?_, ?_, ?_⟩
  · intro entry member
    rw [historyAfter_concat, registrations_append, List.mem_append] at member
    rcases member with earlier | new
    · exact synced.roots entry earlier
    · exact (safe entry new).1
  · exact synced.reads.mono (List.prefix_append _ _) fun _ has => has
  · intro active number registered below
    rw [SyncState.registered, registeredNumbers, historyAfter_concat,
      registrations_append, List.map_append, List.mem_append] at registered
    rcases registered with earlier | new
    · exact synced.covered active number earlier below
    · obtain ⟨entry, member, rfl⟩ := List.mem_map.mp new
      rcases (safe entry member).2 with above | has
      · have notAbove : ¬ s.head < entry.1.toNat := not_lt.mpr below
        exact (notAbove above).elim
      · exact .inl has

/-- A step of the loop alone has to keep its reads and the coverage. -/
theorem Synced.loop (synced : Synced c deployer s) {loop : DownloadLoop}
    (reads : LoopReads c deployer s loop)
    (covered : loop ≠ .returned → Covered c deployer (s.withLoop loop)) :
    Synced c deployer (s.withLoop loop) := by
  refine ⟨synced.idle, synced.nonneg, synced.roots, ?_, covered⟩
  exact reads.mono (List.prefix_refl _) fun _ has => has

/-- Outside a pass every registered number up to the head is in the
database. -/
theorem Synced.has (synced : Synced c deployer s)
    (active : s.loop ≠ .returned)
    (outside : ∀ number, ¬ s.loop.Ahead number) {number : Nat}
    (registered : number ∈ s.registered c deployer)
    (below : (number : Int) ≤ s.head) : s.Has number :=
  (synced.covered active number registered below).resolve_right
    (outside number)

theorem Synced.stay (synced : Synced c deployer s) {loop : DownloadLoop}
    (same : s.loop = loop) : Synced c deployer (s.withLoop loop) := by
  subst same
  exact synced

theorem Synced.returned (synced : Synced c deployer s) :
    Synced c deployer (s.withLoop .returned) :=
  synced.loop trivial fun active => (active rfl).elim

theorem Synced.readChild (synced : Synced c deployer s) {answered : Bool}
    (fits : (contractAfter c deployer s.calls).currentChildBlock.toNat <
      2 ^ 63) :
    Synced c deployer (s.withLoop (s.loop.readChild answered
      (contractAfter c deployer s.calls))) := by
  cases current : s.loop with
  | idle currentBlockNum =>
      cases answered with
      | true =>
          refine synced.loop ⟨s.calls, List.prefix_refl _, fits, rfl⟩ ?_
          intro _ number registered below
          exact .inl (synced.has (by simp [current])
            (by simp [current, DownloadLoop.Ahead]) registered below)
      | false => exact synced.returned
  | _ => exact synced.stay current

theorem Synced.readDeposit (synced : Synced c deployer s) (answered : Bool) :
    Synced c deployer (s.withLoop (s.loop.readDeposit answered
      (contractAfter c deployer s.calls))) := by
  cases current : s.loop with
  | counting currentBlockNum first =>
      have reads := synced.reads
      rw [current] at reads
      obtain ⟨before, past, fits, rfl⟩ := reads
      have covered : ∀ next, Covered c deployer (s.withLoop next) := by
        intro next number registered below
        exact .inl (synced.has (by simp [current])
          (by simp [current, DownloadLoop.Ahead]) registered below)
      cases answered with
      | true =>
          simp only [DownloadLoop.readDeposit, if_true]
          split
          · exact synced.loop trivial fun _ => covered _
          · refine synced.loop ?_ fun _ => covered _
            exact ⟨before, s.calls, past, List.prefix_refl _, fits, rfl⟩
      | false => exact synced.returned
  | _ => exact synced.stay current

theorem Synced.beginPass (synced : Synced c deployer s)
    (small : s.head + 1 < 2 ^ 63) :
    Synced c deployer (s.withLoop (s.loop.beginPass s.head)) := by
  cases current : s.loop with
  | ready maxBlockNum =>
      have read := synced.reads
      rw [current] at read
      have nonneg := synced.nonneg
      have has : ∀ number ∈ s.registered c deployer,
          (number : Int) ≤ s.head → s.Has number := by
        intro number registered below
        exact synced.has (by simp [current])
          (by simp [current, DownloadLoop.Ahead]) registered below
      have first : wrap64 (int64 s.head + 1) = s.head + 1 := by
        rw [int64_of_small nonneg (by omega),
          wrap64_of_small (by omega) (by omega)]
      refine synced.loop ⟨read, ?_, ?_⟩ ?_
      · rw [first]
        omega
      · intro number registered below _
        rw [first] at below
        exact .inl (has number registered (by omega))
      · intro _ number registered below
        exact .inl (has number registered below)
  | _ => exact synced.stay current

/-- Where no root is found, the pass jumps over numbers that are not
registered. -/
theorem Synced.unregistered (synced : Synced c deployer s)
    {blockNum maxBlockNum : Int}
    (read : MaxRead c deployer s.calls maxBlockNum) (positive : 1 ≤ blockNum)
    (inside : blockNum ≤ maxBlockNum)
    (empty : getRootChainBlockByBlockNum (contractAfter c deployer s.calls)
      blockNum = 0)
    {number : Nat} (above : blockNum ≤ number)
    (below : (number : Int) ≤ maxBlockNum)
    (inGap : (number : Int) < blockNum / 1000 * 1000 + 1000) :
    number ∉ s.registered c deployer := by
  have small := read.small
  have first : blockNum.toNat ∉
      registeredNumbers (historyAfter c deployer s.calls) := by
    rw [← root_ne_zero_iff (numbered_after c deployer s.calls) synced.roots
      (by omega) (by omega), not_not]
    exact empty
  exact read.gap (by omega) first (by omega) below (by omega)

theorem Synced.query (synced : Synced c deployer s) :
    Synced c deployer (s.withLoop (s.loop.query true
      (contractAfter c deployer s.calls) s.head)) := by
  cases current : s.loop with
  | running blockNum maxBlockNum currentBlockNum missed =>
      have reads := synced.reads
      have covered := synced.covered (by simp [current])
      rw [current] at reads
      rw [Covered, current] at covered
      obtain ⟨read, positive, visited⟩ := reads
      have small := read.small
      rw [DownloadLoop.query]
      by_cases inside : blockNum ≤ maxBlockNum
      · rw [if_pos inside]
        by_cases empty : getRootChainBlockByBlockNum
            (contractAfter c deployer s.calls) blockNum = 0
        · simp only [if_true, empty]
          rw [jump_add_one positive (by omega)]
          refine synced.loop ⟨read, by omega, ?_⟩ ?_
          · intro number registered below upTo
            by_cases earlier : (number : Int) < blockNum
            · exact visited number registered earlier upTo
            · exact (synced.unregistered read positive inside empty
                (by omega) upTo below registered).elim
          · intro _ number registered below
            rcases covered number registered below with has | ⟨above, upTo⟩
            · exact .inl has
            · by_cases inGap : (number : Int) < blockNum / 1000 * 1000 + 1000
              · exact (synced.unregistered read positive inside empty above
                  upTo inGap registered).elim
              · exact .inr ⟨by omega, upTo⟩
        · simp only [if_true, empty, if_false]
          exact synced.loop ⟨⟨read, positive, visited⟩, inside⟩
            fun _ => covered
      · rw [if_neg inside]
        refine synced.loop trivial ?_
        intro _ number registered below
        rcases covered number registered below with has | ⟨above, upTo⟩
        · exact .inl has
        · omega
  | _ => exact synced.stay current

theorem Synced.passOver (synced : Synced c deployer s) (safe : SafePass s) :
    Synced c deployer (s.withLoop s.loop.passOver) := by
  cases current : s.loop with
  | fetching blockNum maxBlockNum currentBlockNum missed =>
      have reads := synced.reads
      have covered := synced.covered (by simp [current])
      rw [current] at reads
      rw [Covered, current] at covered
      obtain ⟨⟨read, positive, visited⟩, inside⟩ := reads
      have small := read.small
      rw [DownloadLoop.passOver, wrap64_of_small (by omega) (by omega)]
      refine synced.loop ⟨read, by omega, ?_⟩ ?_
      · intro number registered below upTo
        by_cases here : (number : Int) = blockNum
        · rw [here]
          exact .inr List.mem_cons_self
        · exact (visited number registered (by omega) upTo).imp_right
            (List.mem_cons_of_mem _)
      · intro _ number registered below
        rcases covered number registered below with has | ⟨above, upTo⟩
        · exact .inl has
        · by_cases here : (number : Int) = blockNum
          · left
            rw [here] at below ⊢
            have requested : s.loop.requested = some blockNum := by
              rw [current]
              rfl
            exact (safe blockNum requested).resolve_left (not_lt.mpr below)
          · exact .inr ⟨by omega, upTo⟩
  | _ => exact synced.stay current

theorem Synced.fetchedNothing (synced : Synced c deployer s) :
    Synced c deployer (s.withLoop (s.loop.fetched false)) := by
  cases current : s.loop with
  | fetching _ _ _ _ => exact synced.returned
  | _ => exact synced.stay current

/-- A downloaded block: the numbers below it that the pass did not write are
those it passed over. -/
theorem Synced.download (synced : Synced c deployer s) {busy disk : Bool}
    {block : Block} {blockNum maxBlockNum currentBlockNum : Int}
    {missed : List Int}
    (current : s.loop =
      .fetching blockNum maxBlockNum currentBlockNum missed)
    (encodes : block.encodes = true) (honest : block.number = blockNum)
    (safe : SafeDownload p signer s busy disk block) :
    Synced c deployer ((s.received p signer busy disk block).withLoop
      (s.loop.fetched
        (receive p signer busy disk s.validator block).2.2.isOk)) := by
  have idle := receive_idle p signer busy disk synced.idle block
  have nonneg := synced.nonneg.trans
    (head_le_received p signer busy disk synced.idle block)
  rw [current]
  cases written : (receive p signer busy disk s.validator block).2.2.isOk with
  | false =>
      exact ⟨idle, nonneg, synced.roots, trivial,
        fun active => (active rfl).elim⟩
  | true =>
      have keeps : ∀ number : Int, s.Has number →
          (s.received p signer busy disk block).Has number := fun _ has =>
        has_received p signer busy disk synced.idle block encodes has
      obtain ⟨durable, stored⟩ :=
        has_of_written p signer busy disk synced.idle block encodes written
      rw [honest] at stored
      have reads := synced.reads
      have covered := synced.covered (by simp [current])
      rw [current] at reads
      rw [Covered, current] at covered
      obtain ⟨⟨read, positive, visited⟩, inside⟩ := reads
      have small := read.small
      have next : DownloadLoop.fetched true
          (.fetching blockNum maxBlockNum currentBlockNum missed) =
            .running (blockNum + 1) maxBlockNum currentBlockNum missed := by
        rw [DownloadLoop.fetched, if_pos rfl,
          wrap64_of_small (by omega) (by omega)]
      rw [next]
      refine ⟨idle, nonneg, synced.roots, ⟨read, by omega, ?_⟩, ?_⟩
      · intro number registered below upTo
        by_cases here : (number : Int) = blockNum
        · left
          rw [here]
          exact stored
        · exact (visited number registered (by omega) upTo).imp_left
            (keeps number)
      · intro _ number registered below
        by_cases here : (number : Int) = blockNum
        · left
          rw [here]
          exact stored
        by_cases earlier : (number : Int) ≤ s.head
        · rcases covered number registered earlier with has | ⟨above, upTo⟩
          · exact .inl (keeps number has)
          · exact .inr ⟨by omega, upTo⟩
        · left
          rcases head_received p signer busy disk synced.idle block with
            same | ⟨raises, head, _⟩
          · exact (earlier (same ▸ below)).elim
          · have lower : (number : Int) ≤ blockNum := by
              rw [← honest, ← head]
              exact below
            rcases visited number registered (by omega) (by omega) with
              has | passed
            · exact keeps number has
            · have skipped : (number : Int) ∈ s.loop.missed := by
                rw [current]
                exact passed
              exact keeps number (safe raises durable number skipped)

theorem Synced.step (synced : Synced c deployer s) {input : SyncStep}
    (honest : Honest s input) (safe : Safe c deployer p signer s input) :
    Synced c deployer (syncStep c deployer p signer s input).1 := by
  cases input with
  | gossip busy disk block => exact synced.gossip honest safe
  | contract message => exact synced.contract safe
  | readChild answered => exact synced.readChild safe
  | readDeposit answered => exact synced.readDeposit answered
  | beginPass => exact synced.beginPass safe
  | query answered =>
      obtain rfl : answered = true := safe
      exact synced.query
  | fetch answer =>
      cases answer with
      | noPeer => exact synced.passOver safe
      | noBlock => exact synced.fetchedNothing
      | block busy disk block =>
          obtain ⟨encodes, honest⟩ := honest
          cases current : s.loop with
          | fetching blockNum maxBlockNum currentBlockNum missed =>
              have requested : s.loop.requested = some blockNum := by
                rw [current]
                rfl
              have answered : block.number = blockNum := by
                rcases honest with nothing | same
                · rw [requested] at nothing
                  cases nothing
                · exact Option.some.inj (same.symm.trans requested)
              have next := synced.download current encodes answered safe
              rw [syncStep, requested, Option.isSome_some, if_pos rfl]
              exact next
          | idle _ => simpa [syncStep, current, DownloadLoop.requested]
          | counting _ _ => simpa [syncStep, current, DownloadLoop.requested]
          | ready _ => simpa [syncStep, current, DownloadLoop.requested]
          | running _ _ _ _ =>
              simpa [syncStep, current, DownloadLoop.requested]
          | returned => simpa [syncStep, current, DownloadLoop.requested]

end Preservation

end Plasma.Bridge
