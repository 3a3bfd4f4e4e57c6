import Plasma.Bridge.Sync

/-!
# Runs of a syncing validator

What the steps of gossip, contract and loop keep is carried over whole runs:
where every step meets its condition, a pass of `downloadBlocks` starts with
nothing missing below the head.
-/

namespace Plasma.Bridge

open Plasma.Core Plasma.Contract Plasma.Lib

/-- The block a step hands to `WriteBlock`. -/
def SyncStep.delivered : SyncStep → List Block
  | .gossip _ _ block => [block]
  | .fetch (.block _ _ block) => [block]
  | .fetch .noPeer => []
  | .fetch .noBlock => []
  | .contract _ => []
  | .readChild _ => []
  | .readDeposit _ => []
  | .beginPass => []
  | .query _ => []

section Deliveries

variable (c : Crypto) (deployer : Address) (p : Primitives)
  (signer : EIP155Signer)

theorem has_of_received {s : SyncState} (idle : s.validator.chain.db.Idle)
    {busy disk : Bool} {block : Block} {number : Int}
    (has : (s.received p signer busy disk block).Has number) :
    s.Has number ∨ uint64 number = block.numberU64 := by
  obtain ⟨hash, stored⟩ := has
  change StoredAt (receive p signer busy disk s.validator block).1.chain.db.db
    _ _ at stored
  rcases receive_cases p signer busy disk idle block with
    ⟨same, _, _⟩ | ⟨applied, _, _, _⟩
  · rw [same] at stored
    exact .inl ⟨hash, stored⟩
  · rw [applied] at stored
    rcases storedAt_of_writeBatch p s.validator.chain block stored with
      here | earlier
    · exact .inr here
    · exact .inl ⟨hash, earlier⟩

theorem delivered_step {s : SyncState} (idle : s.validator.chain.db.Idle)
    (input : SyncStep) :
    (syncStep c deployer p signer s input).1.validator.chain.db.Idle ∧
      ∀ number, (syncStep c deployer p signer s input).1.Has number →
        s.Has number ∨
          ∃ block ∈ input.delivered, uint64 number = block.numberU64 := by
  have untouched : ∀ {t : SyncState}, t.validator = s.validator →
      t.validator.chain.db.Idle ∧ ∀ number, t.Has number → s.Has number ∨
        ∃ block ∈ input.delivered, uint64 number = block.numberU64 := by
    intro t same
    rw [same]
    refine ⟨idle, ?_⟩
    intro number has
    rw [SyncState.Has, same] at has
    exact .inl has
  have written : ∀ {busy disk : Bool} {block : Block} {t : SyncState},
      t.validator = (s.received p signer busy disk block).validator →
      block ∈ input.delivered →
      t.validator.chain.db.Idle ∧ ∀ number, t.Has number → s.Has number ∨
        ∃ block ∈ input.delivered, uint64 number = block.numberU64 := by
    intro busy disk block t same member
    rw [same]
    refine ⟨receive_idle p signer busy disk idle block, ?_⟩
    intro number has
    rw [SyncState.Has, same] at has
    rcases has_of_received p signer idle has with earlier | here
    · exact .inl earlier
    · exact .inr ⟨block, member, here⟩
  cases input with
  | gossip busy disk block => exact written rfl (List.mem_singleton.mpr rfl)
  | contract message => exact untouched rfl
  | readChild answered => exact untouched rfl
  | readDeposit answered => exact untouched rfl
  | beginPass => exact untouched rfl
  | query answered => exact untouched rfl
  | fetch answer =>
      cases answer with
      | noPeer => exact untouched rfl
      | noBlock => exact untouched rfl
      | block busy disk block =>
          rw [syncStep]
          split
          · exact written rfl (List.mem_singleton.mpr rfl)
          · exact untouched rfl

/-- Every block in the database was there before or has been delivered. -/
theorem delivered_of_has {s : SyncState} (idle : s.validator.chain.db.Idle)
    (steps : List SyncStep) {number : Int}
    (has : (execute (syncStep c deployer p signer) s steps).1.Has number) :
    s.Has number ∨ ∃ block ∈ steps.flatMap SyncStep.delivered,
      uint64 number = block.numberU64 := by
  induction steps generalizing s with
  | nil => exact .inl has
  | cons input steps induction =>
      obtain ⟨next, origin⟩ := delivered_step c deployer p signer idle input
      rw [List.flatMap_cons]
      rcases induction next has with earlier | ⟨block, member, same⟩
      · rcases origin number earlier with before | ⟨block, member, same⟩
        · exact .inl before
        · exact .inr ⟨block, List.mem_append_left _ member, same⟩
      · exact .inr ⟨block, List.mem_append_right _ member, same⟩

end Deliveries

section Runs

variable (c : Crypto) (deployer : Address) (p : Primitives)
  (signer : EIP155Signer)

theorem registered_pos {calls : List Message} {number : Nat}
    (registered : number ∈
      registeredNumbers (historyAfter c deployer calls)) : 0 < number := by
  obtain ⟨counts, given⟩ := RootChain.registered_run c deployer calls
  rw [registeredNumbers, historyAfter, given.numbers] at registered
  rcases registered with ⟨_, positive, _⟩ | ⟨period, _, above, _⟩
  · exact positive
  · omega

/-- A number with a root has been registered. -/
theorem mem_registered {s : SyncState} {number : Word}
    (root : ((contractAfter c deployer s.calls).childChain number).root ≠ 0) :
    number.toNat ∈ s.registered c deployer := by
  by_contra absent
  apply root
  rw [(numbered_after c deployer s.calls).unset]
  intro member
  obtain ⟨entry, registered, same⟩ := List.mem_map.mp member
  exact absent (List.mem_map.mpr ⟨entry, registered, by rw [same]⟩)

/-- A validator at its genesis block misses nothing below its head. -/
theorem noGaps_of_genesis {s : SyncState} (genesis : s.head = 0) :
    NoGaps c deployer s := by
  intro number root below
  have positive := registered_pos c deployer (mem_registered c deployer root)
  rw [genesis] at below
  omega

/-- Where gossip, contract and loop meet the condition in every step, nothing
up to the head is missing when a pass of `downloadBlocks` starts. -/
theorem sync_leaves_no_gaps {v : Validator} {calls : List Message}
    (idle : v.chain.db.Idle) (nonneg : 0 ≤ v.chain.currentBlock.number)
    (roots : ∀ entry ∈ registrations (historyAfter c deployer calls),
      entry.2.root ≠ 0)
    (complete : NoGaps c deployer ⟨v, calls, .idle 0⟩)
    {steps : List SyncStep}
    (honest : StepsMeet (syncStep c deployer p signer) Honest
      ⟨v, calls, .idle 0⟩ steps)
    (safe : StepsMeet (syncStep c deployer p signer)
      (Safe c deployer p signer) ⟨v, calls, .idle 0⟩ steps)
    (starts : (execute (syncStep c deployer p signer) ⟨v, calls, .idle 0⟩
      steps).1.loop.startsPass = true) :
    NoGaps c deployer (execute (syncStep c deployer p signer)
      ⟨v, calls, .idle 0⟩ steps).1 := by
  have initially : Synced c deployer ⟨v, calls, .idle 0⟩ := by
    refine ⟨idle, nonneg, roots, trivial, ?_⟩
    intro _ number registered below
    left
    obtain ⟨entry, member, rfl⟩ := List.mem_map.mp registered
    refine complete entry.1 ?_ below
    rw [(numbered_after c deployer calls).stored entry member]
    exact roots entry member
  have synced := execute_induction (syncStep c deployer p signer)
    (fun s input => Honest s input ∧ Safe c deployer p signer s input)
    (fun _ s _ => Synced c deployer s)
    (fun _ _ _ _ synced meets => synced.step meets.1 meets.2) initially
    (honest.and safe)
  intro number root below
  generalize (execute (syncStep c deployer p signer) ⟨v, calls, .idle 0⟩
    steps).1 = final at starts synced root below ⊢
  have registered := mem_registered c deployer root
  cases current : final.loop with
  | ready maxBlockNum =>
      exact synced.has (by simp [current])
        (by simp [current, DownloadLoop.Ahead]) registered below
  | idle _ => simp [current, DownloadLoop.startsPass] at starts
  | counting _ _ => simp [current, DownloadLoop.startsPass] at starts
  | running _ _ _ _ => simp [current, DownloadLoop.startsPass] at starts
  | fetching _ _ _ _ => simp [current, DownloadLoop.startsPass] at starts
  | returned => simp [current, DownloadLoop.startsPass] at starts

end Runs

/-!
## A checkable condition
-/

section Cautious

variable (c : Crypto) (deployer : Address) (p : Primitives)
  (signer : EIP155Signer)

/-- Gossip skips no registered number, the contract registers above the head,
and a peer answers every request. -/
def Cautious (s : SyncState) : SyncStep → Prop
  | .gossip _ disk block =>
      ∀ number ∈ s.registered c deployer, s.head < number →
        (number : Int) ≤ block.number →
          (number : Int) = block.number ∧ disk = true
  | .contract message =>
      ∀ entry ∈ registrations
          (RootChain.step c (contractAfter c deployer s.calls) message).2,
        entry.2.root ≠ 0 ∧ s.head < entry.1.toNat
  | .readChild _ =>
      (contractAfter c deployer s.calls).currentChildBlock.toNat <
        2 ^ 63
  | .readDeposit _ => True
  | .beginPass => s.head + 1 < 2 ^ 63
  | .query answered => answered = true
  | .fetch .noPeer => False
  | .fetch .noBlock => True
  | .fetch (.block _ _ _) => s.loop.missed = []

instance decidableCautious (s : SyncState) :
    DecidablePred (Cautious c deployer s)
  | .gossip _ _ _ => List.decidableBAll _ _
  | .contract _ => List.decidableBAll _ _
  | .readChild _ => Nat.decLe _ _
  | .readDeposit _ => isTrue trivial
  | .beginPass => Int.decLt _ _
  | .query _ => instDecidableEqBool _ _
  | .fetch .noPeer => isFalse id
  | .fetch .noBlock => isTrue trivial
  | .fetch (.block _ _ _) => instDecidableEqList _ _

variable {c deployer} in
theorem Cautious.safe {s : SyncState} {input : SyncStep}
    (cautious : Cautious c deployer s input) :
    Safe c deployer p signer s input := by
  cases input with
  | gossip busy disk block =>
      intro _ number registered above below
      exact .inr (.inr (cautious number registered above below))
  | contract message =>
      intro entry member
      exact ⟨(cautious entry member).1, .inl (cautious entry member).2⟩
  | readChild answered => exact cautious
  | readDeposit answered => trivial
  | beginPass => exact cautious
  | query answered => exact cautious
  | fetch answer =>
      cases answer with
      | noPeer => exact cautious.elim
      | noBlock => trivial
      | block busy disk block =>
          intro _ _ number skipped
          rw [show s.loop.missed = [] from cautious] at skipped
          cases skipped

end Cautious

instance decidableHonest (s : SyncState) : DecidablePred (Honest s)
  | .fetch (.block _ _ _) => instDecidableAnd
  | .fetch .noPeer => isTrue trivial
  | .fetch .noBlock => isTrue trivial
  | .gossip _ _ _ => instDecidableEqBool _ _
  | .contract _ => isTrue trivial
  | .readChild _ => isTrue trivial
  | .readDeposit _ => isTrue trivial
  | .beginPass => isTrue trivial
  | .query _ => isTrue trivial

namespace SyncSample

open Plasma.Core.Sample

def secondBlock : Block := ⟨header depositHash depositRoot 2, [deposit]⟩

/-- The tables of the sample with the block of a second deposit. -/
def primitives : Primitives :=
  { Core.Sample.primitives with
    headerHash := lookup ((secondBlock.header,
        0x08aa84604b3cfe6641a439312c79b754e6ca2c952503a893963e5f442e4b1ef1) ::
      headerHashes) 0 }

def validator : Validator :=
  Validator.newValidator (genesisOperator primitives operatorAddr).chain

def depositCall : Message := Contract.Sample.depositMessage alice 5

/-- A validator at its first start, after two deposits on the root chain. -/
def fresh : SyncState := ⟨validator, [depositCall, depositCall], .idle 0⟩

def steps : SyncState → List SyncStep → SyncState × List NodeEvent :=
  execute (syncStep Contract.Sample.crypto alice primitives signer)

/-- The second block arrives by gossip before the first. -/
def gossipAhead : List SyncStep :=
  [.gossip false true secondBlock, .readChild true, .readDeposit true]

/-- The only peer is away when the loop comes to the first block. -/
def peerAway : List SyncStep :=
  [.readChild true, .readDeposit true, .beginPass, .query true,
    .fetch .noPeer, .query true, .fetch (.block false true secondBlock),
    .query true, .readChild true, .readDeposit true]

/-- The first block by gossip, the second one from a peer, then another
deposit. -/
def inOrder : List SyncStep :=
  [.gossip false true depositBlock, .readChild true, .readDeposit true,
    .beginPass, .query true, .fetch (.block false true secondBlock),
    .query true, .contract depositCall, .readChild true, .readDeposit true]

theorem fresh_idle : fresh.validator.chain.db.Idle := ⟨rfl, rfl⟩

theorem fresh_has {number : Int} (has : fresh.Has number) :
    uint64 number = 0 := by
  obtain ⟨hash, ⟨header, stored⟩, _⟩ := has
  exact genesisContents_header primitives stored

theorem gap_of_undelivered {run : List SyncStep} (number : Word)
    (root : ((contractAfter Contract.Sample.crypto alice
      (steps fresh run).1.calls).childChain number).root ≠ 0)
    (below : (number.toNat : Int) ≤ (steps fresh run).1.head)
    (later : uint64 number.toNat ≠ 0)
    (undelivered : ∀ block ∈ run.flatMap SyncStep.delivered,
      uint64 number.toNat ≠ block.numberU64) :
    ¬ NoGaps Contract.Sample.crypto alice (steps fresh run).1 := by
  intro complete
  rcases delivered_of_has Contract.Sample.crypto alice primitives signer
      fresh_idle run (complete number root below) with
    before | ⟨block, member, same⟩
  · exact later (fresh_has before)
  · exact undelivered block member same

end SyncSample

/-- Blocks that arrive in order leave no gap. -/
theorem blocks_in_order_leave_no_gaps :
    (SyncSample.steps SyncSample.fresh
        SyncSample.inOrder).1.loop.startsPass = true ∧
      (SyncSample.steps SyncSample.fresh SyncSample.inOrder).1.head = 2 ∧
      NoGaps Contract.Sample.crypto Core.Sample.alice
        (SyncSample.steps SyncSample.fresh SyncSample.inOrder).1 := by
  have cautious : StepsMeet (syncStep Contract.Sample.crypto
      Core.Sample.alice SyncSample.primitives Core.Sample.signer)
      (Cautious Contract.Sample.crypto Core.Sample.alice) SyncSample.fresh
      SyncSample.inOrder := by decide +kernel
  have safe : StepsMeet (syncStep Contract.Sample.crypto
      Core.Sample.alice SyncSample.primitives Core.Sample.signer)
      (Safe Contract.Sample.crypto Core.Sample.alice SyncSample.primitives
        Core.Sample.signer) SyncSample.fresh SyncSample.inOrder :=
    cautious.imp fun _ _ step => step.safe _ _
  have starts : (SyncSample.steps SyncSample.fresh
      SyncSample.inOrder).1.loop.startsPass = true := by decide +kernel
  refine ⟨starts, by decide +kernel, ?_⟩
  exact sync_leaves_no_gaps Contract.Sample.crypto Core.Sample.alice
    SyncSample.primitives Core.Sample.signer SyncSample.fresh_idle
    (by decide +kernel) (by decide +kernel)
    (noGaps_of_genesis _ _ (by decide +kernel)) (by decide +kernel) safe starts

/-- Both with gossip ahead of the loop and with a peer that is away, a pass
starts above a registered block that is missing. -/
theorem pass_starts_above_missing_block :
    (StepsMeet (syncStep Contract.Sample.crypto Core.Sample.alice
          SyncSample.primitives Core.Sample.signer) Honest SyncSample.fresh
          SyncSample.gossipAhead ∧
        (SyncSample.steps SyncSample.fresh
          SyncSample.gossipAhead).1.loop.startsPass = true ∧
        ¬ NoGaps Contract.Sample.crypto Core.Sample.alice
          (SyncSample.steps SyncSample.fresh SyncSample.gossipAhead).1) ∧
      StepsMeet (syncStep Contract.Sample.crypto Core.Sample.alice
          SyncSample.primitives Core.Sample.signer) Honest SyncSample.fresh
          SyncSample.peerAway ∧
        (SyncSample.steps SyncSample.fresh
          SyncSample.peerAway).1.loop.startsPass = true ∧
        ¬ NoGaps Contract.Sample.crypto Core.Sample.alice
          (SyncSample.steps SyncSample.fresh SyncSample.peerAway).1 := by
  refine ⟨⟨by decide +kernel, by decide +kernel, ?_⟩, by decide +kernel,
    by decide +kernel, ?_⟩
  · exact SyncSample.gap_of_undelivered 1 (by decide +kernel)
      (by decide +kernel) (by decide) (by decide)
  · exact SyncSample.gap_of_undelivered 1 (by decide +kernel)
      (by decide +kernel) (by decide) (by decide)

end Plasma.Bridge
