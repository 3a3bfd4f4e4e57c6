import Plasma.Contract.Priority

/-!
# One exit for one output

The only guard against a second exit is the amount stored under the position,
so a second exit of an output has to use a second position.  A position names
a block, a leaf of its tree and an output; the remainder of a deposit position
is not looked at, and a proof of sixteen levels reads sixteen bits of the
transaction index.
-/

namespace Plasma.Contract

open Plasma.Core Plasma.Lib

/-- An output of the child chain: a leaf of the tree of a block and an index;
a deposit block has one output. -/
structure Output where
  blknum : Nat
  leaf : Nat
  oindex : Nat
deriving DecidableEq, Repr

/-- The output a position designates. -/
def designated (utxoPos : Word) : Output :=
  let blknum := utxoPos.toNat / 1000000000
  if blknum % 1000 ≠ 0 then ⟨blknum, 0, 0⟩
  else
    { blknum := blknum
      leaf := utxoPos.toNat % 1000000000 / 10000 % 2 ^ 16
      oindex := utxoPos.toNat % 10000 }

def Effect.hashed? : Effect → Option Bytes
  | .hashed input => some input
  | _ => none

/-- The inputs hashed so far. -/
def hashedInputs (history : List Effect) : List Bytes :=
  history.filterMap Effect.hashed?

theorem mem_hashedInputs {history : List Effect} {input : Bytes} :
    input ∈ hashedInputs history ↔ .hashed input ∈ history := by
  rw [hashedInputs, List.mem_filterMap]
  constructor
  · rintro ⟨effect, member, read⟩
    cases effect <;> cases read
    exact member
  · intro member
    exact ⟨_, member, rfl⟩

/-- No two different inputs hashed in the history have the same digest. -/
def CollisionFree (c : Crypto) (history : List Effect) : Prop :=
  ∀ first ∈ hashedInputs history, ∀ second ∈ hashedInputs history,
    c.keccak256 first = c.keccak256 second → first = second

instance (c : Crypto) (history : List Effect) :
    Decidable (CollisionFree c history) :=
  inferInstanceAs (Decidable (∀ first ∈ hashedInputs history,
    ∀ second ∈ hashedInputs history,
      c.keccak256 first = c.keccak256 second → first = second))

theorem CollisionFree.of_append {c : Crypto} {first second : List Effect}
    (free : CollisionFree c (first ++ second)) : CollisionFree c first := by
  intro left leftHashed right rightHashed
  refine free left ?_ right ?_
  · exact mem_hashedInputs.mpr
      (List.mem_append_left _ (mem_hashedInputs.mp leftHashed))
  · exact mem_hashedInputs.mpr
      (List.mem_append_left _ (mem_hashedInputs.mp rightHashed))

namespace RootChain

/-- Positions in the documented format: a deposit position is the first of its
block, a transaction index has a leaf of its own, and the block is there. -/
def Canonical (s : RootChain) (m : Message) : Prop :=
  match m.call with
  | .startDepositExit depositPos _ _ => depositPos.toNat % 1000000000 = 0
  | .startExit utxoPos _ _ _ _ =>
      utxoPos.toNat % 1000000000 / 10000 < 2 ^ 16 ∧
        (s.childChain (utxoPos / 1000000000)).root ≠ 0
  | _ => True

instance (s : RootChain) (m : Message) : Decidable (Canonical s m) := by
  unfold Canonical
  split <;> infer_instance

/-- What a canonical exit looks like: deposit exits are the first positions of
deposit blocks, other exits lie in submitted blocks. -/
def Regular (e : ExitRecord) : Prop :=
  match e.kind with
  | .deposit => e.utxoPos.toNat % 1000000000 = 0 ∧
      e.utxoPos.toNat / 1000000000 % 1000 ≠ 0
  | .utxo => e.utxoPos.toNat % 1000000000 / 10000 < 2 ^ 16 ∧
      e.utxoPos.toNat / 1000000000 % 1000 = 0
  | .fee => True

theorem blknum_toNat (utxoPos : Word) :
    (utxoPos / 1000000000).toNat = utxoPos.toNat / 1000000000 := by
  have scale : (1000000000 : Word).toNat = 1000000000 := rfl
  rw [BitVec.toNat_udiv, scale]

/-- An exit of a transaction cannot be started from a deposit block: its root
is the digest of an input of another length. -/
theorem regular_acts {c : Crypto} {m : Message} {s next : RootChain}
    {past : List Effect} {inputs : List Bytes} {e : ExitRecord}
    (numbered : Numbered c past s) (canonical : Canonical s m)
    (free : CollisionFree c
      (past ++ (inputs.map Effect.hashed ++ [e.effect])))
    (act : Acts c m s inputs e.effect next) : Regular e := by
  generalize shape : e.effect = effect at act free
  cases act with
  | submitted call bound => cases shape
  | deposited call room number => cases shape
  | challenged call => cases shape
  | @exitStarted _ kind utxoPos _ _ _ _ source positive fresh =>
      obtain ⟨rfl, rfl, _, _⟩ := Effect.exitStarted.inj shape
      rw [Regular]
      generalize tag : e.kind = kind at source
      generalize place : e.utxoPos = utxoPos at source
      cases source with
      | deposit call odd root =>
          simp only [Canonical, call] at canonical
          refine ⟨canonical, ?_⟩
          intro multiple
          refine odd (BitVec.eq_of_toNat_eq ?_)
          rw [BitVec.toNat_umod, blknum_toNat]
          exact multiple
      | utxo call included =>
          simp only [Canonical, call] at canonical
          refine ⟨canonical.1, ?_⟩
          by_contra odd
          obtain ⟨input, covered, size, digest⟩ := included
          have listed : utxoPos / 1000000000 ∈
              (registrations past).map Prod.fst := by
            by_contra absent
            rw [numbered.unset _ absent] at canonical
            exact canonical.2 rfl
          obtain ⟨entry, member, same⟩ := List.mem_map.mp listed
          have stored := numbered.stored entry member
          obtain ⟨other, hashed, otherSize, otherDigest⟩ :=
            numbered.deposits entry member
              (by rw [same, blknum_toNat]; exact odd)
          have equal : input = other := by
            refine free input ?_ other ?_ ?_
            · exact mem_hashedInputs.mpr (by simp [covered])
            · exact mem_hashedInputs.mpr (by simp [hashed])
            · rw [digest, otherDigest, ← stored, same]
          rw [equal, otherSize] at size
          omega
      | fee call => trivial

/-- Two regular positions designate the same output only when they are
equal. -/
theorem designated_injective {first second : ExitRecord}
    (left : Regular first) (right : Regular second)
    (leftKind : first.kind ≠ .fee) (rightKind : second.kind ≠ .fee)
    (same : designated first.utxoPos = designated second.utxoPos) :
    first.utxoPos = second.utxoPos := by
  refine BitVec.eq_of_toNat_eq ?_
  obtain ⟨leftTag, leftPos, _, _⟩ := first
  obtain ⟨rightTag, rightPos, _, _⟩ := second
  simp only [designated] at same
  cases leftTag with
  | fee => exact (leftKind rfl).elim
  | deposit =>
      simp only [Regular] at left
      rw [if_pos left.2] at same
      cases rightTag with
      | fee => exact (rightKind rfl).elim
      | deposit =>
          simp only [Regular] at right
          rw [if_pos right.2] at same
          have block := congrArg Output.blknum same
          simp only at block ⊢
          omega
      | utxo =>
          simp only [Regular] at right
          rw [if_neg (not_not.mpr right.2)] at same
          have block := congrArg Output.blknum same
          simp only at block
          omega
  | utxo =>
      simp only [Regular] at left
      rw [if_neg (not_not.mpr left.2)] at same
      cases rightTag with
      | fee => exact (rightKind rfl).elim
      | deposit =>
          simp only [Regular] at right
          rw [if_pos right.2] at same
          have block := congrArg Output.blknum same
          simp only at block
          omega
      | utxo =>
          simp only [Regular] at right
          rw [if_neg (not_not.mpr right.2)] at same
          have block := congrArg Output.blknum same
          have leaf := congrArg Output.leaf same
          have index := congrArg Output.oindex same
          simp only at block leaf index ⊢
          omega

theorem regular_run {c : Crypto} {deployer : Address}
    {messages : List Message}
    (meets : StepsMeet (step c) Canonical (new deployer) messages)
    (free : CollisionFree c (execute (step c) (new deployer) messages).2) :
    ∀ e : ExitRecord,
      e.effect ∈ (execute (step c) (new deployer) messages).2 → Regular e := by
  have both := run_induction
    (fun past s => Numbered c past s ∧
      (CollisionFree c past → ∀ e : ExitRecord, e.effect ∈ past → Regular e))
    (by
      intro past s m inputs effect next holds canonical act
      refine ⟨holds.1.acts act, ?_⟩
      intro free e member
      rcases List.mem_append.mp member with earlier | now
      · exact holds.2 free.of_append e earlier
      · rcases List.mem_append.mp now with digest | last
        · obtain ⟨input, _, impossible⟩ := List.mem_map.mp digest
          cases impossible
        · rw [← List.mem_singleton.mp last] at act free
          exact regular_acts holds.1 canonical free act)
    (by
      intro past s m effect next holds taken
      refine ⟨holds.1.removes taken, ?_⟩
      intro free e member
      rcases List.mem_append.mp member with earlier | last
      · exact holds.2 free.of_append e earlier
      · cases taken
        cases List.mem_singleton.mp last)
    ⟨Numbered.new c deployer, fun _ e member => by cases member⟩ meets
  exact both.2 free

/-- In a run whose exits use canonical positions, exits with different
positions designate different outputs. -/
theorem exits_designate_distinct_outputs {c : Crypto} {deployer : Address}
    {messages : List Message} {history : List Effect}
    (run : history = (execute (step c) (new deployer) messages).2)
    (canonical : StepsMeet (step c) Canonical (new deployer) messages)
    (free : CollisionFree c history) {first second : ExitRecord}
    (firstStarted : first.effect ∈ history)
    (secondStarted : second.effect ∈ history)
    (firstKind : first.kind ≠ .fee) (secondKind : second.kind ≠ .fee)
    (different : first.utxoPos ≠ second.utxoPos) :
    designated first.utxoPos ≠ designated second.utxoPos := by
  subst run
  intro same
  have regular := regular_run canonical free
  exact different (designated_injective (regular first firstStarted)
    (regular second secondStarted) firstKind secondKind same)

/-- A deposit and a child block, and an exit from each. -/
def canonicalRun : List Message :=
  [Sample.depositMessage Sample.alice 5, Sample.submitMessage,
    Sample.depositExit 1000000000, Sample.utxoExit 1000000000000]

theorem deposit_and_spend_exits_differ :
    designated 1000000000 ≠ designated 1000000000000 := by
  have run : (execute (step Sample.crypto) (new Sample.alice) canonicalRun).2 =
      (execute (step Sample.crypto) (new Sample.alice) canonicalRun).2 := rfl
  have canonical : StepsMeet (step Sample.crypto) Canonical (new Sample.alice)
      canonicalRun := by
    refine ⟨trivial, trivial, ?_, ?_, trivial⟩
    · decide +kernel
    · decide +kernel
  have traced : CollisionFree Sample.crypto
        (execute (step Sample.crypto) (new Sample.alice) canonicalRun).2 ∧
      ExitRecord.effect ⟨.deposit, 1000000000, Sample.start + 20,
          Sample.start + weeks 2⟩ ∈
        (execute (step Sample.crypto) (new Sample.alice) canonicalRun).2 ∧
      ExitRecord.effect ⟨.utxo, 1000000000000, Sample.start + 25,
          Sample.start + 10 + weeks 2⟩ ∈
        (execute (step Sample.crypto) (new Sample.alice) canonicalRun).2 := by
    decide +kernel
  obtain ⟨free, depositStarted, spendStarted⟩ := traced
  exact exits_designate_distinct_outputs run canonical free depositStarted
    spendStarted (by decide) (by decide) (by decide)

/-- The first deposit is exited under two positions, and so is the first
transaction of the child block. -/
def aliasedRun : List Message :=
  [Sample.depositMessage Sample.alice 5, Sample.submitMessage,
    Sample.depositExit 1000000000, Sample.depositExit 1000000001,
    Sample.utxoExit 1000000000000, Sample.utxoExit 1000655360000]

def aliasedHistory : List Effect :=
  (execute (step Sample.crypto) (new Sample.alice) aliasedRun).2

theorem outputs_exited_twice :
    CollisionFree Sample.crypto aliasedHistory ∧
      (.exitStarted .deposit 1000000000 (Sample.start + 20)
          (Sample.start + weeks 2) ∈ aliasedHistory ∧
        .exitStarted .deposit 1000000001 (Sample.start + 20)
          (Sample.start + weeks 2) ∈ aliasedHistory ∧
        designated 1000000000 = designated 1000000001) ∧
      (.exitStarted .utxo 1000000000000 (Sample.start + 25)
          (Sample.start + 10 + weeks 2) ∈ aliasedHistory ∧
        .exitStarted .utxo 1000655360000 (Sample.start + 25)
          (Sample.start + 10 + weeks 2) ∈ aliasedHistory ∧
        designated 1000000000000 = designated 1000655360000) := by
  decide +kernel

end RootChain

end Plasma.Contract
