import Plasma.Bridge.Download
import Plasma.Bridge.Membership
import Plasma.Contract.Deposits

/-!
# What a started exit is bound to

`startExit` shows a transaction, its signatures and a path to the root of the
block.  The sixteen levels of the path only read the index of the transaction
modulo 2^16, so a leaf can be exited under many positions.  All of them show
the same transaction with the same signatures.
-/

namespace Plasma.Bridge

open Plasma.Core Plasma.Lib Plasma.Contract

/-- Two accepted paths with the same bits below one root start from one
leaf. -/
theorem climb_binds_leaf (c : Crypto) {proof otherProof : Bytes}
    {index other : Word} {leaf otherLeaf : Hash}
    (bits : index.toNat % 2 ^ 16 = other.toNat % 2 ^ 16)
    (meet : Merkle.climb c (Merkle.proofElements 16 proof) index leaf =
      Merkle.climb c (Merkle.proofElements 16 otherProof) other otherLeaf) :
    leaf = otherLeaf ∨ DigestCollision c.keccak256
      (Merkle.climbInputs c (Merkle.proofElements 16 proof) index leaf ++
        Merkle.climbInputs c (Merkle.proofElements 16 otherProof) other
          otherLeaf) := by
  have length := length_proofElements 16 proof
  have otherLength := length_proofElements 16 otherProof
  rw [(climb_eq_computeHash ..).1, (climb_eq_computeHash ..).1,
    MerkleTree.computeHash_eq_climb, MerkleTree.computeHash_eq_climb] at meet
  rw [(climb_eq_computeHash ..).2, (climb_eq_computeHash ..).2,
    MerkleTree.verifyInputs_eq, MerkleTree.verifyInputs_eq, ← List.map_append]
  rcases HashTree.climb_binds (length.trans otherLength.symm)
      (length.symm ▸ bits) meet with same | collides
  · exact .inl same
  · exact .inr (digestCollision_of_collides collides)

/-- The call starts an exit of the position with the transaction and the
signatures. -/
def StartsExit (c : Crypto) (s : RootChain) (m : Message) (utxoPos : Word)
    (txBytes sigs : Bytes) : Prop :=
  (∃ proof rest, m.call = .startExit utxoPos txBytes proof sigs rest) ∧
    (RootChain.perform c s m).isSome = true

def leafInput (c : Crypto) (txBytes sigs : Bytes) : Bytes :=
  wordBytes (c.keccak256 txBytes) ++ sigs.take 130

def leafIndex (utxoPos : Word) : Word := utxoPos % 1000000000 / 10000

section Exit

variable {c : Crypto} {s : RootChain} {m : Message} {utxoPos : Word}
  {txBytes sigs : Bytes}

theorem StartsExit.hashes (starts : StartsExit c s m utxoPos txBytes sigs) :
    ∃ proof : Bytes,
      Merkle.climb c (Merkle.proofElements 16 proof) (leafIndex utxoPos)
          (c.keccak256 (leafInput c txBytes sigs)) =
        (s.childChain (utxoPos / 1000000000)).root ∧
      130 ≤ sigs.length ∧
      ∀ input ∈ txBytes :: leafInput c txBytes sigs ::
        Merkle.climbInputs c (Merkle.proofElements 16 proof)
          (leafIndex utxoPos) (c.keccak256 (leafInput c txBytes sigs)),
        .hashed input ∈ (RootChain.step c s m).2 := by
  obtain ⟨⟨proof, rest, call⟩, succeeds⟩ := starts
  obtain ⟨⟨next, effects⟩, performed⟩ := Option.isSome_iff_exists.mp succeeds
  have taken : RootChain.step c s m = (next, effects) := by
    rw [RootChain.step, performed]
    rfl
  simp only [RootChain.perform, call, RootChain.startExit,
    Option.bind_eq_bind, Option.bind_eq_some_iff, require_eq_some,
    Option.pure_def, Option.some.injEq, Prod.mk.injEq] at performed
  obtain ⟨_, _, _, _, _, _, txSigs, sliced, _, _, _, _, included, proved, _,
    rfl, _, _, _, rfl⟩ := performed
  obtain ⟨room, rfl⟩ : 130 ≤ sigs.length ∧ sigs.take 130 = txSigs := by
    rw [ByteUtils.slice] at sliced
    split at sliced
    · rename_i fits
      exact ⟨fits, Option.some.inj sliced⟩
    · cases sliced
  unfold leafInput leafIndex
  refine ⟨proof, ?_, room, ?_⟩
  · rw [Merkle.checkMembership] at proved
    split at proved
    · exact eq_of_beq (Option.some.inj proved)
    · cases proved
  · intro input member
    rw [taken]
    apply List.mem_append_left
    apply List.mem_map_of_mem
    generalize Merkle.climbInputs c (Merkle.proofElements 16 proof) _ _ =
      climbed at member ⊢
    simp only [List.mem_cons] at member
    simp only [List.mem_append, List.mem_cons]
    rcases member with transaction | signed | inputs
    · exact .inl (.inl transaction)
    · exact .inl (.inr (.inl signed))
    · exact .inr inputs

theorem shown_of_climb (Hashed : Bytes → Prop)
    (free : ∀ first second, Hashed first → Hashed second →
      c.keccak256 first = c.keccak256 second → first = second)
    {otherPos : Word} {otherBytes otherSigs proof otherProof : Bytes}
    (hashed : ∀ input ∈ txBytes :: leafInput c txBytes sigs ::
      Merkle.climbInputs c (Merkle.proofElements 16 proof)
        (leafIndex utxoPos) (c.keccak256 (leafInput c txBytes sigs)),
      Hashed input)
    (otherHashed : ∀ input ∈ otherBytes :: leafInput c otherBytes otherSigs ::
      Merkle.climbInputs c (Merkle.proofElements 16 otherProof)
        (leafIndex otherPos) (c.keccak256 (leafInput c otherBytes otherSigs)),
      Hashed input)
    (leaf : (leafIndex utxoPos).toNat % 2 ^ 16 =
      (leafIndex otherPos).toNat % 2 ^ 16)
    (meet : Merkle.climb c (Merkle.proofElements 16 proof) (leafIndex utxoPos)
        (c.keccak256 (leafInput c txBytes sigs)) =
      Merkle.climb c (Merkle.proofElements 16 otherProof) (leafIndex otherPos)
        (c.keccak256 (leafInput c otherBytes otherSigs))) :
    txBytes = otherBytes ∧ sigs.take 130 = otherSigs.take 130 := by
  rcases climb_binds_leaf c leaf meet with same | collision
  · have inputs : leafInput c txBytes sigs =
        leafInput c otherBytes otherSigs := by
      apply free _ _ _ _ same
      · exact hashed _ (by simp)
      · exact otherHashed _ (by simp)
    obtain ⟨digests, signatures⟩ := List.append_inj inputs (by
      rw [length_wordBytes, length_wordBytes])
    refine ⟨?_, signatures⟩
    apply free _ _ (hashed _ List.mem_cons_self)
      (otherHashed _ List.mem_cons_self)
    apply BitVec.eq_of_toNat_eq
    exact bigEndian_injective (BitVec.isLt _) (BitVec.isLt _) digests
  · exfalso
    obtain ⟨first, inFirst, second, inSecond, _, _, different, equal⟩ :=
      collision
    have member : ∀ input ∈ Merkle.climbInputs c
          (Merkle.proofElements 16 proof) (leafIndex utxoPos)
          (c.keccak256 (leafInput c txBytes sigs)) ++
        Merkle.climbInputs c (Merkle.proofElements 16 otherProof)
          (leafIndex otherPos)
          (c.keccak256 (leafInput c otherBytes otherSigs)),
        Hashed input := by
      intro input climbed
      rcases List.mem_append.mp climbed with left | right
      · exact hashed _ (by simp [left])
      · exact otherHashed _ (by simp [right])
    exact different (free _ _ (member first inFirst) (member second inSecond)
      equal)

theorem mem_historyAfter (c : Crypto) (deployer : Address)
    {before : List Message} (later : List Message) {effect : Effect}
    (member : effect ∈
      (RootChain.step c (contractAfter c deployer before) m).2) :
    effect ∈ historyAfter c deployer (before ++ m :: later) := by
  rw [historyAfter, execute_append, execute_cons]
  exact List.mem_append_right _ (List.mem_append_left _ member)

theorem StartsExit.root_kept {deployer : Address} {before : List Message}
    (starts : StartsExit c (contractAfter c deployer before) m utxoPos txBytes
      sigs) (later : List Message)
    (injective : RootChain.Injective c
      (historyAfter c deployer (before ++ m :: later))) :
    ((contractAfter c deployer (before ++ m :: later)).childChain
        (utxoPos / 1000000000)).root =
      ((contractAfter c deployer before).childChain
        (utxoPos / 1000000000)).root := by
  obtain ⟨proof, climbs, _, hashed⟩ := starts.hashes
  obtain ⟨top, climbed, _, digest⟩ := Merkle.climb_mem c
    (Merkle.proofElements 16 proof) (leafIndex utxoPos)
    (c.keccak256 (leafInput c txBytes sigs)) (List.cons_ne_nil _ _)
  have inHistory := mem_historyAfter c deployer later
    (hashed top (by simp [climbed]))
  have cut : historyAfter c deployer (before ++ m :: later) =
      historyAfter c deployer before ++
        (execute (RootChain.step c) (contractAfter c deployer before)
          (m :: later)).2 := by
    rw [historyAfter, execute_append]
    rfl
  rw [cut] at injective inHistory
  have numbered := numbered_after c deployer before
  obtain ⟨entry, registered, place, _⟩ := numbered.registered injective
    inHistory (climbs.symm.trans digest.symm)
  have stored := numbered.stored entry registered
  have kept := (numbered_after c deployer (before ++ m :: later)).stored entry
    (by
      rw [cut, registrations_append]
      exact List.mem_append_left _ registered)
  rw [← place, stored, kept]

end Exit

open RootChain in
/-- In every run, two exits that are started under positions of one leaf of a
block show the same transaction and the same signatures of its inputs. -/
theorem exits_of_leaf_agree (c : Crypto) (deployer : Address)
    {before between : List Message} {m n : Message} {utxoPos otherPos : Word}
    {txBytes otherBytes sigs otherSigs : Bytes}
    (starts : StartsExit c (contractAfter c deployer before) m utxoPos txBytes
      sigs)
    (startsOther : StartsExit c
      (contractAfter c deployer (before ++ m :: between)) n otherPos
      otherBytes otherSigs)
    (block : utxoPos / 1000000000 = otherPos / 1000000000)
    (leaf : (leafIndex utxoPos).toNat % 2 ^ 16 =
      (leafIndex otherPos).toNat % 2 ^ 16)
    (injective : Injective c
      (historyAfter c deployer (before ++ m :: between ++ [n]))) :
    txBytes = otherBytes ∧ sigs.take 130 = otherSigs.take 130 := by
  obtain ⟨proof, climbs, _, hashed⟩ := starts.hashes
  obtain ⟨otherProof, otherClimbs, _, otherHashed⟩ := startsOther.hashes
  have early : Injective c
      (historyAfter c deployer (before ++ m :: between)) := by
    rw [historyAfter, execute_append] at injective
    exact injective.of_append
  have kept := starts.root_kept between early
  rw [block, ← otherClimbs] at kept
  rw [block] at climbs
  apply shown_of_climb (fun input => .hashed input ∈
      historyAfter c deployer (before ++ m :: between ++ [n])) _ _ _ leaf
    (climbs.trans kept.symm)
  · intro first second firstHashed secondHashed
    exact injective.free first (mem_hashedInputs.mpr firstHashed) second
      (mem_hashedInputs.mpr secondHashed)
  · intro input member
    rw [List.append_assoc]
    exact mem_historyAfter c deployer (between ++ [n]) (hashed input member)
  · intro input member
    exact mem_historyAfter c deployer [] (otherHashed input member)

def aliasedExit : Message :=
  Contract.Sample.message Contract.Sample.bob 25
    (.startExit 1000655360000 Contract.Sample.spendBytes Contract.Sample.proof
      (Contract.Sample.spendSigs ++ Contract.Sample.confirmationSig ++
        List.replicate 65 0) [])

/-- The first transaction of the child block is exited under its own index and
under the index 65536, with signatures that agree in their first bytes
alone. -/
theorem aliased_exits_agree :
    ∃ sigs otherSigs,
      StartsExit Contract.Sample.crypto
        (contractAfter Contract.Sample.crypto Contract.Sample.alice
          [Contract.Sample.submitMessage])
        (Contract.Sample.utxoExit 1000000000000) 1000000000000
        Contract.Sample.spendBytes sigs ∧
      StartsExit Contract.Sample.crypto
        (contractAfter Contract.Sample.crypto Contract.Sample.alice
          ([Contract.Sample.submitMessage] ++
            [Contract.Sample.utxoExit 1000000000000]))
        aliasedExit 1000655360000 Contract.Sample.spendBytes otherSigs ∧
      sigs ≠ otherSigs ∧ sigs.take 130 = otherSigs.take 130 := by
  have traced : (RootChain.perform Contract.Sample.crypto
        (contractAfter Contract.Sample.crypto Contract.Sample.alice
          [Contract.Sample.submitMessage])
        (Contract.Sample.utxoExit 1000000000000)).isSome = true ∧
      (RootChain.perform Contract.Sample.crypto
        (contractAfter Contract.Sample.crypto Contract.Sample.alice
          ([Contract.Sample.submitMessage] ++
            [Contract.Sample.utxoExit 1000000000000]))
        aliasedExit).isSome = true ∧
      CollisionFree Contract.Sample.crypto
        (historyAfter Contract.Sample.crypto Contract.Sample.alice
          ([Contract.Sample.submitMessage] ++
            [Contract.Sample.utxoExit 1000000000000] ++ [aliasedExit])) ∧
      ∀ input ∈ hashedInputs
        (historyAfter Contract.Sample.crypto Contract.Sample.alice
          ([Contract.Sample.submitMessage] ++
            [Contract.Sample.utxoExit 1000000000000] ++ [aliasedExit])),
        Contract.Sample.crypto.keccak256 input ≠ 0 := by
    decide +kernel
  obtain ⟨succeeds, succeedsOther, free, nonzero⟩ := traced
  have starts : StartsExit Contract.Sample.crypto _ _ 1000000000000
      Contract.Sample.spendBytes
      (Contract.Sample.spendSigs ++ Contract.Sample.confirmationSig) :=
    ⟨⟨_, _, rfl⟩, succeeds⟩
  have startsOther : StartsExit Contract.Sample.crypto _ _ 1000655360000
      Contract.Sample.spendBytes
      (Contract.Sample.spendSigs ++ Contract.Sample.confirmationSig ++
        List.replicate 65 0) :=
    ⟨⟨_, _, rfl⟩, succeedsOther⟩
  have agree := exits_of_leaf_agree Contract.Sample.crypto
    Contract.Sample.alice starts startsOther (by decide) (by decide)
    (.of_inputs free nonzero)
  exact ⟨_, _, starts, startsOther, by decide +kernel, agree.2⟩

end Plasma.Bridge
