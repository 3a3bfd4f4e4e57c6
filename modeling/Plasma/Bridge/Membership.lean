import Plasma.Core.MerkleBinding
import Plasma.Contract.Evm

/-!
# Soundness of membership proofs

A proof that `Verify` of the node or `checkMembership` of the contract accepts
for the root of a tree with a power of two of leaves was given for the leaf at
the index, or two different inputs have the same digest.
-/

namespace Plasma.Bridge

open Plasma.Core Plasma.Lib Plasma.Contract

theorem length_proofElements (count : Nat) (proof : Bytes) :
    (Merkle.proofElements count proof).length = count := by
  induction count generalizing proof with
  | zero => rfl
  | succ count induction =>
      rw [Merkle.proofElements, List.length_cons, induction]

theorem climb_eq_computeHash (c : Crypto) (elements : List Hash)
    (index : Word) (leaf : Hash) :
    Merkle.climb c elements index leaf =
        MerkleTree.computeHash c.keccak256 elements index.toNat leaf ∧
      Merkle.climbInputs c elements index leaf =
        MerkleTree.verifyInputs c.keccak256 elements index.toNat leaf := by
  induction elements generalizing index leaf with
  | nil => exact ⟨rfl, rfl⟩
  | cons element elements induction =>
      have half : (index / 2).toNat = index.toNat / 2 := by
        rw [BitVec.toNat_udiv]
        rfl
      have bit : index % 2 = 0 ↔ index.toNat % 2 = 0 := by
        rw [BitVec.toNat_eq, BitVec.toNat_umod]
        rfl
      by_cases even : index.toNat % 2 = 0
      · have input : Merkle.nodeInput index leaf element =
            pairBytes (leaf, element) := by
          rw [Merkle.nodeInput, if_pos (bit.mpr even)]
          rfl
        obtain ⟨above, inputs⟩ := induction (index / 2)
          (c.keccak256 (pairBytes (leaf, element)))
        rw [half] at above inputs
        simp only [Merkle.climb, MerkleTree.computeHash, Merkle.climbInputs,
          MerkleTree.verifyInputs, even, if_true, input]
        exact ⟨above, congrArg (List.cons _) inputs⟩
      · have input : Merkle.nodeInput index leaf element =
            pairBytes (element, leaf) := by
          rw [Merkle.nodeInput, if_neg (fun zero => even (bit.mp zero))]
          rfl
        obtain ⟨above, inputs⟩ := induction (index / 2)
          (c.keccak256 (pairBytes (element, leaf)))
        rw [half] at above inputs
        simp only [Merkle.climb, MerkleTree.computeHash, Merkle.climbInputs,
          MerkleTree.verifyInputs, even, if_false, input]
        exact ⟨above, congrArg (List.cons _) inputs⟩

/-- Reaching the root from another value takes a collision. -/
theorem computeHash_sound {keccak256 : List UInt8 → Hash} {depth : Nat}
    (proper : 1 ≤ depth) {hashs : List Hash}
    (perfect : hashs.length = 2 ^ depth) {mt : MerkleTree}
    (made : MerkleTree.newMerkleTree keccak256 hashs = some mt)
    {leafIdx : Nat} (inside : leafIdx < 2 ^ depth) {proof : List Hash}
    (levels : proof.length = depth) {leafHash : Hash}
    (reaches : MerkleTree.computeHash keccak256 proof leafIdx leafHash =
      mt.root) :
    hashs[leafIdx]? = some leafHash ∨
      DigestCollision keccak256 (MerkleTree.treeInputs keccak256 hashs ++
        MerkleTree.verifyInputs keccak256 proof leafIdx leafHash) := by
  have even : hashs.length % 2 = 0 := by
    obtain ⟨lower, rfl⟩ := Nat.exists_eq_add_of_le' proper
    rw [perfect, Nat.pow_succ]
    omega
  have unpadded : MerkleTree.padded hashs = hashs := by
    rw [MerkleTree.padded, if_neg (not_not.mpr even)]
  obtain ⟨tree, built, rfl, inputs⟩ := MerkleTree.exists_halves made
  rw [unpadded] at built
  rw [MerkleTree.computeHash_eq_climb] at reaches
  rcases HashTree.climb_sound perfect built levels inside reaches with
    found | collides
  · exact .inl found
  · right
    rw [inputs, MerkleTree.verifyInputs_eq, ← List.map_append]
    exact digestCollision_of_collides collides

/-- Accepted proofs of the node and of the contract are for the leaf at the
index. -/
theorem membership_proofs_sound (keccak256 : List UInt8 → Hash) {depth : Nat}
    (proper : 1 ≤ depth) {hashs : List Hash}
    (perfect : hashs.length = 2 ^ depth) :
    ∃ mt, MerkleTree.newMerkleTree keccak256 hashs = some mt ∧
      ∀ leafIdx < 2 ^ depth, ∀ leafHash,
        (∀ proof : List Hash, proof.length = depth →
          MerkleTree.verify keccak256 leafHash mt.root leafIdx proof = true →
            hashs[leafIdx]? = some leafHash ∨
              DigestCollision keccak256
                (MerkleTree.treeInputs keccak256 hashs ++
                  MerkleTree.verifyInputs keccak256 proof leafIdx
                    leafHash)) ∧
        (depth = 16 → ∀ ecrecover proof,
          Merkle.checkMembership ⟨keccak256, ecrecover⟩ leafHash
              (BitVec.ofNat 256 leafIdx) mt.root proof = some true →
            hashs[leafIdx]? = some leafHash ∨
              DigestCollision keccak256
                (MerkleTree.treeInputs keccak256 hashs ++
                  Merkle.climbInputs ⟨keccak256, ecrecover⟩
                    (Merkle.proofElements 16 proof)
                    (BitVec.ofNat 256 leafIdx) leafHash)) := by
  have nonempty : hashs ≠ [] := by
    rintro rfl
    have positive := Nat.two_pow_pos depth
    rw [← perfect] at positive
    cases positive
  obtain ⟨mt, made⟩ := MerkleTree.newMerkleTree_isSome keccak256 nonempty
  refine ⟨mt, made, ?_⟩
  intro leafIdx inside leafHash
  constructor
  · intro proof levels verified
    exact computeHash_sound proper perfect made inside levels
      (beq_iff_eq.mp verified)
  · rintro rfl ecrecover proof accepted
    obtain ⟨folded, inputs⟩ := climb_eq_computeHash ⟨keccak256, ecrecover⟩
      (Merkle.proofElements 16 proof) (BitVec.ofNat 256 leafIdx) leafHash
    have index : (BitVec.ofNat 256 leafIdx).toNat = leafIdx := by
      rw [BitVec.toNat_ofNat, Nat.mod_eq_of_lt]
      omega
    rw [Merkle.checkMembership] at accepted
    split at accepted
    · rw [Option.some.injEq, beq_iff_eq, folded, index] at accepted
      rw [inputs, index]
      exact computeHash_sound proper perfect made inside
        (length_proofElements 16 proof) accepted
    · cases accepted

theorem two_hashes_membership_sound :
    ∃ mt, MerkleTree.newMerkleTree Core.Sample.pairDigest
        [Core.Sample.testHash 2, Core.Sample.testHash 3] = some mt ∧
      MerkleTree.verify Core.Sample.pairDigest (Core.Sample.testHash 2)
        mt.root 0 [Core.Sample.testHash 3] = true ∧
      ([Core.Sample.testHash 2, Core.Sample.testHash 3][0]? =
          some (Core.Sample.testHash 2) ∨
        DigestCollision Core.Sample.pairDigest
          (MerkleTree.treeInputs Core.Sample.pairDigest
              [Core.Sample.testHash 2, Core.Sample.testHash 3] ++
            MerkleTree.verifyInputs Core.Sample.pairDigest
              [Core.Sample.testHash 3] 0 (Core.Sample.testHash 2))) := by
  have verified : ∀ mt, MerkleTree.newMerkleTree Core.Sample.pairDigest
      [Core.Sample.testHash 2, Core.Sample.testHash 3] = some mt →
        MerkleTree.verify Core.Sample.pairDigest (Core.Sample.testHash 2)
          mt.root 0 [Core.Sample.testHash 3] = true := by
    intro mt made
    cases made
    decide +kernel
  obtain ⟨mt, made, sound⟩ := membership_proofs_sound Core.Sample.pairDigest
    (le_refl 1)
    (rfl : [Core.Sample.testHash 2, Core.Sample.testHash 3].length = 2 ^ 1)
  refine ⟨mt, made, verified mt made, ?_⟩
  exact (sound 0 (by decide) (Core.Sample.testHash 2)).1
    [Core.Sample.testHash 3] rfl (verified mt made)

end Plasma.Bridge
