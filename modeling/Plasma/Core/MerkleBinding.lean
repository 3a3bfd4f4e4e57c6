import Plasma.Core.Merkle

/-!
# What a Merkle root binds

The inputs that are hashed while a tree is built and while a proof is verified
are listed.  Equal roots come from equal lists of hashes, or two different
inputs in the lists have the same digest.
-/

namespace Plasma.Core

open Plasma.Lib

/-- The bytes that are hashed for a node. -/
def pairBytes (pair : Hash × Hash) : List UInt8 :=
  bigEndian 32 pair.1.toNat ++ bigEndian 32 pair.2.toNat

/-- Two different inputs of 64 bytes have the same digest. -/
def DigestCollision (keccak256 : List UInt8 → Hash)
    (inputs : List (List UInt8)) : Prop :=
  ∃ first ∈ inputs, ∃ second ∈ inputs, first.length = 64 ∧
    second.length = 64 ∧ first ≠ second ∧ keccak256 first = keccak256 second

@[simp] theorem length_pairBytes (pair : Hash × Hash) :
    (pairBytes pair).length = 64 := by
  rw [pairBytes, List.length_append, length_bigEndian, length_bigEndian]

theorem pairBytes_injective : Function.Injective pairBytes := by
  have fits : ∀ hash : Hash, hash.toNat < 256 ^ 32 := by
    intro hash
    exact hash.isLt.trans_eq (by norm_num)
  intro pair other same
  obtain ⟨left, right⟩ := List.append_inj same (by simp)
  exact Prod.ext
    (BitVec.eq_of_toNat_eq (bigEndian_injective (fits _) (fits _) left))
    (BitVec.eq_of_toNat_eq (bigEndian_injective (fits _) (fits _) right))

/-- Pairs that collide give inputs that collide. -/
theorem digestCollision_of_collides {keccak256 : List UInt8 → Hash}
    {pairs : List (Hash × Hash)}
    (collides : HashTree.Collides (hashPair keccak256) pairs) :
    DigestCollision keccak256 (pairs.map pairBytes) := by
  obtain ⟨first, inFirst, second, inSecond, different, same⟩ := collides
  exact ⟨_, List.mem_map_of_mem inFirst, _, List.mem_map_of_mem inSecond,
    length_pairBytes _, length_pairBytes _,
    fun equal => different (pairBytes_injective equal), same⟩

namespace MerkleTree

section

variable (keccak256 : List UInt8 → Hash)

/-- The inputs that `buildTree` hashes, in the order of its calls. -/
def buildInputs : Nat → List Hash → List (List UInt8)
  | _, [] => []
  | _, [_] => []
  | 0, _ => []
  | rounds + 1, hashs =>
      buildInputs rounds (hashs.take (hashs.length / 2)) ++
        buildInputs rounds (hashs.drop (hashs.length / 2)) ++
        match buildTree keccak256 rounds (hashs.take (hashs.length / 2)),
            buildTree keccak256 rounds (hashs.drop (hashs.length / 2)) with
        | some l, some r => [pairBytes (l.root, r.root)]
        | _, _ => []

/-- The inputs that `NewMerkleTree` hashes. -/
def treeInputs (hashs : List Hash) : List (List UInt8) :=
  buildInputs keccak256 (padded hashs).length (padded hashs)

/-- The inputs that `Verify` hashes. -/
def verifyInputs : List Hash → Nat → Hash → List (List UInt8)
  | [], _, _ => []
  | proofElement :: proof, leafIdx, computedHash =>
      (if leafIdx % 2 = 0 then pairBytes (computedHash, proofElement)
        else pairBytes (proofElement, computedHash)) ::
        verifyInputs proof (leafIdx / 2)
          (if leafIdx % 2 = 0 then hashPair keccak256 computedHash proofElement
            else hashPair keccak256 proofElement computedHash)

theorem verifyInputs_eq (proof : List Hash) (leafIdx : Nat)
    (leafHash : Hash) :
    verifyInputs keccak256 proof leafIdx leafHash =
      (HashTree.climbPairs (hashPair keccak256) proof leafIdx leafHash).map
        pairBytes := by
  induction proof generalizing leafIdx leafHash with
  | nil => rfl
  | cons element proof induction =>
      rw [verifyInputs, HashTree.climbPairs, HashTree.levelPair, List.map_cons]
      by_cases even : leafIdx % 2 = 0
      · simp only [even, if_true, induction]
      · simp only [even, if_false, induction]

theorem buildInputs_eq {rounds : Nat} {hashs : List Hash}
    {tree : HashTree Hash} (built : HashTree.halves rounds hashs = some tree) :
    buildInputs keccak256 rounds hashs =
      (tree.pairs (hashPair keccak256)).map pairBytes := by
  induction rounds generalizing hashs tree with
  | zero =>
      rcases hashs with _ | ⟨first, _ | ⟨second, rest⟩⟩
      · cases built
      · cases built
        rfl
      · cases built
  | succ rounds induction =>
      rcases hashs with _ | ⟨first, _ | ⟨second, rest⟩⟩
      · cases built
      · cases built
        rfl
      · obtain ⟨left, right, rfl, inLeft, inRight⟩ :=
          HashTree.exists_node_of_halves (by simp) built
        simp only [buildInputs, induction inLeft, induction inRight,
          buildTree_eq, inLeft, inRight, HashTree.pairs, List.map_append,
          Option.map_some]
        rfl

end

variable {keccak256 : List UInt8 → Hash} {hashs : List Hash}
  {mt : MerkleTree}

/-- The tree behind `NewMerkleTree`. -/
theorem exists_halves (made : newMerkleTree keccak256 hashs = some mt) :
    ∃ tree, HashTree.halves (padded hashs).length (padded hashs) = some tree ∧
      mt = ofHashTree keccak256 tree ∧
      treeInputs keccak256 hashs =
        (tree.pairs (hashPair keccak256)).map pairBytes := by
  rw [newMerkleTree] at made
  split at made
  · cases made
  · rw [buildTree_eq, Option.map_eq_some_iff] at made
    obtain ⟨tree, built, rfl⟩ := made
    exact ⟨tree, built, rfl, buildInputs_eq keccak256 built⟩

/-- The leaves are tracked in the order of the hashes, the padding last. -/
theorem leaves_map_hash (made : newMerkleTree keccak256 hashs = some mt) :
    mt.leaves.map TNode.hash = padded hashs := by
  obtain ⟨tree, built, rfl, _⟩ := exists_halves made
  rw [← HashTree.leaves_halves built, ← HashTree.paths_map_fst]
  simp only [ofHashTree, List.map_map]
  rfl

theorem padded_injective {others : List Hash}
    (same : hashs.length = others.length)
    (equal : padded hashs = padded others) : hashs = others := by
  unfold padded at equal
  rw [same] at equal
  split at equal
  · exact (List.append_inj equal same).1
  · exact equal

theorem newMerkleTree_isSome (keccak256 : List UInt8 → Hash)
    (nonempty : hashs ≠ []) :
    ∃ mt, newMerkleTree keccak256 hashs = some mt := by
  have positive : 0 < hashs.length := List.length_pos_of_ne_nil nonempty
  have longer := (@length_padded hashs).1
  obtain ⟨tree, built⟩ := HashTree.halves_eq_some
    (by omega : 1 ≤ (padded hashs).length) (le_refl _)
  refine ⟨ofHashTree keccak256 tree, ?_⟩
  rw [newMerkleTree, if_neg (by omega), buildTree_eq, built]
  rfl

end MerkleTree

/-- The root binds the list of hashes, and the leaves are in its order. -/
theorem merkle_root_binds (keccak256 : List UInt8 → Hash)
    {hashs others : List Hash} (nonempty : hashs ≠ [])
    (same : hashs.length = others.length) :
    ∃ mt other, MerkleTree.newMerkleTree keccak256 hashs = some mt ∧
      MerkleTree.newMerkleTree keccak256 others = some other ∧
      (mt.root = other.root → hashs = others ∨
        DigestCollision keccak256 (MerkleTree.treeInputs keccak256 hashs ++
          MerkleTree.treeInputs keccak256 others)) ∧
      mt.leaves.map TNode.hash =
        (if hashs.length % 2 = 0 then hashs else hashs ++ [emptyHash]) ∧
      other.leaves.map TNode.hash =
        (if others.length % 2 = 0 then others else others ++ [emptyHash]) := by
  have othersNonempty : others ≠ [] := by
    rintro rfl
    exact nonempty (List.length_eq_zero_iff.mp same)
  obtain ⟨mt, made⟩ := MerkleTree.newMerkleTree_isSome keccak256 nonempty
  obtain ⟨other, otherMade⟩ :=
    MerkleTree.newMerkleTree_isSome keccak256 othersNonempty
  have order : ∀ list : List Hash, MerkleTree.padded list =
      if list.length % 2 = 0 then list else list ++ [emptyHash] := by
    intro list
    rw [MerkleTree.padded, ite_not]
  refine ⟨mt, other, made, otherMade, ?_, ?_, ?_⟩
  · intro equal
    obtain ⟨tree, built, rfl, inputs⟩ := MerkleTree.exists_halves made
    obtain ⟨tree', built', rfl, inputs'⟩ := MerkleTree.exists_halves otherMade
    have lengths : (MerkleTree.padded hashs).length =
        (MerkleTree.padded others).length := by
      rw [order, order, same]
      split
      · exact same
      · rw [List.length_append, List.length_append, same]
    rw [← lengths] at built'
    rcases HashTree.eq_or_collides lengths built built' equal with
      equal | collides
    · exact .inl (MerkleTree.padded_injective same equal)
    · right
      rw [inputs, inputs', ← List.map_append]
      exact digestCollision_of_collides collides
  · rw [MerkleTree.leaves_map_hash made, order]
  · rw [MerkleTree.leaves_map_hash otherMade, order]

theorem six_hashes_bound :
    ∃ mt other,
      MerkleTree.newMerkleTree Sample.pairDigest Sample.sixHashes =
        some mt ∧
      MerkleTree.newMerkleTree Sample.pairDigest Sample.sixHashes.reverse =
        some other ∧
      (mt.root = other.root →
        Sample.sixHashes = Sample.sixHashes.reverse ∨
          DigestCollision Sample.pairDigest
            (MerkleTree.treeInputs Sample.pairDigest Sample.sixHashes ++
              MerkleTree.treeInputs Sample.pairDigest
                Sample.sixHashes.reverse)) ∧
      mt.leaves.map TNode.hash = Sample.sixHashes ∧
      other.leaves.map TNode.hash = Sample.sixHashes.reverse :=
  merkle_root_binds Sample.pairDigest (by decide) (by decide)

end Plasma.Core
