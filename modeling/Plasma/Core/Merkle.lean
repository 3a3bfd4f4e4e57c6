import Plasma.Core.Types
import Plasma.Lib.Bytes
import Plasma.Lib.HashTree

/-!
# Merkle trees of the node

`core/merkle.go`: a tree splits the hashes in halves, a proof lists the
siblings of a leaf, and `Verify` takes the sides from the bits of the leaf
index.  The digest is a parameter.
-/

namespace Plasma.Core

open Plasma.Lib

def emptyHash : Hash := 0

/-- The digest of two nodes, as `Keccak256` takes them one after the other. -/
def hashPair (keccak256 : List UInt8 → Hash) (left right : Hash) : Hash :=
  keccak256 (bigEndian 32 left.toNat ++ bigEndian 32 right.toNat)

/-- A leaf; the chain of its parents is kept as the hash of the other child of
each of them, from the leaf up. -/
structure TNode where
  hash : Hash
  siblings : List Hash
deriving DecidableEq, Repr

/-- The leaves in the order in which they were built and the hash of the
root. -/
structure MerkleTree where
  leaves : List TNode
  root : Hash
deriving DecidableEq, Repr

/-- The parent of a subtree is set when the other child is built. -/
def TNode.under (sibling : Hash) (leaf : TNode) : TNode :=
  { leaf with siblings := leaf.siblings ++ [sibling] }

namespace MerkleTree

section

variable (keccak256 : List UInt8 → Hash)

/-- The recursion on an empty list would not end; its depth is bounded by the
number of hashes. -/
def buildTree : Nat → List Hash → Option MerkleTree
  | _, [] => none
  | _, [hash] => some ⟨[⟨hash, []⟩], hash⟩
  | 0, _ => none
  | rounds + 1, hashs => do
      let l ← buildTree rounds (hashs.take (hashs.length / 2))
      let r ← buildTree rounds (hashs.drop (hashs.length / 2))
      return {
        leaves := l.leaves.map (TNode.under r.root) ++
          r.leaves.map (TNode.under l.root)
        root := hashPair keccak256 l.root r.root }

/-- An odd number of hashes is padded with the empty hash. -/
def padded (hashs : List Hash) : List Hash :=
  if hashs.length % 2 ≠ 0 then hashs ++ [emptyHash] else hashs

def newMerkleTree (hashs : List Hash) : Option MerkleTree :=
  if hashs.length = 0 then none
  else buildTree keccak256 (padded hashs).length (padded hashs)

def proof (mt : MerkleTree) (leafIdx : Nat) : List Hash :=
  match mt.leaves[leafIdx]? with
  | none => []
  | some leaf => leaf.siblings

def computeHash : List Hash → Nat → Hash → Hash
  | [], _, computedHash => computedHash
  | proofElement :: proof, leafIdx, computedHash =>
      computeHash proof (leafIdx / 2)
        (if leafIdx % 2 = 0 then hashPair keccak256 computedHash proofElement
          else hashPair keccak256 proofElement computedHash)

def verify (leafHash rootHash : Hash) (leafIdx : Nat) (proof : List Hash) :
    Bool :=
  computeHash keccak256 proof leafIdx leafHash == rootHash

theorem computeHash_eq_climb (proof : List Hash) (leafIdx : Nat)
    (leafHash : Hash) :
    computeHash keccak256 proof leafIdx leafHash =
      HashTree.climb (hashPair keccak256) proof leafIdx leafHash := by
  induction proof generalizing leafIdx leafHash with
  | nil => rfl
  | cons element proof induction => exact induction _ _

/-- The leaf at the end of a path. -/
def ofPath (entry : Hash × HashTree.Path Hash) : TNode :=
  ⟨entry.1, entry.2.map fun level => level.2.value (hashPair keccak256)⟩

/-- The tree of the node holds the values of the tree of halves. -/
def ofHashTree (tree : HashTree Hash) : MerkleTree :=
  ⟨tree.paths.map (ofPath keccak256), tree.value (hashPair keccak256)⟩

theorem buildTree_eq (rounds : Nat) (hashs : List Hash) :
    buildTree keccak256 rounds hashs =
      (HashTree.halves rounds hashs).map (ofHashTree keccak256) := by
  induction rounds generalizing hashs with
  | zero =>
      rcases hashs with _ | ⟨first, _ | ⟨second, rest⟩⟩
      · rfl
      · rfl
      · rfl
  | succ rounds induction =>
      rcases hashs with _ | ⟨first, _ | ⟨second, rest⟩⟩
      · rfl
      · rfl
      · simp only [buildTree, HashTree.halves, induction]
        cases HashTree.halves rounds ((first :: second :: rest).take
          ((first :: second :: rest).length / 2)) with
        | none => rfl
        | some left =>
            cases HashTree.halves rounds ((first :: second :: rest).drop
              ((first :: second :: rest).length / 2)) with
            | none => rfl
            | some right =>
                simp [ofHashTree, HashTree.paths, HashTree.value, ofPath,
                  TNode.under, Function.comp_def]

end

/-- A leaf of the tree of the hashes with its path. -/
def leafPath (hashs : List Hash) (i : Nat) :
    Option (Hash × HashTree.Path Hash) := do
  let tree ← HashTree.halves (padded hashs).length (padded hashs)
  tree.paths[i]?

/-- The sides on which the leaf lies are the bits of its index, except at
nodes whose two subtrees are the same. -/
def SidesAgree (hashs : List Hash) (i : Nat) : Prop :=
  ∃ entry ∈ leafPath hashs i, HashTree.Aligned entry.2 i (.leaf entry.1)

instance (hashs : List Hash) (i : Nat) : Decidable (SidesAgree hashs i) :=
  inferInstanceAs (Decidable (∃ entry ∈ leafPath hashs i, _))

variable {hashs : List Hash} {i : Nat}

theorem length_padded : hashs.length ≤ (padded hashs).length ∧
    (padded hashs).length ≤ hashs.length + 1 := by
  rw [padded]
  split <;> simp

theorem getElem?_padded (inside : i < hashs.length) :
    (padded hashs)[i]? = hashs[i]? := by
  rw [padded]
  split
  · exact List.getElem?_append_left inside
  · rfl

/-- The tree of the node, seen from one of the hashes. -/
theorem newMerkleTree_eq (inside : i < hashs.length) :
    ∃ tree path, leafPath hashs i = some (hashs[i], path) ∧
      tree.leaves.length ≤ hashs.length + 1 ∧
      HashTree.rebuild path (.leaf hashs[i]) = tree ∧
      ∀ keccak256, ∃ mt, newMerkleTree keccak256 hashs = some mt ∧
        mt.root = tree.value (hashPair keccak256) ∧
        mt.proof i =
          path.map fun level => level.2.value (hashPair keccak256) := by
  have nonempty : 1 ≤ (padded hashs).length := by
    have longer := (@length_padded hashs).1
    omega
  obtain ⟨tree, built⟩ := HashTree.halves_eq_some nonempty
    (le_refl (padded hashs).length)
  have leaves := HashTree.leaves_halves built
  have found : (tree.paths.map Prod.fst)[i]? = some hashs[i] := by
    rw [tree.paths_map_fst, leaves, getElem?_padded inside,
      List.getElem?_eq_getElem inside]
  rw [List.getElem?_map, Option.map_eq_some_iff] at found
  obtain ⟨⟨hash, path⟩, found, rfl⟩ := found
  refine ⟨tree, path, ?_, ?_, ?_, ?_⟩
  · rw [leafPath, built]
    exact found
  · rw [leaves]
    exact length_padded.2
  · exact HashTree.rebuild_of_mem_paths (List.mem_of_getElem? found)
  · intro keccak256
    refine ⟨ofHashTree keccak256 tree, ?_, rfl, ?_⟩
    · rw [newMerkleTree, if_neg (by omega), buildTree_eq, built]
      rfl
    · rw [proof, ofHashTree]
      simp only [List.getElem?_map, found, Option.map_some]
      rfl

/-- Every combining function comes from a digest of byte strings. -/
theorem exists_hashPair_eq (combine : Hash → Hash → Hash) :
    ∃ keccak256, hashPair keccak256 = combine := by
  refine ⟨fun bytes => combine
    (BitVec.ofNat 256 (fromBigEndian (bytes.take 32)))
    (BitVec.ofNat 256 (fromBigEndian (bytes.drop 32))), ?_⟩
  have back : ∀ hash : Hash,
      BitVec.ofNat 256 (fromBigEndian (bigEndian 32 hash.toNat)) = hash := by
    intro hash
    rw [fromBigEndian_bigEndian (hash.isLt.trans_eq (by norm_num)),
      BitVec.ofNat_toNat, BitVec.setWidth_eq]
  funext left right
  simp only [hashPair]
  rw [List.take_left' (length_bigEndian _ _),
    List.drop_left' (length_bigEndian _ _), back, back]

/-- When the proof of a hash verifies whatever the digest is.  The length of a
slice is an `int`. -/
theorem proof_verifies_iff (fits : hashs.length < 2 ^ 63)
    (inside : i < hashs.length) :
    (∀ keccak256, ∃ mt, newMerkleTree keccak256 hashs = some mt ∧
      verify keccak256 hashs[i] mt.root i (mt.proof i) = true) ↔
      SidesAgree hashs i := by
  obtain ⟨tree, path, located, size, rebuilt, built⟩ :=
    newMerkleTree_eq inside
  have agrees : SidesAgree hashs i ↔
      HashTree.Aligned path i (.leaf hashs[i]) := by
    simp [SidesAgree, located]
  have verified : ∀ keccak256,
      (∃ mt, newMerkleTree keccak256 hashs = some mt ∧
        verify keccak256 hashs[i] mt.root i (mt.proof i) = true) ↔
      (HashTree.rebuildAt path i (.leaf hashs[i])).value
        (hashPair keccak256) = tree.value (hashPair keccak256) := by
    intro keccak256
    obtain ⟨mt, made, root, siblings⟩ := built keccak256
    have computed := HashTree.climb_eq_value (hashPair keccak256) path i
      (.leaf hashs[i])
    simp only [made, Option.some.injEq, exists_eq_left', verify, root,
      siblings, computeHash_eq_climb, beq_iff_eq]
    rw [← computed]
    rfl
  rw [agrees]
  constructor
  · intro verifies
    have room : 2 * ((HashTree.rebuildAt path i
        (.leaf hashs[i])).leaves.length + tree.leaves.length) ≤
        Fintype.card Hash := by
      rw [HashTree.length_leaves_rebuildAt path i rfl, rebuilt,
        ← FinEnum.card_eq_fintypeCard, FinEnum.card_bitVec]
      calc
        2 * (tree.leaves.length + tree.leaves.length)
            ≤ 2 * (2 ^ 63 + 2 ^ 63) := by omega
        _ ≤ 2 ^ 256 := by norm_num
    have same : HashTree.rebuildAt path i (.leaf hashs[i]) = tree := by
      apply HashTree.eq_of_forall_value_eq room
      intro combine
      obtain ⟨keccak256, rfl⟩ := exists_hashPair_eq combine
      exact (verified keccak256).mp (verifies keccak256)
    rw [← rebuilt] at same
    exact (HashTree.rebuildAt_eq_rebuild_iff.mp same).2
  · intro aligned keccak256
    rw [verified, ← rebuilt,
      HashTree.rebuildAt_eq_rebuild_iff.mpr ⟨rfl, aligned⟩]

/-- What the hash of the root is the digest of. -/
def rootInput (keccak256 : List UInt8 → Hash) (hashs : List Hash) :
    Option (List UInt8) := do
  let count := (padded hashs).length
  let l ← buildTree keccak256 (count - 1) ((padded hashs).take (count / 2))
  let r ← buildTree keccak256 (count - 1) ((padded hashs).drop (count / 2))
  return bigEndian 32 l.root.toNat ++ bigEndian 32 r.root.toNat

theorem root_eq_digest {keccak256 : List UInt8 → Hash} {mt : MerkleTree}
    (made : newMerkleTree keccak256 hashs = some mt) :
    ∃ input, rootInput keccak256 hashs = some input ∧ input.length = 64 ∧
      mt.root = keccak256 input := by
  rw [newMerkleTree] at made
  split at made
  · cases made
  · next nonempty =>
      have several : 2 ≤ (padded hashs).length := by
        rw [padded]
        split
        · rw [List.length_append, List.length_singleton]
          omega
        · omega
      rw [rootInput]
      generalize padded hashs = leaves at made several
      rcases leaves with _ | ⟨first, _ | ⟨second, rest⟩⟩
      · cases several
      · exact (Nat.not_succ_le_self 1 several).elim
      · simp only [List.length_cons, buildTree, Nat.add_sub_cancel,
          Option.bind_eq_bind, Option.bind_eq_some_iff, Option.pure_def,
          Option.some.injEq] at made ⊢
        obtain ⟨l, builtLeft, r, builtRight, rfl⟩ := made
        exact ⟨_, ⟨l, builtLeft, r, builtRight, rfl⟩, by simp, rfl⟩

/-- Every proof of a tree with a power of two of leaves verifies. -/
theorem sidesAgree_of_two_pow {depth : Nat}
    (perfect : (padded hashs).length = 2 ^ depth)
    (inside : i < hashs.length) : SidesAgree hashs i := by
  obtain ⟨_, path, located, _⟩ := newMerkleTree_eq inside
  have found := located
  rw [leafPath, Option.bind_eq_bind, Option.bind_eq_some_iff] at found
  obtain ⟨tree, built, found⟩ := found
  exact ⟨_, located, (HashTree.aligned_halves perfect built found).2⟩

end MerkleTree

/-- The proof of a transaction of a block; a block without transactions has
no tree. -/
def merkleProof (p : Primitives) (b : Block) (txIdx : UInt32) :
    Option (List Hash) :=
  (MerkleTree.newMerkleTree p.keccak256 (b.transactions.map p.txHash)).map
    fun mtree => mtree.proof txIdx.toNat

/-!
## Samples

The hashes of the tests of the node, with the digests of their nodes.
-/

namespace Sample

def testHash (factor : Nat) : Hash :=
  BitVec.ofNat 256 (fromBigEndian
    ((List.range 32).map fun i => UInt8.ofNat (i * factor)))

def sixHashes : List Hash :=
  [testHash 1, testHash 2, testHash 3, testHash 4, testHash 5, testHash 6]

/-- The digests of pairs of hashes. -/
def pairs : List ((Hash × Hash) × Hash) :=
  [((testHash 2, testHash 3),
      0x14d01f2380a75c9737f6802ab8beba8b48087b7de1c82c50d1f24f51f862819c),
    ((testHash 1,
        0x14d01f2380a75c9737f6802ab8beba8b48087b7de1c82c50d1f24f51f862819c),
      0x00fb24ada179ec28c2b501edb6b5269b9675eae46d74f933d01338a74ca4fd0f),
    ((testHash 5, testHash 6),
      0x32806c1e0f6fbdfb30f696edba0b770cdf56576a85a6ceaa5fd26e8b02b07774),
    ((testHash 4,
        0x32806c1e0f6fbdfb30f696edba0b770cdf56576a85a6ceaa5fd26e8b02b07774),
      0xbfad15f2e5fb4bda18524af503b8ae27c336458c5b4cba07488cc9fd005ddd91),
    ((0x00fb24ada179ec28c2b501edb6b5269b9675eae46d74f933d01338a74ca4fd0f,
        0xbfad15f2e5fb4bda18524af503b8ae27c336458c5b4cba07488cc9fd005ddd91),
      0xbbe1793d8a09ad300818ca629ed46397f0fc4911095edae08e55f6bc146edbe9),
    ((testHash 3, testHash 2),
      0xc827d6f07a3e09bd7fb77c7bd4695c76c62354e9c0e1ecbbd24656e661b8dd36),
    ((0xc827d6f07a3e09bd7fb77c7bd4695c76c62354e9c0e1ecbbd24656e661b8dd36,
        testHash 1),
      0x815ef2b8f2283d9d9d050fdfb7599660107b3a962f8909270cb9b0a2dd9127ef),
    ((0x815ef2b8f2283d9d9d050fdfb7599660107b3a962f8909270cb9b0a2dd9127ef,
        0xbfad15f2e5fb4bda18524af503b8ae27c336458c5b4cba07488cc9fd005ddd91),
      0x183d7a5a02b65e2101f27a388dc005816436b59eee6775ce3833a52a43e18505)]

def pairDigest (bytes : List UInt8) : Hash :=
  ((pairs.map fun entry =>
      (bigEndian 32 entry.1.1.toNat ++ bigEndian 32 entry.1.2.toNat,
        entry.2)).lookup bytes).getD 0

end Sample

/-- The first of six hashes lies on the left of both its nodes. -/
theorem proof_of_first_hash_verifies :
    ∃ mt, MerkleTree.newMerkleTree Sample.pairDigest Sample.sixHashes =
        some mt ∧
      MerkleTree.verify Sample.pairDigest Sample.sixHashes[0] mt.root 0
        (mt.proof 0) = true := by
  have agree : MerkleTree.SidesAgree Sample.sixHashes 0 := by decide +kernel
  exact (MerkleTree.proof_verifies_iff (by decide) (by decide)).mpr agree
    Sample.pairDigest

/-- The sides of the second are left, right and left; the bits of its index
are right, left and left. -/
theorem proof_of_second_hash_fails :
    ∃ mt, MerkleTree.newMerkleTree Sample.pairDigest Sample.sixHashes =
        some mt ∧
      mt.root =
        0xbbe1793d8a09ad300818ca629ed46397f0fc4911095edae08e55f6bc146edbe9 ∧
      MerkleTree.verify Sample.pairDigest Sample.sixHashes[1] mt.root 1
        (mt.proof 1) = false := by
  refine ⟨_, rfl, ?_⟩
  decide +kernel

end Plasma.Core
