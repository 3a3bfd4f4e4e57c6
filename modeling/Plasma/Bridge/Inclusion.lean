import Plasma.Core.Encoding
import Plasma.Core.Merkle
import Plasma.Core.OperatorRun
import Plasma.Contract.Evm

/-!
# Inclusion proofs between the node and the contract

The node proves the membership of a transaction by a path of the tree that
splits the hashes in halves, the contract folds exactly sixteen siblings, and
the root that is submitted is the root of the transaction trie.
-/

namespace Plasma.Bridge

open Plasma.Core Plasma.Lib Plasma.Contract

/-- The contract accepts the proof of a transaction of the block for the root
of the tree, and this is the root that was submitted. -/
def Included (p : Primitives)
    (ecrecover : Hash → UInt8 → Hash → Hash → Address) (block : Block)
    (txIdx : UInt32) : Prop :=
  ∃ tx mtree proof, block.transactions[txIdx.toNat]? = some tx ∧
    MerkleTree.newMerkleTree p.keccak256 (block.transactions.map p.txHash) =
      some mtree ∧
    merkleProof p block txIdx = some proof ∧
    Merkle.checkMembership ⟨p.keccak256, ecrecover⟩ (p.txHash tx)
      (BitVec.ofNat 256 txIdx.toNat) mtree.root (proof.flatMap wordBytes) =
        some true ∧
    mtree.root = block.header.txHash

/-- The proofs of a block are no longer than the logarithm of its size. -/
theorem length_merkleProof_le {p : Primitives} {block : Block}
    {txIdx : UInt32} {proof : List Hash} {depth : Nat}
    (few : block.transactions.length ≤ 2 ^ (depth + 1))
    (proved : merkleProof p block txIdx = some proof) :
    proof.length ≤ depth + 1 := by
  obtain ⟨mtree, made, rfl⟩ := Option.map_eq_some_iff.mp proved
  rw [MerkleTree.newMerkleTree] at made
  split at made
  · cases made
  · rw [MerkleTree.buildTree_eq, Option.map_eq_some_iff] at made
    obtain ⟨tree, built, rfl⟩ := made
    have bound : (MerkleTree.padded
        (block.transactions.map p.txHash)).length ≤ 2 ^ (depth + 1) := by
      rw [Nat.pow_succ] at few ⊢
      rw [MerkleTree.padded]
      split
      · next odd =>
          rw [List.length_map] at odd
          rw [List.length_append, List.length_map, List.length_singleton]
          omega
      · rwa [List.length_map]
    rw [MerkleTree.proof]
    split
    · exact Nat.zero_le _
    · next leaf found =>
        simp only [MerkleTree.ofHashTree] at found
        rw [List.getElem?_map, Option.map_eq_some_iff] at found
        obtain ⟨entry, found, rfl⟩ := found
        rw [MerkleTree.ofPath, List.length_map]
        exact HashTree.length_path_le bound built (List.mem_of_getElem? found)

theorem length_flatMap_wordBytes (proof : List Hash) :
    (proof.flatMap wordBytes).length = 32 * proof.length := by
  induction proof with
  | nil => rfl
  | cons element proof induction =>
      rw [List.flatMap_cons, List.length_append, length_wordBytes, induction,
        List.length_cons]
      omega

/-- No transaction of a block is proved included.  `trieNode` is the encoding
of the root of the transaction trie, a list of two or of seventeen items,
which has another length than two hashes. -/
theorem inclusion_never_proved {p : Primitives}
    {ecrecover : Hash → UInt8 → Hash → Hash → Address} {header : Header}
    {txs : List Transaction} {trieNode : List UInt8}
    (derived : p.deriveSha txs = p.keccak256 trieNode)
    (size : trieNode.length ≠ 64)
    (free : ∀ input ∈ MerkleTree.rootInput p.keccak256 (txs.map p.txHash),
      p.keccak256 input = p.keccak256 trieNode → input = trieNode)
    (txIdx : UInt32) :
    ¬ Included p ecrecover (Block.newBlock p header txs) txIdx ∧
      (txs.length ≤ 2 ^ 15 → ∀ proof leaf root,
        merkleProof p (Block.newBlock p header txs) txIdx = some proof →
          Merkle.checkMembership ⟨p.keccak256, ecrecover⟩ leaf
            (BitVec.ofNat 256 txIdx.toNat) root (proof.flatMap wordBytes) =
              none) := by
  constructor
  · rintro ⟨tx, mtree, proof, _, made, _, _, submitted⟩
    rw [Block.newBlock_transactions] at made
    obtain ⟨input, read, length, root⟩ := MerkleTree.root_eq_digest made
    rw [Block.newBlock_header, root, derived] at submitted
    rw [free input read submitted] at length
    exact size length
  · intro few proof leaf root proved
    have short : proof.length ≤ 15 :=
      length_merkleProof_le (by rw [Block.newBlock_transactions]; exact few)
        proved
    rw [Merkle.checkMembership, length_flatMap_wordBytes, if_neg (by omega)]

/-!
## A block with one transaction
-/

namespace Sample

/-- The root of the trie is the leaf with the key of the first
transaction. -/
def spendTrieNode : List UInt8 :=
  Rlp.encodeList [Rlp.encodeString [0x20, 0x80],
    Rlp.encodeString (Core.Sample.spend.encodeRLP.getD [])]

def spendTreeRoot : Hash :=
  0x43bb420660e8c4da635a17e8b59ef291e6c79d4d852a1367432bea9ce5c13190

/-- The digests of the root of the trie and of the root of the tree. -/
def inclusionPrimitives : Primitives :=
  { Core.Sample.primitives with
    keccak256 := Core.Sample.lookup
      [(spendTrieNode, Core.Sample.spendRoot),
        (bigEndian 32
            0x88233a830982342c31ac3e29f56e9fc2560443eef020fae272859d6cafc0e34a
          ++ bigEndian 32 0, spendTreeRoot)] 0 }

def noRecovery : Hash → UInt8 → Hash → Hash → Address := fun _ _ _ _ => 0

end Sample

theorem spend_never_proved_included :
    ¬ Included Sample.inclusionPrimitives Sample.noRecovery
      (Block.newBlock Sample.inclusionPrimitives
        (Core.Sample.header 0 0 1000) [Core.Sample.spend]) 0 := by
  have derived : Sample.inclusionPrimitives.deriveSha [Core.Sample.spend] =
      Sample.inclusionPrimitives.keccak256 Sample.spendTrieNode := by
    decide +kernel
  have size : Sample.spendTrieNode.length ≠ 64 := by decide +kernel
  have distinct : ∀ input ∈ MerkleTree.rootInput
      Sample.inclusionPrimitives.keccak256
      ([Core.Sample.spend].map Sample.inclusionPrimitives.txHash),
      Sample.inclusionPrimitives.keccak256 input ≠
        Sample.inclusionPrimitives.keccak256 Sample.spendTrieNode := by
    decide +kernel
  refine (inclusion_never_proved derived size ?_ 0).1
  intro input read same
  exact (distinct input read same).elim

/-- The proof has one element where the contract wants sixteen, and the root
of the tree is not the one in the header. -/
theorem spend_proof_reverts :
    merkleProof Sample.inclusionPrimitives
        (Block.newBlock Sample.inclusionPrimitives
          (Core.Sample.header 0 0 1000) [Core.Sample.spend]) 0 =
        some [0] ∧
      Merkle.checkMembership
        ⟨Sample.inclusionPrimitives.keccak256, Sample.noRecovery⟩
        (Sample.inclusionPrimitives.txHash Core.Sample.spend) 0
        Sample.spendTreeRoot ([(0 : Hash)].flatMap wordBytes) = none ∧
      (MerkleTree.newMerkleTree Sample.inclusionPrimitives.keccak256
        [Sample.inclusionPrimitives.txHash Core.Sample.spend]).map
          MerkleTree.root = some Sample.spendTreeRoot ∧
      (Block.newBlock Sample.inclusionPrimitives (Core.Sample.header 0 0 1000)
        [Core.Sample.spend]).header.txHash = Core.Sample.spendRoot ∧
      Core.Sample.spendRoot ≠ Sample.spendTreeRoot := by
  decide +kernel

end Plasma.Bridge
