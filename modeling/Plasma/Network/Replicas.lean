import Plasma.Network.BlockRelay
import Plasma.Core.Agreement

/-!
# The recorded outputs of the hosts

The hosts of a network receive blocks in different orders, more than once and
between restarts.  What a host has recorded is a ledger of the blocks it has
put into its channel, so that hosts with the same blocks agree, but for the
deposits that a block spends: a host that takes such a deposit block again
records the deposit again.  A block that cannot be encoded is written without
being stored, so that a host may write it again.
-/

namespace Plasma.Network

open Plasma.Core Plasma.Lib Plasma.Lib.Gossip

/-- The blocks of the batches that a host has put into its channel. -/
def blocksOf (done : List (List Block)) : Set Block :=
  {block | ∃ batch ∈ done, block ∈ batch}

theorem blocksOf_nil : blocksOf [] = ∅ := by
  simp [blocksOf]

theorem blocksOf_append {done batches : List (List Block)} {block : Block}
    (same : ∀ batch ∈ batches, batch = [block]) (some : batches ≠ []) :
    blocksOf (done ++ batches) = insert block (blocksOf done) := by
  obtain ⟨first, rest, rfl⟩ := List.exists_cons_of_ne_nil some
  ext other
  constructor
  · rintro ⟨batch, member, part⟩
    rcases List.mem_append.mp member with before | new
    · exact .inr ⟨batch, before, part⟩
    · rw [same batch new] at part
      exact .inl (List.mem_singleton.mp part)
  · rintro (rfl | ⟨batch, member, part⟩)
    · refine ⟨first, by simp, ?_⟩
      rw [same first List.mem_cons_self]
      exact List.mem_singleton_self other
    · exact ⟨batch, List.mem_append_left _ member, part⟩

/-- A host stores the child blocks it has written, and what it has recorded is
a ledger of its blocks. -/
structure Replica (p : Primitives) (node : Node) (done : List (List Block)) :
    Prop where
  inOrder : node.InOrder p
  stored : ∀ block ∈ blocksOf done, block.encodes = true →
    Stored p node.database.db block
  ledger : Coherent (blocksOf done) →
    (∀ block ∈ blocksOf done, block.encodes = true) →
      Ledger (blocksOf done) node.utxoSet

theorem Replica.ledger_wrote {p : Primitives} {signer : EIP155Signer}
    {node next : Node} {done : List (List Block)}
    (replica : Replica p node done) {block : Block} {broadcasts : List Block}
    {result : Except WriteError Unit}
    (wrote : Node.Wrote p signer node next block broadcasts result)
    (some : broadcasts ≠ [])
    (new : block.onDepositPath = false → ¬ Stored p node.database.db block)
    (coherent : Coherent (insert block (blocksOf done)))
    (encodes : ∀ other ∈ insert block (blocksOf done),
      other.encodes = true) :
    Ledger (insert block (blocksOf done)) next.utxoSet := by
  obtain ⟨outputs, chain, running, verdict⟩ := wrote.outputs some
  have own := Set.mem_insert block (blocksOf done)
  have small := coherent.numbers block own
  have spendable := spendable_of_verdict small (coherent.deposits block own)
    verdict
  have recorded : chain.utxoSet = node.utxoSet := by
    rw [BlockChain.utxoSet, Node.utxoSet, Node.database_of_chain running]
  rw [recorded] at spendable
  have before := replica.ledger
    (coherent.mono (Set.subset_insert block (blocksOf done)))
    (fun other member => encodes other (.inr member))
  rw [outputs]
  apply before.write coherent spendable
  intro child member
  have nonneg : 0 ≤ block.number := by omega
  have path : block.onDepositPath = false := by
    by_contra deposit
    rw [Bool.not_eq_false] at deposit
    exact (Block.onDepositPath_iff nonneg small.2).mp deposit child
  exact new path (replica.stored block member (encodes block own))

theorem replica_writeRule (p : Primitives) (signer : EIP155Signer) :
    WriteRule p signer (Replica p) where
  inOrder := by
    intro node done replica
    exact replica.inOrder
  wrote := by
    intro node next block broadcasts result done batches replica wrote batched
    rcases wrote.effect with ⟨one, _, stored, new, _⟩ | ⟨none, database, _⟩
    · have some : broadcasts ≠ [] := by
        rw [one]
        exact List.cons_ne_nil block []
      have joined : blocksOf (done ++ batches) =
          insert block (blocksOf done) := by
        apply blocksOf_append batched.same
        intro silent
        exact some (batched.silent.mp silent)
      refine ⟨wrote.inOrder, ?_, ?_⟩
      · intro other member encodes
        rw [joined] at member
        rcases member with rfl | before
        · exact stored other (.inl ⟨rfl, encodes⟩)
        · exact stored other (.inr (replica.stored other before encodes))
      · rw [joined]
        exact replica.ledger_wrote wrote some new
    · rw [batched.silent.mpr none, List.append_nil]
      refine ⟨wrote.inOrder, ?_, ?_⟩
      · rw [database]
        exact replica.stored
      · rw [Node.utxoSet, database]
        exact replica.ledger
  stays := by
    intro node next done replica inOrder outputs kept
    refine ⟨inOrder, ?_, ?_⟩
    · intro block member encodes
      exact kept _ _ (replica.stored block member encodes)
    · rw [outputs]
      exact replica.ledger

section Run

variable {Peer : Type} [DecidableEq Peer]

/-- With working disks two hosts that started without outputs and have written
the same blocks, in whatever order, how often and between which restarts,
record the same under every identity but those of spent deposits. -/
theorem replicas_agree (p : Primitives) (signer : EIP155Signer)
    {net : BlockNetwork Peer}
    (inOrder : ∀ name, (net.hosts name).worker.InOrder p)
    (empty : ∀ name id, (net.hosts name).worker.utxoSet id = none)
    {moves : List (BlockMove Peer)}
    (working : WorkingDisks p signer net moves)
    {first second : Peer} {blocks : Set Block} (coherent : Coherent blocks)
    (encodes : ∀ block ∈ blocks, block.encodes = true)
    (written : blocksOf (pushes first (gossipBlocks p signer net moves).2) =
      blocks)
    (also : blocksOf (pushes second (gossipBlocks p signer net moves).2) =
      blocks) (id : UTXOID) :
    ((gossipBlocks p signer net moves).1.hosts first).worker.utxoSet id =
        ((gossipBlocks p signer net moves).1.hosts second).worker.utxoSet id ∨
      (¬ 1000 ∣ id.blockNum.toNat ∧
        ∃ block ∈ blocks, id ∈ block.inputIds) := by
  have replica : ∀ name, Replica p
      ((gossipBlocks p signer net moves).1.hosts name).worker
      (pushes name (gossipBlocks p signer net moves).2) := by
    intro name
    refine keeps_run (replica_writeRule p signer).keeps ?_ working name
    intro host
    refine ⟨inOrder host, ?_, ?_⟩
    · simp [blocksOf_nil]
    · intro _ _
      rw [blocksOf_nil, show (net.hosts host).worker.utxoSet = fun _ => none
        from funext (empty host)]
      exact ledger_empty
  have left := (replica first).ledger
  have right := (replica second).ledger
  rw [written] at left
  rw [also] at right
  exact (left coherent encodes).agree (right coherent encodes) id

end Run

namespace Sample

open Core.Sample

/-- The last host of the row takes the deposit block again after the block that
spends the deposit. -/
def lateMoves : List (BlockMove (Fin 3)) :=
  childMoves ++ [.receive 0 0 met, .receive 1 0 met, .receive 0 0 met]

theorem row_empty (name : Fin 3) (id : UTXOID) :
    (row.hosts name).worker.utxoSet id = none := by
  have none := genesisOperator_utxoSet primitives operatorAddr id
  show (worker name).utxoSet id = Option.none
  unfold worker
  split
  · exact none
  · exact none

theorem coherent_blocks : Coherent {depositBlock, spendBlock} where
  numbers := by
    rintro block (rfl | rfl) <;> decide
  identified := by
    rintro block (rfl | rfl) other (rfl | rfl) same
    · rfl
    · cases same
    · cases same
    · rfl
  bounded := by
    rintro block (rfl | rfl) <;> decide
  deposits := by
    rintro block (rfl | rfl) path
    · exact ⟨alice, 5, by decide, rfl⟩
    · exact absurd (by decide) path

end Sample

/-- The operator and the last host have the same blocks and differ at the spent
deposit alone. -/
theorem last_host_records_spent_deposit :
    ((gossipBlocks Core.Sample.primitives Core.Sample.signer Sample.row
        Sample.lateMoves).1.hosts Sample.operatorHost).worker.utxoSet
          ⟨1, 0, 0⟩ ≠
      ((gossipBlocks Core.Sample.primitives Core.Sample.signer Sample.row
        Sample.lateMoves).1.hosts Sample.lastHost).worker.utxoSet ⟨1, 0, 0⟩ ∧
    ∀ id,
      ((gossipBlocks Core.Sample.primitives Core.Sample.signer Sample.row
          Sample.lateMoves).1.hosts Sample.operatorHost).worker.utxoSet id =
        ((gossipBlocks Core.Sample.primitives Core.Sample.signer Sample.row
          Sample.lateMoves).1.hosts Sample.lastHost).worker.utxoSet id ∨
      (¬ 1000 ∣ id.blockNum.toNat ∧
        ∃ block ∈ ({Core.Sample.depositBlock, Core.Sample.spendBlock} :
          Set Block), id ∈ block.inputIds) := by
  have facts : ((gossipBlocks Core.Sample.primitives Core.Sample.signer
        Sample.row Sample.lateMoves).1.hosts
          Sample.operatorHost).worker.utxoSet ⟨1, 0, 0⟩ ≠
        ((gossipBlocks Core.Sample.primitives Core.Sample.signer Sample.row
          Sample.lateMoves).1.hosts Sample.lastHost).worker.utxoSet ⟨1, 0, 0⟩ ∧
      pushes Sample.operatorHost (gossipBlocks Core.Sample.primitives
        Core.Sample.signer Sample.row Sample.lateMoves).2 =
          [[Core.Sample.depositBlock], [Core.Sample.spendBlock]] ∧
      pushes Sample.lastHost (gossipBlocks Core.Sample.primitives
        Core.Sample.signer Sample.row Sample.lateMoves).2 =
          [[Core.Sample.depositBlock], [Core.Sample.depositBlock],
            [Core.Sample.spendBlock], [Core.Sample.spendBlock],
            [Core.Sample.depositBlock], [Core.Sample.depositBlock]] := by
    decide +kernel
  obtain ⟨differ, operator, last⟩ := facts
  refine ⟨differ, ?_⟩
  apply replicas_agree Core.Sample.primitives Core.Sample.signer
    Sample.row_inOrder
  · exact Sample.row_empty
  · unfold WorkingDisks
    decide +kernel
  · exact Sample.coherent_blocks
  · rintro block (rfl | rfl) <;> decide
  · rw [operator]
    ext block
    simp [blocksOf]
  · rw [last]
    ext block
    simp [blocksOf, or_comm, or_left_comm]

end Plasma.Network
