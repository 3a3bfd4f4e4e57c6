import Plasma.Core.BlockOrder

/-!
# What the written blocks say about the recorded outputs

A node writes a child block once, but a deposit block as often as it is
delivered.  The recorded outputs are then still those that a written block
creates and none spends, apart from the outputs of deposit blocks that were
spent: writing the deposit block again records them again.
-/

namespace Plasma.Core

open Plasma.Lib Plasma.Store

/-- Blocks that are told apart by their numbers; those that are not validated
hold a deposit. -/
structure Coherent (blocks : Set Block) : Prop where
  numbers : ∀ block ∈ blocks, 1 ≤ block.number ∧ block.number < 2 ^ 63
  identified : ∀ block ∈ blocks, ∀ other ∈ blocks,
    block.number = other.number → block = other
  bounded : ∀ block ∈ blocks, block.transactions.length < 2 ^ 32
  deposits : ∀ block ∈ blocks, ¬ 1000 ∣ block.number →
    ∃ depositor amount, 0 ≤ amount ∧
      block.transactions = [Operator.depositTx depositor amount]

/-- What a node that has written the blocks has recorded: only outputs they
create, all that they create and do not spend, and no output of a child block
that they spend. -/
structure Ledger (blocks : Set Block) (utxos : UtxoSet) : Prop where
  origin : ∀ id out, utxos id = some out →
    ∃ block ∈ blocks, block.Creates id out
  backed : ∀ block ∈ blocks, ∀ id ∈ block.inputIds, id.blockNum ≠ 0 →
    ∃ other ∈ blocks, other.numberU64 = id.blockNum
  unspent : ∀ block ∈ blocks, ∀ id out, block.Creates id out →
    (∀ other ∈ blocks, id ∉ other.inputIds) → utxos id = some out
  spent : ∀ block ∈ blocks, ∀ id ∈ block.inputIds,
    1000 ∣ id.blockNum.toNat → utxos id = none

theorem Coherent.mono {blocks fewer : Set Block} (coherent : Coherent blocks)
    (subset : fewer ⊆ blocks) : Coherent fewer where
  numbers block member := coherent.numbers block (subset member)
  identified block member other otherMember :=
    coherent.identified block (subset member) other (subset otherMember)
  bounded block member := coherent.bounded block (subset member)
  deposits block member := coherent.deposits block (subset member)

theorem Coherent.numberU64_toNat {blocks : Set Block}
    (coherent : Coherent blocks) {block : Block} (member : block ∈ blocks) :
    (block.numberU64.toNat : Int) = block.number := by
  have small := coherent.numbers block member
  have read : block.numberU64.toNat = block.number.natAbs :=
    (uint64_toNat _).trans
      (Nat.mod_eq_of_lt (by unfold Block.number at small; omega))
  omega

/-- Blocks with the same number are the same. -/
theorem Coherent.eq_of_numberU64 {blocks : Set Block}
    (coherent : Coherent blocks) {block other : Block}
    (member : block ∈ blocks) (otherMember : other ∈ blocks)
    (same : block.numberU64 = other.numberU64) : block = other := by
  apply coherent.identified block member other otherMember
  rw [← coherent.numberU64_toNat member, ← coherent.numberU64_toNat otherMember,
    same]

theorem Coherent.numberU64_ne_zero {blocks : Set Block}
    (coherent : Coherent blocks) {block : Block} (member : block ∈ blocks) :
    block.numberU64 ≠ 0 := by
  intro zero
  have number := coherent.numberU64_toNat member
  rw [zero] at number
  have positive := (coherent.numbers block member).1
  rw [← number] at positive
  exact absurd positive (by decide)

theorem Block.Creates.number {block : Block} {id : UTXOID} {out : StoredOut}
    (creates : block.Creates id out) : block.numberU64 = id.blockNum := by
  obtain ⟨_, _, _, _, _, _, rfl, _⟩ := creates
  rfl

theorem number_of_put {block : Block} {id : UTXOID}
    (created : id ∈ putKeys block.changes) :
    block.numberU64 = id.blockNum := by
  rw [Block.changes, putKeys_txsChanges] at created
  exact (blockNum_of_mem_outputIds created).symm

theorem ledger_empty : Ledger ∅ fun _ => none where
  origin _ _ present := by cases present
  backed _ member := member.elim
  unspent _ member := member.elim
  spent _ member := member.elim

section Write

variable {blocks : Set Block} {block : Block} {utxos : UtxoSet}

theorem Ledger.held (ledger : Ledger blocks utxos) {id : UTXOID}
    (held : utxos id ≠ none) :
    ∃ other ∈ blocks, other.numberU64 = id.blockNum := by
  obtain ⟨out, present⟩ := Option.ne_none_iff_exists'.mp held
  obtain ⟨other, member, creates⟩ := ledger.origin id out present
  exact ⟨other, member, creates.number⟩

/-- A child block that is new creates no identity that an earlier block or the
block itself spends. -/
theorem Ledger.not_created (ledger : Ledger blocks utxos)
    (coherent : Coherent (insert block blocks))
    (spendable : Spendable utxos block)
    (new : 1000 ∣ block.number → block ∉ blocks) {other : Block}
    (member : other ∈ insert block blocks) {id : UTXOID}
    (input : id ∈ other.inputIds) (child : 1000 ∣ id.blockNum.toNat) :
    id ∉ putKeys block.changes := by
  intro created
  have number := number_of_put created
  have own : block ∈ insert block blocks := Set.mem_insert block blocks
  have nonzero : id.blockNum ≠ 0 := by
    rw [← number]
    exact coherent.numberU64_ne_zero own
  have earlier : ∃ creator ∈ blocks, creator.numberU64 = id.blockNum := by
    rcases member with rfl | before
    · exact ledger.held (spendable.held id input nonzero)
    · exact ledger.backed other before id input nonzero
  obtain ⟨creator, before, same⟩ := earlier
  have equal := coherent.eq_of_numberU64 (Set.mem_insert_of_mem block before)
    own (same.trans number.symm)
  subst equal
  apply new _ before
  rw [← coherent.numberU64_toNat own, number]
  exact Int.natCast_dvd_natCast.mpr child

/-- Writing a block that is new, or a deposit block again, keeps the ledger. -/
theorem Ledger.write (ledger : Ledger blocks utxos)
    (coherent : Coherent (insert block blocks))
    (spendable : Spendable utxos block)
    (new : 1000 ∣ block.number → block ∉ blocks) :
    Ledger (insert block blocks) (applyAll block.changes utxos) where
  origin := by
    intro id out present
    rcases put_of_applyAll _ _ present with before | created
    · obtain ⟨other, member, creates⟩ := ledger.origin id out before
      exact ⟨other, Set.mem_insert_of_mem block member, creates⟩
    · exact ⟨block, Set.mem_insert block blocks,
        (creates_iff spendable.nonneg).mpr created⟩
  backed := by
    intro other member id input nonzero
    have earlier : ∃ creator ∈ blocks, creator.numberU64 = id.blockNum := by
      rcases member with rfl | before
      · exact ledger.held (spendable.held id input nonzero)
      · exact ledger.backed other before id input nonzero
    obtain ⟨creator, before, same⟩ := earlier
    exact ⟨creator, Set.mem_insert_of_mem block before, same⟩
  unspent := by
    intro other member id out creates unspent
    have own : block ∈ insert block blocks := Set.mem_insert block blocks
    have undeleted : id ∉ deletedKeys block.changes := by
      rw [deletedKeys_changes]
      exact unspent block own
    by_cases created : id ∈ putKeys block.changes
    · have equal := coherent.eq_of_numberU64 member own
        (creates.number.trans (number_of_put created).symm)
      subst equal
      apply applyAll_of_put _ _ ((creates_iff spendable.nonneg).mp creates)
        undeleted
      rw [Block.changes, putKeys_txsChanges]
      apply outputIds_nodup
      have bounded := coherent.bounded other own
      omega
    · rw [applyAll_of_untouched _ _ undeleted created]
      rcases member with rfl | before
      · have put := (creates_iff spendable.nonneg).mp creates
        exact absurd (mem_putKeys.mpr ⟨out, put⟩) created
      · apply ledger.unspent other before id out creates
        intro later laterMember
        exact unspent later (Set.mem_insert_of_mem block laterMember)
  spent := by
    intro other member id input child
    have uncreated := ledger.not_created coherent spendable new member input
      child
    rcases member with rfl | before
    · apply applyAll_of_deleted _ _ _ uncreated
      rw [deletedKeys_changes]
      exact input
    · have gone := ledger.spent other before id input child
      by_contra held
      obtain ⟨out, present⟩ := Option.ne_none_iff_exists'.mp held
      rcases mem_of_applyAll _ _ present with recorded | created
      · rw [gone] at recorded
        cases recorded
      · exact uncreated created

/-- Two nodes that have written the same blocks record the same under every
identity but those of spent deposits. -/
theorem Ledger.agree {other : UtxoSet} (ledger : Ledger blocks utxos)
    (second : Ledger blocks other) (id : UTXOID) :
    utxos id = other id ∨
      (¬ 1000 ∣ id.blockNum.toNat ∧ ∃ block ∈ blocks, id ∈ block.inputIds) := by
  by_cases spent : ∃ block ∈ blocks, id ∈ block.inputIds
  · by_cases child : 1000 ∣ id.blockNum.toNat
    · left
      obtain ⟨block, member, input⟩ := spent
      rw [ledger.spent block member id input child,
        second.spent block member id input child]
    · exact .inr ⟨child, spent⟩
  · left
    have unspent : ∀ block ∈ blocks, id ∉ block.inputIds := by
      intro block member input
      exact spent ⟨block, member, input⟩
    apply Option.ext
    intro out
    constructor
    · intro present
      obtain ⟨block, member, creates⟩ := ledger.origin id out present
      exact second.unspent block member id out creates unspent
    · intro present
      obtain ⟨block, member, creates⟩ := second.origin id out present
      exact ledger.unspent block member id out creates unspent

end Write

end Plasma.Core
