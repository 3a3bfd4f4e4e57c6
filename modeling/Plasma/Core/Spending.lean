import Plasma.Core.OperatorRun

/-!
# Spending over operator runs

The map of spent inputs covers one block only.  Across blocks an input cannot
be spent again because it is deleted when it is spent and its identity is
never created again.
-/

namespace Plasma.Core

open Plasma.Lib Plasma.Store

/-- The written child blocks, in order. -/
def childBlocks : List Written → List Block
  | [] => []
  | .deposit _ _ _ :: history => childBlocks history
  | .child _ block :: history => block :: childBlocks history

/-- The transactions of the written child blocks, in order. -/
def childTransactions (history : List Written) : List Transaction :=
  (childBlocks history).flatMap Block.transactions

/-- The real inputs of the written child blocks, in order. -/
def spentInputs (history : List Written) : List UTXOID :=
  (childTransactions history).flatMap Transaction.realInputs

/-- Every real input of the transaction is recorded in `before` and belongs to
the sender of its slot. -/
def SpendsOwned (p : Primitives) (signer : EIP155Signer) (before : UtxoSet)
    (tx : Transaction) : Prop :=
  ∃ senders, signer.sender p tx = .ok senders ∧
    ∀ slot ∈ tx.slots senders, slot.1.id.blockNum ≠ 0 →
      ∃ out, before slot.1.id = some out ∧ out.owner = slot.2

theorem childBlocks_append (first second : List Written) :
    childBlocks (first ++ second) = childBlocks first ++ childBlocks second := by
  induction first with
  | nil => rfl
  | cons entry first induction => cases entry <;> simp [childBlocks, induction]

theorem childTransactions_append (first second : List Written) :
    childTransactions (first ++ second) =
      childTransactions first ++ childTransactions second := by
  simp [childTransactions, childBlocks_append]

theorem childTransactions_append_deposit (history : List Written)
    (number : Int) (depositor : Address) (amount : Int) :
    childTransactions (history ++ [.deposit number depositor amount]) =
      childTransactions history := by
  rw [childTransactions_append]
  exact List.append_nil _

theorem childTransactions_append_child (history : List Written)
    (before : UtxoSet) (block : Block) :
    childTransactions (history ++ [.child before block]) =
      childTransactions history ++ block.transactions := by
  rw [childTransactions_append]
  exact congrArg _ (List.append_nil _)

theorem ValidTx.spendsOwned {p : Primitives} {signer : EIP155Signer}
    {utxos : UtxoSet} {tx : Transaction}
    (valid : ValidTx p signer utxos.reader tx) :
    SpendsOwned p signer utxos tx := by
  obtain ⟨senders, recovered, owned⟩ := valid.owned
  refine ⟨senders, recovered, ?_⟩
  intro slot member real
  obtain ⟨utxo, found, owner⟩ := owned slot member real
  obtain ⟨out, held, rfl⟩ := Option.map_eq_some_iff.mp found
  exact ⟨out, held, owner⟩

/-- What the history of a run satisfies: inputs are spent once, they are gone
and their numbers are used up, and every spend was owned. -/
structure SpendState (p : Primitives) (signer : EIP155Signer)
    (past : List OperatorStep) (utxos : UtxoSet) (history : List Written) :
    Prop where
  once : (spentInputs history).Nodup
  gone : ∀ id ∈ spentInputs history,
    utxos id = none ∧ UsedNumber past id.blockNum
  owned : ∀ before block, .child before block ∈ history →
    ∀ tx ∈ block.transactions, SpendsOwned p signer before tx
  spending : ∀ tx ∈ childTransactions history, tx.realInputs ≠ []

section Step

variable {p : Primitives} {signer : EIP155Signer}
  {past : List OperatorStep} {o : Operator} {step : OperatorStep}

/-- An input that is gone stays gone when a block is written. -/
theorem gone_after_commit (state : RunState past o)
    (admissible : Admissible (past ++ [step]))
    (verdict : o.chain.verdict p signer (step.block p o) = .ok ())
    {id : UTXOID} (absent : o.chain.utxoSet id = none)
    (used : UsedNumber past id.blockNum) :
    applyAll (step.block p o).changes o.chain.utxoSet id = none := by
  by_contra held
  obtain ⟨out, present⟩ := Option.ne_none_iff_exists'.mp held
  rcases mem_of_applyAll _ _ present with before | created
  · rw [absent] at before
    cases before
  · rw [Block.changes, putKeys_txsChanges] at created
    rw [blockNum_of_mem_outputIds created] at used
    exact unused_of_verdict state admissible verdict used

/-- An input that a written block spends is gone afterwards. -/
theorem gone_after_spend (state : RunState past o)
    (admissible : Admissible (past ++ [step]))
    (verdict : o.chain.verdict p signer (step.block p o) = .ok ())
    {id : UTXOID}
    (spent : id ∈ (step.block p o).transactions.flatMap
      Transaction.realInputs)
    (held : o.chain.utxoSet id ≠ none) :
    applyAll (step.block p o).changes o.chain.utxoSet id = none := by
  obtain ⟨tx, member, input⟩ := List.mem_flatMap.mp spent
  obtain ⟨position, _⟩ := (tx.mem_realInputs_iff id).mp input
  apply applyAll_of_deleted
  · rw [Block.changes, deletedKeys_txsChanges]
    refine List.mem_flatMap.mpr ⟨tx, member, ?_⟩
    rcases position with rfl | rfl
    · exact List.mem_cons_self
    · exact List.mem_cons_of_mem _ List.mem_cons_self
  · intro created
    rw [Block.changes, putKeys_txsChanges] at created
    have used := state.used id held
    rw [blockNum_of_mem_outputIds created] at used
    exact unused_of_verdict state admissible verdict used

theorem SpendState.deposit (state : RunState past o)
    (admissible : Admissible (past ++ [step]))
    (verdict : o.chain.verdict p signer (step.block p o) = .ok ())
    {history : List Written}
    (spend : SpendState p signer past o.chain.utxoSet history)
    (number : Int) (depositor : Address) (amount : Int) :
    SpendState p signer (past ++ [step])
      (applyAll (step.block p o).changes o.chain.utxoSet)
      (history ++ [.deposit number depositor amount]) := by
  have inputs : spentInputs (history ++ [.deposit number depositor amount]) =
      spentInputs history := by
    rw [spentInputs, childTransactions_append_deposit, spentInputs]
  refine ⟨inputs ▸ spend.once, ?_, ?_, ?_⟩
  · intro id member
    rw [inputs] at member
    obtain ⟨absent, used⟩ := spend.gone id member
    exact ⟨gone_after_commit state admissible verdict absent used,
      used.append step⟩
  · intro before block member
    rcases List.mem_append.mp member with earlier | last
    · exact spend.owned before block earlier
    · simp at last
  · rw [childTransactions_append_deposit]
    exact spend.spending

theorem SpendState.child (state : RunState past o)
    (admissible : Admissible (past ++ [step]))
    (verdict : o.chain.verdict p signer (step.block p o) = .ok ())
    (path : (step.block p o).onDepositPath = false)
    {history : List Written}
    (spend : SpendState p signer past o.chain.utxoSet history) :
    SpendState p signer (past ++ [step])
      (applyAll (step.block p o).changes o.chain.utxoSet)
      (history ++ [.child o.chain.utxoSet (step.block p o)]) := by
  obtain ⟨valid, once⟩ := (UtxoBlockValidator.validateTx_ok_iff _ _ _ _).mp
    (validateTx_of_verdict path verdict)
  have inputs : spentInputs
      (history ++ [.child o.chain.utxoSet (step.block p o)]) =
        spentInputs history ++
          (step.block p o).transactions.flatMap Transaction.realInputs := by
    rw [spentInputs, childTransactions_append_child, List.flatMap_append,
      spentInputs]
  have held : ∀ id ∈
      (step.block p o).transactions.flatMap Transaction.realInputs,
        o.chain.utxoSet id ≠ none := by
    intro id member absent
    obtain ⟨tx, txMember, input⟩ := List.mem_flatMap.mp member
    have present := (valid tx txMember).inputs_present id input
    simp [UtxoSet.reader, absent] at present
  refine ⟨?_, ?_, ?_, ?_⟩
  · rw [inputs]
    refine List.Nodup.append spend.once once ?_
    intro id earlier now
    exact held id now (spend.gone id earlier).1
  · intro id member
    rw [inputs] at member
    rcases List.mem_append.mp member with earlier | now
    · obtain ⟨absent, used⟩ := spend.gone id earlier
      exact ⟨gone_after_commit state admissible verdict absent used,
        used.append step⟩
    · exact ⟨gone_after_spend state admissible verdict now (held id now),
        (state.used id (held id now)).append step⟩
  · intro before block member
    rcases List.mem_append.mp member with earlier | last
    · exact spend.owned before block earlier
    · cases List.mem_singleton.mp last
      intro tx txMember
      exact (valid tx txMember).spendsOwned
  · intro tx member
    rw [childTransactions_append_child] at member
    rcases List.mem_append.mp member with earlier | now
    · exact spend.spending tx earlier
    · exact (valid tx now).realInputs_ne_nil

end Step

theorem nodup_of_nodup_flatMap {α β : Type} {items : List α}
    {f : α → List β} (once : (items.flatMap f).Nodup)
    (nonempty : ∀ item ∈ items, f item ≠ []) : items.Nodup := by
  obtain ⟨_, apart⟩ := List.nodup_flatMap.mp once
  refine apart.imp_of_mem ?_
  intro left right leftMember _ disjoint same
  subst same
  obtain ⟨value, member⟩ :=
    List.exists_mem_of_ne_nil _ (nonempty left leftMember)
  exact disjoint member member

/-- Over any admissible run from the first start, every real input is spent at
most once, every spend was recorded before its block and owned by the sender
of its slot, and no transaction is written twice into child blocks. -/
theorem inputs_spent_once_by_owner (p : Primitives) (signer : EIP155Signer)
    (addr : Address) {start : Operator}
    (started : startOperator p true addr Database.empty = .ok start)
    {steps : List OperatorStep} (admissible : Admissible steps) :
    (spentInputs
        (execute (Operator.perform p signer) start steps).2).Nodup ∧
      (∀ before block, .child before block ∈
          (execute (Operator.perform p signer) start steps).2 →
        ∀ tx ∈ block.transactions, SpendsOwned p signer before tx) ∧
      (childTransactions
        (execute (Operator.perform p signer) start steps).2).Nodup := by
  have spend : SpendState p signer steps
      (execute (Operator.perform p signer) start steps).1.chain.utxoSet
      (execute (Operator.perform p signer) start steps).2 := by
    refine run_induction (SpendState p signer) ?silent ?committed ?initially
      started admissible
    case silent =>
      intro past utxos history step spend
      refine ⟨spend.once, ?_, spend.owned, spend.spending⟩
      intro id member
      obtain ⟨absent, used⟩ := spend.gone id member
      exact ⟨absent, used.append step⟩
    case committed =>
      intro past o history step admissible state verdict spend
      cases step with
      | sealTxs time disk submits txs =>
          exact spend.child state admissible verdict
            (sealed_onDepositPath time txs state admissible)
      | depositEvent time disk number depositor token amount =>
          exact spend.deposit state admissible verdict number depositor amount
    case initially =>
      refine ⟨List.nodup_nil, ?_, ?_, ?_⟩
      · simp [spentInputs, childTransactions, childBlocks]
      · simp
      · simp [childTransactions, childBlocks]
  exact ⟨spend.once, spend.owned,
    nodup_of_nodup_flatMap spend.once spend.spending⟩

/-- The same transaction is sealed twice: the second block is refused. -/
theorem inputs_spent_once_in_resubmission :
    Admissible [Sample.depositStep 1, Sample.spendStep true,
        Sample.spendStep true] ∧
      spentInputs (execute (Operator.perform Sample.primitives Sample.signer)
        Sample.operator [Sample.depositStep 1, Sample.spendStep true,
          Sample.spendStep true]).2 = [⟨1, 0, 0⟩] ∧
      (childTransactions (execute (Operator.perform Sample.primitives
        Sample.signer) Sample.operator [Sample.depositStep 1,
          Sample.spendStep true, Sample.spendStep true]).2).Nodup := by
  have admissible : Admissible [Sample.depositStep 1, Sample.spendStep true,
      Sample.spendStep true] :=
    ⟨by decide, by decide, by decide⟩
  obtain ⟨_, _, once⟩ := inputs_spent_once_by_owner Sample.primitives
    Sample.signer Sample.operatorAddr Sample.started admissible
  exact ⟨admissible, by decide +kernel, once⟩

/-- A deposit under 2^64 + 1 creates the spent output of deposit 1 again, and
the same transaction is written a second time. -/
theorem inputs_spent_twice_after_colliding_deposit :
    startOperator Sample.primitives true Sample.operatorAddr Database.empty =
        .ok Sample.operator ∧
      (depositNumbers [Sample.depositStep 1, Sample.spendStep true,
        Sample.depositStep (2 ^ 64 + 1), Sample.spendStep true]).Nodup ∧
      (∀ step ∈ [Sample.depositStep 1, Sample.spendStep true,
        Sample.depositStep (2 ^ 64 + 1), Sample.spendStep true],
          step.Bounded) ∧
      ¬ (spentInputs (execute (Operator.perform Sample.primitives
        Sample.signer) Sample.operator [Sample.depositStep 1,
          Sample.spendStep true, Sample.depositStep (2 ^ 64 + 1),
          Sample.spendStep true]).2).Nodup ∧
      ¬ (childTransactions (execute (Operator.perform Sample.primitives
        Sample.signer) Sample.operator [Sample.depositStep 1,
          Sample.spendStep true, Sample.depositStep (2 ^ 64 + 1),
          Sample.spendStep true]).2).Nodup := by
  refine ⟨Sample.started, by decide, by decide, ?_, ?_⟩
  · decide +kernel
  · decide +kernel

end Plasma.Core
