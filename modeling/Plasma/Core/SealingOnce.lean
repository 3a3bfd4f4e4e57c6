import Plasma.Core.Sealing

/-!
# Every accepted transaction is sealed once

An accepted transaction is queued until a block with it has been written.  A
copy that is out of date cannot write it a second time, because its inputs are
gone by then.
-/

namespace Plasma.Core

open Plasma.Lib Plasma.Store

section Spend

variable {p : Primitives} {signer : EIP155Signer} {past : List OperatorStep}
  {o next : Operator} {call : OperatorStep} {history written : List Written}

theorem SpendState.called
    (spend : SpendState p signer past o.chain.utxoSet history)
    (state : RunState past o) (admissible : Admissible (past ++ [call]))
    (called : Called p signer o next call written) :
    SpendState p signer (past ++ [call]) next.chain.utxoSet
      (history ++ written) := by
  rcases called.outcome with ⟨same, nothing⟩ | ⟨changed, entry, verdict⟩
  · rw [same, nothing, List.append_nil]
    refine ⟨spend.once, ?_, spend.owned, spend.spending⟩
    intro id member
    obtain ⟨absent, used⟩ := spend.gone id member
    exact ⟨absent, used.append call⟩
  · rw [changed, entry]
    cases call with
    | sealTxs time disk submits txs =>
        exact spend.child state admissible verdict
          (sealed_onDepositPath time txs state admissible)
    | depositEvent time disk number depositor token amount =>
        exact spend.deposit state admissible verdict number depositor amount

/-- A valid transaction is in no written child block. -/
theorem SpendState.unsealed {utxos : UtxoSet}
    (spend : SpendState p signer past utxos history) {tx : Transaction}
    (valid : ValidTx p signer utxos.reader tx) :
    tx ∉ childTransactions history := by
  intro sealed
  obtain ⟨id, input⟩ := List.exists_mem_of_ne_nil _ (spend.spending tx sealed)
  have spent : id ∈ spentInputs history :=
    List.mem_flatMap.mpr ⟨tx, sealed, input⟩
  have present := valid.inputs_present id input
  rw [UtxoSet.reader, (spend.gone id spent).1] at present
  cases present

theorem childTransactions_append_deposited {time : Int} {disk : Bool}
    {number : Int} {depositor token : Address} {amount : Int}
    (called : Called p signer o next
      (.depositEvent time disk number depositor token amount) written) :
    childTransactions (history ++ written) = childTransactions history := by
  rcases called.outcome with ⟨_, nothing⟩ | ⟨_, entry, _⟩
  · rw [nothing, List.append_nil]
  · rw [entry]
    exact childTransactions_append_deposit history number depositor amount

end Spend

namespace Pipeline

/-- An accepted transaction is queued or was written, and only accepted ones
are queued, copied and written.  A written transaction is queued no longer than
until its removal. -/
structure Custody (p : Primitives) (s : Pipeline)
    (history : List PipelineReport) : Prop where
  consistent : s.pool.Consistent p
  kept : ∀ tx ∈ acceptedTxs history, tx ∈ s.pool.queue ∨
    p.txHash tx ∈ (childTransactions (entries history)).map p.txHash
  queued : ∀ tx ∈ s.pool.queue, tx ∈ acceptedTxs history
  copied : ∀ txs ∈ s.txsCh, ∀ tx ∈ txs, tx ∈ acceptedTxs history
  sealed : ∀ tx ∈ childTransactions (entries history),
    tx ∈ acceptedTxs history
  removing : ∀ tx ∈ s.removing, tx ∈ childTransactions (entries history)
  apart : ∀ tx ∈ s.pool.queue,
    tx ∈ childTransactions (entries history) → tx ∈ s.removing

section Custody

variable {p : Primitives} {signer : EIP155Signer} {s next : Pipeline}
  {moves : List PipelineMove} {move : PipelineMove}
  {history reports : List PipelineReport}

/-- A move that leaves the reports, the queue and the removals alone. -/
theorem Custody.same (custody : Custody p s history)
    (pool : next.pool = s.pool) (removing : next.removing = s.removing)
    (accepted : acceptedTxs reports = [])
    (sealed : childTransactions (entries (history ++ reports)) =
      childTransactions (entries history))
    (copied : ∀ txs ∈ next.txsCh, ∀ tx ∈ txs, tx ∈ acceptedTxs history) :
    Custody p next (history ++ reports) := by
  have taken : acceptedTxs (history ++ reports) = acceptedTxs history := by
    rw [acceptedTxs_append, accepted, List.append_nil]
  refine ⟨?_, ?_, ?_, ?_, ?_, ?_, ?_⟩
  · rw [pool]
    exact custody.consistent
  · rw [pool, taken, sealed]
    exact custody.kept
  · rw [pool, taken]
    exact custody.queued
  · rw [taken]
    exact copied
  · rw [sealed, taken]
    exact custody.sealed
  · rw [removing, sealed]
    exact custody.removing
  · rw [pool, removing, sealed]
    exact custody.apart

theorem Custody.added (custody : Custody p s history) {tx : Transaction}
    (spend : SpendState p signer (callsOf history) s.utxoSet (entries history))
    (fresh : p.txHash tx ∉ s.pool.all.map Prod.fst)
    (valid : ValidTx p signer s.utxoSet.reader tx) :
    Custody p (s.withPool ⟨s.pool.queue ++ [tx],
      s.pool.all ++ [(p.txHash tx, tx)]⟩) (history ++ [.accepted tx]) := by
  have taken : acceptedTxs (history ++ [.accepted tx]) =
      acceptedTxs history ++ [tx] := acceptedTxs_append _ _
  have same : entries (history ++ [.accepted tx]) = entries history := by
    rw [entries_append]
    exact List.append_nil _
  refine ⟨?_, ?_, ?_, ?_, ?_, ?_, ?_⟩
  · have added := custody.consistent.add signer s.utxoSet.reader tx
    rcases s.pool.add_cases signer s.utxoSet.reader tx with
      ⟨_, _, result⟩ | ⟨reason, _⟩
    · rw [result] at added
      exact added
    · rcases reason with known | invalid
      · exact absurd known fresh
      · exact absurd valid invalid
  · intro other member
    rw [same]
    rw [taken] at member
    rcases List.mem_append.mp member with earlier | last
    · rcases custody.kept other earlier with queued | written
      · exact .inl (List.mem_append_left _ queued)
      · exact .inr written
    · exact .inl (List.mem_append_right _ last)
  · intro other member
    rw [taken]
    rcases List.mem_append.mp member with earlier | last
    · exact List.mem_append_left _ (custody.queued other earlier)
    · exact List.mem_append_right _ last
  · intro txs member other inside
    rw [taken]
    exact List.mem_append_left _ (custody.copied txs member other inside)
  · intro other member
    rw [taken]
    rw [same] at member
    exact List.mem_append_left _ (custody.sealed other member)
  · rw [same]
    exact custody.removing
  · intro other member written
    rw [same] at written
    rcases List.mem_append.mp member with earlier | last
    · exact custody.apart other earlier written
    · rw [List.mem_singleton] at last
      subst last
      exact absurd written (spend.unsealed valid)

theorem Custody.wrote (custody : Custody p s history)
    {txs : List Transaction} {rest : List (List Transaction)}
    {operator : Operator} {time : Int} {call : OperatorStep}
    {submitting : Option Block} (head : s.txsCh = txs :: rest)
    (free : s.removing = []) (pool : operator.txPool = s.operator.txPool) :
    Custody p ⟨operator, rest, txs, submitting⟩
      (history ++ [.called call, .wrote (.child s.utxoSet
        (s.operator.constructBlock p time txs).2)]) := by
  have taken : acceptedTxs (history ++ [.called call, .wrote (.child s.utxoSet
      (s.operator.constructBlock p time txs).2)]) = acceptedTxs history := by
    rw [acceptedTxs_append]
    exact List.append_nil _
  have sealed : childTransactions (entries (history ++ [.called call,
      .wrote (.child s.utxoSet (s.operator.constructBlock p time txs).2)])) =
        childTransactions (entries history) ++ txs := by
    have written : entries [.called call, .wrote (.child s.utxoSet
        (s.operator.constructBlock p time txs).2)] =
          [.child s.utxoSet (s.operator.constructBlock p time txs).2] := rfl
    rw [entries_append, written, childTransactions_append_child,
      Operator.constructBlock_transactions]
  have same : (⟨operator, rest, txs, submitting⟩ : Pipeline).pool = s.pool :=
    pool
  refine ⟨?_, ?_, ?_, ?_, ?_, ?_, ?_⟩
  · rw [same]
    exact custody.consistent
  · intro tx member
    rw [taken] at member
    rw [same, sealed, List.map_append]
    rcases custody.kept tx member with queued | written
    · exact .inl queued
    · exact .inr (List.mem_append_left _ written)
  · rw [same, taken]
    exact custody.queued
  · intro copy member
    rw [taken]
    exact custody.copied copy (by rw [head]; exact .tail _ member)
  · intro tx member
    rw [taken]
    rw [sealed] at member
    rcases List.mem_append.mp member with earlier | now
    · exact custody.sealed tx earlier
    · exact custody.copied txs (by rw [head]; exact .head _) tx now
  · intro tx member
    rw [sealed]
    exact List.mem_append_right _ member
  · intro tx queued member
    rw [same] at queued
    rw [sealed] at member
    rcases List.mem_append.mp member with earlier | now
    · have waiting := custody.apart tx queued earlier
      rw [free] at waiting
      cases waiting
    · exact now

theorem Custody.removed (custody : Custody p s history) {tx : Transaction}
    {rest : List Transaction} (head : s.removing = tx :: rest) :
    Custody p { s.withPool (s.pool.removeTx p (p.txHash tx)) with
      removing := rest } history := by
  obtain ⟨consistent, order⟩ := custody.consistent.removeTx (p.txHash tx)
  have left : ∀ other, other ∈ (s.pool.removeTx p (p.txHash tx)).queue ↔
      other ∈ s.pool.queue ∧ p.txHash other ≠ p.txHash tx := by
    intro other
    rw [order.mem_iff, List.mem_filter, bne_iff_ne]
  have written : tx ∈ childTransactions (entries history) :=
    custody.removing tx (by rw [head]; exact .head _)
  refine ⟨consistent, ?_, ?_, custody.copied, custody.sealed, ?_, ?_⟩
  · intro other member
    rcases custody.kept other member with queued | sealed
    · by_cases same : p.txHash other = p.txHash tx
      · right
        rw [same]
        exact List.mem_map_of_mem written
      · exact .inl ((left other).mpr ⟨queued, same⟩)
    · exact .inr sealed
  · intro other member
    exact custody.queued other ((left other).mp member).1
  · intro other member
    exact custody.removing other (by rw [head]; exact .tail _ member)
  · intro other member sealed
    obtain ⟨queued, different⟩ := (left other).mp member
    have waiting := custody.apart other queued sealed
    rw [head] at waiting
    rcases List.mem_cons.mp waiting with same | later
    · exact absurd (congrArg p.txHash same) different
    · exact later

theorem Custody.step (custody : Custody p s history)
    (spend : SpendState p signer (callsOf history) s.utxoSet (entries history))
    (moved : Moved p signer s move next reports) :
    Custody p next (history ++ reports) := by
  cases moved with
  | still silent =>
      rw [List.append_nil]
      exact custody
  | added fresh valid => exact custody.added spend fresh valid
  | ticked =>
      refine custody.same rfl rfl rfl ?_ ?_
      · rw [List.append_nil]
      · intro txs member
        rcases List.mem_append.mp member with earlier | last
        · exact custody.copied txs earlier
        · rw [List.mem_singleton.mp last]
          exact custody.queued
  | refused head free called =>
      refine custody.same called.pool rfl rfl ?_ ?_
      · rw [entries_append]
        exact congrArg childTransactions (List.append_nil _)
      · intro txs member
        exact custody.copied txs (by rw [head]; exact .tail _ member)
  | wrote head free called => exact custody.wrote head free called.pool
  | removed head =>
      rw [List.append_nil]
      exact custody.removed head
  | submitted done =>
      obtain ⟨accepted, _, nothing⟩ := reports_submitted _ _
      refine custody.same rfl rfl accepted ?_ ?_
      · rw [entries_append, nothing, List.append_nil]
      · exact custody.copied
  | deposited called =>
      obtain ⟨accepted, _, written⟩ := reports_called _ _
      refine custody.same called.pool rfl accepted ?_ ?_
      · rw [entries_append, written]
        exact childTransactions_append_deposited called
      · exact custody.copied

end Custody

/-- Everything a run keeps. -/
structure Tracked (p : Primitives) (signer : EIP155Signer)
    (moves : List PipelineMove) (s : Pipeline)
    (history : List PipelineReport) : Prop where
  steady : Steady moves s history
  spend : SpendState p signer (callsOf history) s.utxoSet (entries history)
  custody : Custody p s history

section Run

variable {p : Primitives} {signer : EIP155Signer} {s : Pipeline}
  {moves : List PipelineMove} {move : PipelineMove}
  {history : List PipelineReport}

theorem Tracked.step (tracked : Tracked p signer moves s history)
    (admitted : Admitted (moves ++ [move])) :
    Tracked p signer (moves ++ [move]) (Pipeline.step p signer s move).1
      (history ++ (Pipeline.step p signer s move).2) := by
  have moved := moved_step p signer tracked.steady.run.idle move
  refine ⟨tracked.steady.step admitted, ?_,
    tracked.custody.step tracked.spend moved⟩
  rw [callsOf_append, entries_append]
  rcases moved.chain with
    ⟨chain, _, silent, nothing, _⟩ | ⟨call, one, makes, called⟩
  · rw [silent, nothing, List.append_nil, List.append_nil, utxoSet, chain]
    exact tracked.spend
  · obtain ⟨admissible, _⟩ := tracked.steady.admissible admitted makes
    rw [one]
    exact tracked.spend.called tracked.steady.run admissible called

theorem tracked_start (p : Primitives) (signer : EIP155Signer)
    {addr : Address} {operator : Operator}
    (started : startOperator p true addr Database.empty = .ok operator) :
    Tracked p signer [] (start operator) [] := by
  have genesis := eq_genesisOperator p addr started
  subst genesis
  refine ⟨⟨runState_genesis p addr, rfl, Nat.zero_le _, ?_, Nat.zero_le _, ?_⟩,
    ⟨List.nodup_nil, ?_, ?_, ?_⟩, ⟨TxPool.consistent_empty, ?_, ?_, ?_, ?_, ?_,
      ?_⟩⟩
  all_goals simp [callsOf, entries, acceptedTxs, start, pool, genesisOperator,
    spentInputs, childTransactions, childBlocks]

theorem tracked_run (p : Primitives) (signer : EIP155Signer)
    {addr : Address} {operator : Operator}
    (started : startOperator p true addr Database.empty = .ok operator)
    {moves : List PipelineMove} (admitted : Admitted moves) :
    Tracked p signer moves
      (execute (Pipeline.step p signer) (start operator) moves).1
      (execute (Pipeline.step p signer) (start operator) moves).2 := by
  refine execute_invariant (Pipeline.step p signer)
    (fun moves s history => Admitted moves →
      Tracked p signer moves s history) ?_ ?_ moves admitted
  · intro moves s history move tracked admitted
    exact (tracked admitted.of_append).step admitted
  · intro _
    exact tracked_start p signer started

/-- In every run an accepted transaction is queued or written under its hash,
only accepted transactions are written, none is written twice, and once `Seal`
has removed what it has written no written transaction is queued. -/
theorem accepted_tx_sealed_once (p : Primitives) (signer : EIP155Signer)
    (addr : Address) {operator : Operator}
    (started : startOperator p true addr Database.empty = .ok operator)
    {moves : List PipelineMove} (admitted : Admitted moves)
    {final : Pipeline} {history : List PipelineReport}
    (run : execute (Pipeline.step p signer) (start operator) moves =
      (final, history)) :
    (∀ tx ∈ acceptedTxs history, tx ∈ final.pool.queue ∨
        p.txHash tx ∈ (childTransactions (entries history)).map p.txHash) ∧
      (∀ tx ∈ childTransactions (entries history),
        tx ∈ acceptedTxs history) ∧
      (childTransactions (entries history)).Nodup ∧
      (final.removing = [] → ∀ tx ∈ final.pool.queue,
        tx ∉ childTransactions (entries history)) := by
  have tracked := tracked_run p signer started admitted
  rw [run] at tracked
  obtain ⟨_, spend, custody⟩ := tracked
  refine ⟨custody.kept, custody.sealed,
    nodup_of_nodup_flatMap spend.once spend.spending, ?_⟩
  intro done tx queued sealed
  have waiting := custody.apart tx queued sealed
  rw [done] at waiting
  cases waiting

end Run

end Pipeline

/-!
## A sample run
-/

namespace Sample

/-- The payment is copied twice before it is sealed; the second copy is out of
date when its turn comes. -/
def sealMoves : List PipelineMove :=
  [.depositEvent now true 1 alice 0 5, .add spend, .tick, .tick,
    .write now true false, .add spend, .remove, .submit true,
    .write now true false]

def sealing : Pipeline × List PipelineReport :=
  execute (Pipeline.step primitives signer) (Pipeline.start operator)
    sealMoves

theorem sealMoves_admitted : Pipeline.Admitted sealMoves :=
  ⟨by decide, by decide, by decide⟩

end Sample

/-- The payment is in one block and no longer in the pool. -/
theorem payment_sealed_once :
    Sample.sealing.1.pool.queue = [] ∧
      Sample.spend ∈ acceptedTxs Sample.sealing.2 ∧
      Sample.primitives.txHash Sample.spend ∈
        (childTransactions (entries Sample.sealing.2)).map
          Sample.primitives.txHash ∧
      (childTransactions (entries Sample.sealing.2)).Nodup := by
  have reached : Sample.sealing.1.pool.queue = [] ∧
      Sample.spend ∈ acceptedTxs Sample.sealing.2 := by
    decide +kernel
  obtain ⟨empty, accepted⟩ := reached
  obtain ⟨kept, _, once, _⟩ := Pipeline.accepted_tx_sealed_once
    Sample.primitives Sample.signer Sample.operatorAddr Sample.started
    Sample.sealMoves_admitted (Prod.mk.eta : (Sample.sealing.1,
      Sample.sealing.2) = Sample.sealing).symm
  refine ⟨empty, accepted, ?_, once⟩
  rcases kept Sample.spend accepted with queued | sealed
  · rw [empty] at queued
    cases queued
  · exact sealed

end Plasma.Core
