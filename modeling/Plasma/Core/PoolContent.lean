import Plasma.Core.Pool

/-!
# Sealing the content of the pool

A block is validated as a whole, while the pool has looked at each transaction
alone and at an earlier set of outputs.  The content of the pool can be sealed
as long as no two of its transactions spend the same output and no block takes
an output from a transaction that stays behind.
-/

namespace Plasma.Core

open Plasma.Lib Plasma.Store

theorem ValidTx.congr {p : Primitives} {signer : EIP155Signer}
    {reader other : UtxoReader} {tx : Transaction}
    (valid : ValidTx p signer reader tx)
    (same : ∀ id ∈ tx.realInputs, other id = reader id) :
    ValidTx p signer other tx := by
  obtain ⟨senders, recovered, owned⟩ := valid.owned
  refine { valid with owned := ⟨senders, recovered, ?_⟩, balanced := ?_ }
  · intro slot member real
    have input : slot.1.id ∈ tx.realInputs := by
      rw [tx.mem_realInputs_iff]
      refine ⟨?_, real⟩
      simp only [Transaction.slots, List.mem_cons, List.not_mem_nil,
        or_false] at member
      rcases member with rfl | rfl
      · exact .inl rfl
      · exact .inr rfl
    rw [same _ input]
    exact owned slot member real
  · rw [← valid.balanced]
    congr 1
    apply List.map_congr_left
    intro id input
    rw [amountAt, amountAt, same id input]

def UnusedNumber (number : UInt64) (utxos : UtxoSet) : Prop :=
  ∀ id, id.blockNum = number → utxos id = none

theorem recorded_after_block {block : Block} {utxos : UtxoSet}
    (unused : UnusedNumber block.numberU64 utxos) {id : UTXOID}
    (recorded : utxos id ≠ none) :
    (id ∈ block.inputIds → applyAll block.changes utxos id = none) ∧
      (id ∉ block.inputIds →
        applyAll block.changes utxos id = utxos id) := by
  have uncreated : id ∉ putKeys block.changes := by
    intro created
    rw [Block.changes, putKeys_txsChanges] at created
    exact recorded (unused id (blockNum_of_mem_outputIds created))
  constructor
  · intro spent
    exact applyAll_of_deleted _ _ ((deletedKeys_changes block).symm ▸ spent)
      uncreated
  · intro unspent
    exact applyAll_of_untouched _ _
      ((deletedKeys_changes block).symm ▸ unspent) uncreated

theorem ValidTx.after_block_iff {p : Primitives} {signer : EIP155Signer}
    {block : Block} {utxos : UtxoSet} {tx : Transaction}
    (valid : ValidTx p signer utxos.reader tx)
    (unused : UnusedNumber block.numberU64 utxos) :
    ValidTx p signer (UtxoSet.reader (applyAll block.changes utxos)) tx ↔
      ∀ id ∈ tx.realInputs, id ∉ block.inputIds := by
  have recorded : ∀ id ∈ tx.realInputs, utxos id ≠ none := by
    intro id input absent
    have present := valid.inputs_present id input
    rw [UtxoSet.reader, absent] at present
    cases present
  constructor
  · intro still id input spent
    have present := still.inputs_present id input
    rw [UtxoSet.reader,
      (recorded_after_block unused (recorded id input)).1 spent] at present
    cases present
  · intro untouched
    refine valid.congr ?_
    intro id input
    rw [UtxoSet.reader, UtxoSet.reader,
      (recorded_after_block unused (recorded id input)).2
        (untouched id input)]

theorem mem_inputIds_iff {block : Block} {id : UTXOID} (real : id.blockNum ≠ 0) :
    id ∈ block.inputIds ↔
      id ∈ block.transactions.flatMap Transaction.realInputs := by
  simp only [Block.inputIds, List.mem_flatMap, Transaction.mem_realInputs_iff,
    List.mem_cons, List.not_mem_nil, or_false, real, ne_eq, not_false_eq_true,
    and_true]

namespace TxPool

/-- The transaction spends no output that a queued one spends. -/
def Apart (pool : TxPool) (tx : Transaction) : Prop :=
  ∀ member ∈ pool.queue, ∀ id ∈ tx.realInputs, id ∉ member.realInputs

section

variable (p : Primitives) (signer : EIP155Signer) (reader : UtxoReader)

/-- The content of the pool passes the validation of a block. -/
def Sealable (pool : TxPool) : Prop :=
  UtxoBlockValidator.validateTx p signer reader pool.content = .ok ()

/-- Every transaction of a batch that is neither known nor invalid when its
turn comes is apart from the queue. -/
def TakesApart : TxPool → List Transaction → Prop
  | _, [] => True
  | pool, tx :: rest =>
      (pool.get (p.txHash tx) = none →
          UtxoTxValidator.validate p signer reader tx = .ok () →
            pool.Apart tx) ∧
        TakesApart (pool.add p signer reader tx).1 rest

/-- The sealed transactions spend no output of a queued one with another
hash. -/
def LeavesApart (pool : TxPool) (txs : List Transaction) : Prop :=
  ∀ member ∈ pool.queue, p.txHash member ∉ txs.map p.txHash →
    ∀ id ∈ member.realInputs, id ∉ txs.flatMap Transaction.realInputs

end

variable {p : Primitives} {signer : EIP155Signer} {reader : UtxoReader}

theorem sealable_iff {pool : TxPool} :
    pool.Sealable p signer reader ↔
      (∀ tx ∈ pool.queue, ValidTx p signer reader tx) ∧
        (pool.queue.flatMap Transaction.realInputs).Nodup :=
  UtxoBlockValidator.validateTx_ok_iff _ _ _ _

theorem Sealable.of_sublist {pool other : TxPool}
    (sealable : pool.Sealable p signer reader)
    (shorter : other.queue.Sublist pool.queue) :
    other.Sealable p signer reader := by
  obtain ⟨valid, once⟩ := sealable_iff.mp sealable
  refine sealable_iff.mpr ⟨?_, once.sublist (shorter.flatMap _)⟩
  intro tx member
  exact valid tx (shorter.subset member)

theorem sealable_add_iff {pool : TxPool} (tx : Transaction)
    (sealable : pool.Sealable p signer reader) :
    (pool.add p signer reader tx).1.Sealable p signer reader ↔
      (pool.get (p.txHash tx) = none →
        UtxoTxValidator.validate p signer reader tx = .ok () →
          pool.Apart tx) := by
  obtain ⟨valid, once⟩ := sealable_iff.mp sealable
  rw [← Option.isNone_iff_eq_none, get_isNone_iff,
    UtxoTxValidator.validate_ok_iff]
  rcases pool.add_cases (p := p) signer reader tx with
    ⟨fresh, accepted, taken⟩ | ⟨refused, same, _⟩
  · have joint : (pool.add p signer reader tx).1.Sealable p signer reader ↔
        pool.Apart tx := by
      rw [sealable_iff, taken]
      simp only [List.mem_append, List.mem_singleton, List.flatMap_append,
        List.flatMap_singleton, List.nodup_append, once,
        accepted.realInputs_nodup, true_and]
      constructor
      · rintro ⟨_, apart⟩ member queued id input shared
        exact apart id (List.mem_flatMap.mpr ⟨member, queued, shared⟩) id
          input rfl
      · intro apart
        refine ⟨?_, ?_⟩
        · rintro other (queued | rfl)
          · exact valid other queued
          · exact accepted
        · rintro id shared other input rfl
          obtain ⟨member, queued, shared⟩ := List.mem_flatMap.mp shared
          exact apart member queued id input shared
    rw [joint]
    exact ⟨fun apart _ _ => apart, fun apart => apart fresh accepted⟩
  · rw [same]
    refine ⟨fun _ unknown accepted => ?_, fun _ => sealable⟩
    rcases refused with known | invalid
    · exact (unknown known).elim
    · exact (invalid accepted).elim

theorem sealable_addAll_iff {pool : TxPool} (txs : List Transaction)
    (sealable : pool.Sealable p signer reader) :
    (pool.addAll p signer reader txs).Sealable p signer reader ↔
      pool.TakesApart p signer reader txs := by
  induction txs generalizing pool with
  | nil => exact ⟨fun _ => trivial, fun _ => sealable⟩
  | cons tx txs induction =>
      have first := sealable_add_iff tx sealable
      constructor
      · intro final
        have next : (pool.add p signer reader tx).1.Sealable p signer
            reader :=
          final.of_sublist (prefix_addAll signer reader _ txs).sublist
        exact ⟨first.mp next, (induction next).mp final⟩
      · rintro ⟨apart, rest⟩
        exact (induction (first.mpr apart)).mpr rest

theorem sealable_removeAll_iff {pool : TxPool} {utxos : UtxoSet}
    {block : Block} (consistent : pool.Consistent p)
    (sealable : pool.Sealable p signer utxos.reader)
    (unused : UnusedNumber block.numberU64 utxos) :
    (block.transactions.foldl
        (fun pool tx => pool.removeTx p (p.txHash tx)) pool).Sealable p signer
          (UtxoSet.reader (applyAll block.changes utxos)) ↔
      pool.LeavesApart p block.transactions := by
  obtain ⟨valid, once⟩ := sealable_iff.mp sealable
  obtain ⟨_, order⟩ := consistent.removeAll block.transactions
  have left : ∀ tx, tx ∈ (block.transactions.foldl
      (fun pool tx => pool.removeTx p (p.txHash tx)) pool).queue ↔
        tx ∈ pool.queue ∧
          p.txHash tx ∉ block.transactions.map p.txHash := by
    intro tx
    rw [order.mem_iff, List.mem_filter, decide_eq_true_iff]
  have untouched : ∀ tx ∈ pool.queue,
      (ValidTx p signer (UtxoSet.reader (applyAll block.changes utxos)) tx ↔
        ∀ id ∈ tx.realInputs,
          id ∉ block.transactions.flatMap Transaction.realInputs) := by
    intro tx queued
    rw [(valid tx queued).after_block_iff unused]
    refine forall₂_congr ?_
    intro id input
    rw [mem_inputIds_iff ((tx.mem_realInputs_iff id).mp input).2]
  rw [sealable_iff]
  constructor
  · rintro ⟨still, _⟩ member queued unsealed
    exact (untouched member queued).mp (still member
      ((left member).mpr ⟨queued, unsealed⟩))
  · intro apart
    constructor
    · intro tx remaining
      obtain ⟨queued, unsealed⟩ := (left tx).mp remaining
      exact (untouched tx queued).mpr (apart tx queued unsealed)
    · rw [(order.flatMap_right _).nodup_iff]
      exact once.sublist (List.filter_sublist.flatMap _)

end TxPool

namespace PoolNode

variable (p : Primitives) (signer : EIP155Signer)

/-- A seal returns no error. -/
def Succeeds (node : PoolNode) : PoolStep → Prop
  | .sealTxs time disk submits txs =>
      (node.sealTxs p signer time disk submits txs).2.2 = .ok ()
  | _ => True

/-- The next child block gets a number that no recorded output has. -/
def SealsFresh (node : PoolNode) : PoolStep → Prop
  | .sealTxs .. =>
      UnusedNumber (node.operator.currentChildBlock + childBlockInterval)
        node.utxoSet
  | _ => True

/-- The step brings no two transactions into conflict: what it adds is apart
from the queue, and what it seals is apart from what stays. -/
def Compatible (node : PoolNode) : PoolStep → Prop
  | .sealTxs _ _ _ txs => node.pool.LeavesApart p txs
  | .addLocal tx => node.pool.TakesApart p signer node.reader [tx]
  | .addLocals txs => node.pool.TakesApart p signer node.reader txs
  | .addRemote tx => node.pool.TakesApart p signer node.reader [tx]
  | .addRemotes txs => node.pool.TakesApart p signer node.reader txs

/-- Sealing the content of the pool is not refused because of its members. -/
def Sealable (node : PoolNode) : Prop :=
  node.pool.Sealable p signer node.reader

end PoolNode

theorem Operator.constructBlock_numberU64 (p : Primitives) (o : Operator)
    (time : Int) (txs : List Transaction) :
    (o.constructBlock p time txs).2.numberU64 =
      o.currentChildBlock + childBlockInterval := by
  simp only [constructBlock, Block.numberU64, Block.newBlock_header]
  generalize o.currentChildBlock + childBlockInterval = number
  simp [uint64]

namespace PoolNode

variable {p : Primitives} {signer : EIP155Signer} {node : PoolNode}
  {step : PoolStep}

/-- Between calls no database transaction is open and the lookup of the pool
agrees with its queue. -/
structure Settled (p : Primitives) (node : PoolNode) : Prop where
  idle : node.operator.chain.db.Idle
  consistent : node.pool.Consistent p

theorem isSeal_or_unsealed (step : PoolStep) :
    (∃ time disk submits txs, step = .sealTxs time disk submits txs) ∨
      ∀ time disk submits txs, step ≠ .sealTxs time disk submits txs := by
  cases step with
  | sealTxs time disk submits txs => exact .inl ⟨_, _, _, _, rfl⟩
  | addLocal tx => exact .inr (by rintro _ _ _ _ ⟨⟩)
  | addLocals txs => exact .inr (by rintro _ _ _ _ ⟨⟩)
  | addRemote tx => exact .inr (by rintro _ _ _ _ ⟨⟩)
  | addRemotes txs => exact .inr (by rintro _ _ _ _ ⟨⟩)

theorem Settled.perform (settled : node.Settled p)
    (succeeds : node.Succeeds p signer step) :
    (node.perform p signer step).1.Settled p := by
  rcases isSeal_or_unsealed step with
    ⟨time, disk, submits, txs, rfl⟩ | unsealed
  · obtain ⟨idle, _, pool, _⟩ :=
      Operator.sealTxs_succeeded p signer settled.idle succeeds
    refine ⟨idle, ?_⟩
    have left := (settled.consistent.removeAll txs).1
    exact (congrArg (TxPool.Consistent p) pool).mpr left
  · obtain ⟨file, after⟩ :=
      node.perform_eq_of_unsealed p signer step unsealed
    rw [after]
    exact ⟨settled.idle, settled.consistent.addAll signer _ _⟩

/-- Which calls keep the content of the pool sealable. -/
theorem sealable_perform_iff (settled : node.Settled p)
    (sealable : node.Sealable p signer)
    (succeeds : node.Succeeds p signer step) (fresh : node.SealsFresh step) :
    (node.perform p signer step).1.Sealable p signer ↔
      node.Compatible p signer step := by
  rcases isSeal_or_unsealed step with
    ⟨time, disk, submits, txs, rfl⟩ | unsealed
  · obtain ⟨_, utxos, pool, _⟩ :=
      Operator.sealTxs_succeeded p signer settled.idle succeeds
    have unused : UnusedNumber
        (node.operator.constructBlock p time txs).2.numberU64
        node.utxoSet := by
      rw [Operator.constructBlock_numberU64]
      exact fresh
    have left := TxPool.sealable_removeAll_iff settled.consistent sealable
      unused
    rw [Operator.constructBlock_transactions] at left
    rw [Compatible, ← left]
    unfold Sealable
    apply iff_of_eq
    exact congrArg₂ (fun pool utxos =>
      TxPool.Sealable p signer (UtxoSet.reader utxos) pool) pool utxos
  · obtain ⟨file, after⟩ :=
      node.perform_eq_of_unsealed p signer step unsealed
    have added := TxPool.sealable_addAll_iff step.offered sealable
    rw [after]
    refine added.trans ?_
    cases step with
    | sealTxs time disk submits txs => exact (unsealed _ _ _ _ rfl).elim
    | addLocal tx => rfl
    | addLocals txs => rfl
    | addRemote tx => rfl
    | addRemotes txs => rfl

end PoolNode

/-- From an empty pool, the content can be sealed in every state reached
exactly when no call brings two transactions into conflict. -/
theorem pool_sealable_iff {p : Primitives} {signer : EIP155Signer}
    {start : PoolNode} (idle : start.operator.chain.db.Idle)
    (empty : start.pool = TxPool.empty) {steps : List PoolStep}
    (admitted : StepsMeet (PoolNode.perform p signer)
      (fun node step => node.Succeeds p signer step ∧ node.SealsFresh step)
      start steps) :
    (∀ past, past <+: steps →
        (execute (PoolNode.perform p signer) start past).1.Sealable p
          signer) ↔
      StepsMeet (PoolNode.perform p signer)
        (fun node step => node.Compatible p signer step) start steps := by
  refine reached_iff (PoolNode.Settled p) (PoolNode.Sealable p signer) ?_ ?_
    ⟨idle, empty ▸ TxPool.consistent_empty⟩ ?_ admitted
  · intro node step settled admitted
    exact settled.perform admitted.1
  · intro node step settled sealable admitted
    exact PoolNode.sealable_perform_iff settled sealable admitted.1 admitted.2
  · unfold PoolNode.Sealable
    rw [empty]
    rfl

/-!
## Two transactions that spend the same deposit
-/

namespace Sample

def depositedOperator (p : Primitives) : Operator :=
  ((genesisOperator p operatorAddr).perform p signer (depositStep 1)).1

/-- A node with an empty pool and an open, empty journal. -/
def poolNode (o : Operator) : PoolNode :=
  { operator := o
    config := { noLocals := false, journal := "transactions.rlp" }
    accounts := []
    journal := some .file
    file := some [] }

def respendSig : Sig :=
  { v := some 37
    r := some
      0xa18e0e3f21947c423a393243c66388dcdc0ebf6d9ae897d9b45e2ccc7c11efcc
    s := some
      0x633e351568584a9e7b54986eba05f349b35fbbeffdd1b5dec4260287f7409ae5 }

def respend : Transaction :=
  { ins := (⟨⟨1, 0, 0⟩, ⟨alice, 5⟩⟩, Operator.nullInput)
    outs := (⟨bob, 2⟩, ⟨alice, 2⟩)
    fee := 1
    sigs := (respendSig, respendSig) }

def respendPrimitives : Primitives :=
  { primitives with
    txHash := fun tx => lookup
      [(respend,
          0xa13e11b3082915db5a1264324ea30e6d031fb59d253a6eaf86ffadf23084f792)]
      (primitives.txHash tx) tx
    txSize := fun tx => lookup [(respend, 248)] (primitives.txSize tx) tx
    keccak256 := fun input => lookup
      [((respend.encodeUnsigned 1).getD [],
        0x2399929476cff6c813d615f415d208383c490ef2609626dfd748002537421c33)]
      (primitives.keccak256 input) input
    validateSignatureValues := fun v r s =>
      decide (v = 0 ∧ some r = respendSig.r ∧ some s = respendSig.s) ||
        primitives.validateSignatureValues v r s
    ecrecover := fun hash r s v =>
      if hash =
          0x2399929476cff6c813d615f415d208383c490ef2609626dfd748002537421c33 ∧
        some r = respendSig.r ∧ some s = respendSig.s ∧ v = 0 then
        some pubkey
      else primitives.ecrecover hash r s v }

theorem depositStep_admissible : Admissible [depositStep 1] := by
  refine ⟨by decide, ?_, by decide⟩
  intro step member
  rw [List.mem_singleton.mp member]
  decide

theorem depositedOperator_state (p : Primitives) :
    RunState [depositStep 1] (depositedOperator p) :=
  (runState_genesis p operatorAddr).perform depositStep_admissible

theorem depositedOperator_unused (p : Primitives) {number : UInt64}
    (other : number ≠ 1) :
    UnusedNumber number (depositedOperator p).chain.utxoSet := by
  intro id same
  by_contra held
  rcases (depositedOperator_state p).used id held with
    ⟨k, positive, bound, _⟩ | ⟨deposit, member, _, equal, _⟩
  · have none : [depositStep 1].countP isSeal = 0 := rfl
    omega
  · rw [List.mem_singleton.mp member] at equal
    rw [← same, ← equal] at other
    exact other rfl

end Sample

theorem spent_deposit_keeps_pool_sealable :
    (execute (PoolNode.perform Sample.primitives Sample.signer)
        (Sample.poolNode (Sample.depositedOperator Sample.primitives))
        [.addLocal Sample.spend]).1.Sealable Sample.primitives
          Sample.signer ∧
      (execute (PoolNode.perform Sample.primitives Sample.signer)
        (Sample.poolNode (Sample.depositedOperator Sample.primitives))
        [.addLocal Sample.spend,
          .sealTxs Sample.now true true [Sample.spend]]).1.Sealable
            Sample.primitives Sample.signer := by
  have admitted : StepsMeet (PoolNode.perform Sample.primitives Sample.signer)
      (fun node step => node.Succeeds Sample.primitives Sample.signer step ∧
        node.SealsFresh step)
      (Sample.poolNode (Sample.depositedOperator Sample.primitives))
      [PoolStep.addLocal Sample.spend,
        .sealTxs Sample.now true true [Sample.spend]] := by
    refine ⟨⟨trivial, trivial⟩, ⟨?_, ?_⟩, trivial⟩
    · unfold PoolNode.Succeeds
      decide +kernel
    · obtain ⟨file, added⟩ := PoolNode.perform_eq_of_unsealed
        Sample.primitives Sample.signer
        (Sample.poolNode (Sample.depositedOperator Sample.primitives))
        (.addLocal Sample.spend) (by simp)
      have free : (Sample.depositedOperator
          Sample.primitives).currentChildBlock + childBlockInterval ≠ 1 := by
        decide
      rw [added]
      exact Sample.depositedOperator_unused Sample.primitives free
  have queue : (PoolNode.perform Sample.primitives Sample.signer
      (Sample.poolNode (Sample.depositedOperator Sample.primitives))
      (.addLocal Sample.spend)).1.pool.queue = [Sample.spend] := by
    decide +kernel
  have always := (pool_sealable_iff
    (Sample.depositedOperator_state Sample.primitives).idle rfl
    admitted).mpr ⟨⟨?_, trivial⟩, ?_, trivial⟩
  · exact ⟨always _ (List.prefix_append _ _), always _ (List.prefix_refl _)⟩
  · intro _ _ member queued
    cases queued
  · intro member queued unsealed
    rw [queue, List.mem_singleton] at queued
    rw [queued] at unsealed
    exact (unsealed List.mem_cons_self).elim

/-- Both payments out of the deposit enter the pool, and its content is
refused. -/
theorem conflicting_payments_block_sealing :
    (execute (PoolNode.perform Sample.respendPrimitives Sample.signer)
        (Sample.poolNode (Sample.depositedOperator Sample.respendPrimitives))
        [.addLocal Sample.spend, .addLocal Sample.respend]).2 =
          [.accepted Sample.spend, .accepted Sample.respend] ∧
      ¬ (execute (PoolNode.perform Sample.respendPrimitives Sample.signer)
        (Sample.poolNode (Sample.depositedOperator Sample.respendPrimitives))
        [.addLocal Sample.spend, .addLocal Sample.respend]).1.Sealable
          Sample.respendPrimitives Sample.signer := by
  unfold PoolNode.Sealable TxPool.Sealable
  decide +kernel

end Plasma.Core
