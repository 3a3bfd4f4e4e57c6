import Plasma.Core.SealingOnce

/-!
# When the pipeline seals and when it halts

Every copy of the pool holds what the pool held before, and nothing leaves the
pool but by a written block.  A content that cannot be sealed together stays in
every later copy, so no child block is written any more.  A content that can be
sealed is written by the next pass over its copy.
-/

namespace Plasma.Core

open Plasma.Lib Plasma.Store

/-- The transaction was valid when it was accepted; since then some of its
inputs may have been spent. -/
def Aged (p : Primitives) (signer : EIP155Signer) (past : List OperatorStep)
    (utxos : UtxoSet) (tx : Transaction) : Prop :=
  ∃ before : UtxoSet, ValidTx p signer before.reader tx ∧
    ∀ id ∈ tx.realInputs, UsedNumber past id.blockNum ∧
      (utxos id = before id ∨ utxos id = none)

/-- The transactions cannot be sealed together, now or later: two spend the
same output, or one spends an output that is gone. -/
def Spoiled (past : List OperatorStep) (utxos : UtxoSet)
    (txs : List Transaction) : Prop :=
  ¬ (txs.flatMap Transaction.realInputs).Nodup ∨
    ∃ tx ∈ txs, ∃ id ∈ tx.realInputs,
      utxos id = none ∧ UsedNumber past id.blockNum

section Calls

variable {p : Primitives} {signer : EIP155Signer} {past : List OperatorStep}
  {o next : Operator} {call : OperatorStep} {written : List Written}
  {utxos : UtxoSet} {tx : Transaction} {txs : List Transaction}

theorem Aged.of_valid (state : RunState past o)
    (valid : ValidTx p signer o.chain.utxoSet.reader tx) :
    Aged p signer past o.chain.utxoSet tx := by
  refine ⟨o.chain.utxoSet, valid, ?_⟩
  intro id input
  refine ⟨state.used id ?_, .inl rfl⟩
  intro absent
  have present := valid.inputs_present id input
  rw [UtxoSet.reader, absent] at present
  cases present

theorem Aged.called (aged : Aged p signer past o.chain.utxoSet tx)
    (state : RunState past o) (admissible : Admissible (past ++ [call]))
    (called : Called p signer o next call written) :
    Aged p signer (past ++ [call]) next.chain.utxoSet tx := by
  obtain ⟨before, valid, inputs⟩ := aged
  refine ⟨before, valid, ?_⟩
  intro id input
  obtain ⟨used, present⟩ := inputs id input
  refine ⟨used.append call, ?_⟩
  rcases called.outcome with ⟨same, _⟩ | ⟨changed, _, verdict⟩
  · rw [same]
    exact present
  · rw [changed]
    by_cases absent : o.chain.utxoSet id = none
    · exact .inr (gone_after_commit state admissible verdict absent used)
    · have fresh := state.freshNumber admissible verdict
      obtain ⟨spent, kept⟩ := recorded_after_block fresh.unused absent
      by_cases taken : id ∈ (call.block p o).inputIds
      · exact .inr (spent taken)
      · rw [kept taken]
        exact present

/-- Aged transactions that cannot be sealed are spoiled. -/
theorem spoiled_of_aged
    (aged : ∀ tx ∈ txs, Aged p signer past utxos tx)
    (refused : ¬ ((∀ tx ∈ txs, ValidTx p signer utxos.reader tx) ∧
      (txs.flatMap Transaction.realInputs).Nodup)) :
    Spoiled past utxos txs := by
  by_cases once : (txs.flatMap Transaction.realInputs).Nodup
  · right
    have invalid : ∃ tx ∈ txs, ¬ ValidTx p signer utxos.reader tx := by
      by_contra all
      push Not at all
      exact refused ⟨all, once⟩
    obtain ⟨tx, member, invalid⟩ := invalid
    obtain ⟨before, valid, inputs⟩ := aged tx member
    refine ⟨tx, member, ?_⟩
    by_contra present
    apply invalid
    apply valid.congr
    intro id input
    obtain ⟨used, same | absent⟩ := inputs id input
    · rw [UtxoSet.reader, UtxoSet.reader, same]
    · exact absurd ⟨id, input, absent, used⟩ present
  · exact .inl once

theorem Spoiled.of_prefix {more : List Transaction}
    (spoiled : Spoiled past utxos txs) (longer : txs <+: more) :
    Spoiled past utxos more := by
  obtain ⟨rest, rfl⟩ := longer
  rcases spoiled with twice | ⟨tx, member, gone⟩
  · left
    intro once
    rw [List.flatMap_append] at once
    exact twice once.of_append_left
  · exact .inr ⟨tx, List.mem_append_left _ member, gone⟩

theorem Spoiled.called (spoiled : Spoiled past o.chain.utxoSet txs)
    (state : RunState past o) (admissible : Admissible (past ++ [call]))
    (called : Called p signer o next call written) :
    Spoiled (past ++ [call]) next.chain.utxoSet txs := by
  rcases spoiled with twice | ⟨tx, member, id, input, absent, used⟩
  · exact .inl twice
  · right
    refine ⟨tx, member, id, input, ?_, used.append call⟩
    rcases called.outcome with ⟨same, _⟩ | ⟨changed, _, verdict⟩
    · rw [same]
      exact absent
    · rw [changed]
      exact gone_after_commit state admissible verdict absent used

/-- A block with spoiled transactions is refused. -/
theorem Spoiled.refused {time : Int} {disk submits : Bool}
    (spoiled : Spoiled past o.chain.utxoSet txs) (state : RunState past o)
    (admissible : Admissible
      (past ++ [.sealTxs time disk submits txs])) :
    o.chain.verdict p signer (o.constructBlock p time txs).2 ≠ .ok () := by
  intro verdict
  have path := sealed_onDepositPath (p := p) time txs state admissible
  have accepted := validateTx_of_verdict path verdict
  rw [Operator.constructBlock_transactions] at accepted
  obtain ⟨valid, once⟩ :=
    (UtxoBlockValidator.validateTx_ok_iff _ _ _ _).mp accepted
  rcases spoiled with twice | ⟨tx, member, id, input, absent, _⟩
  · exact twice once
  · have present := (valid tx member).inputs_present id input
    rw [UtxoSet.reader, absent] at present
    cases present

end Calls

/-- The number of a block that is to be sealed was not used before. -/
theorem sealed_unused {p : Primitives} {past : List OperatorStep}
    {o : Operator} {time : Int} {disk submits : Bool}
    {txs : List Transaction} (state : RunState past o)
    (admissible : Admissible
      (past ++ [.sealTxs time disk submits txs])) :
    (o.constructBlock p time txs).2.numberU64 ≠ 0 ∧
      ¬ UsedNumber past (o.constructBlock p time txs).2.numberU64 := by
  have few : (past ++ [OperatorStep.sealTxs time disk submits txs]).countP
      isSeal < 2 ^ 50 := List.countP_le_length.trans_lt admissible.short
  rw [List.countP_append, List.countP_singleton] at few
  simp only [isSeal, if_true] at few
  have number : (o.constructBlock p time txs).2.header.number =
      ((o.currentChildBlock + childBlockInterval).toNat : Int) := by
    simp only [Operator.constructBlock, Block.newBlock_header]
  have counted : (o.currentChildBlock + childBlockInterval).toNat =
      1000 * (past.countP isSeal + 1) := by
    have interval : childBlockInterval.toNat = 1000 := rfl
    rw [UInt64.toNat_add, state.counter, interval]
    omega
  have low : (o.constructBlock p time txs).2.numberU64.toNat =
      1000 * (past.countP isSeal + 1) := by
    rw [Block.numberU64, number, uint64_toNat, counted]
    omega
  constructor
  · intro zero
    rw [zero] at low
    simp at low
  · rintro (⟨k, _, earlier, equal⟩ | ⟨deposit, _, nonneg, equal, odd⟩)
    · omega
    · apply odd
      have path := sealed_onDepositPath (p := p) time txs state admissible
      rw [int64_eq_of_uint64_eq nonneg (by rw [number]; omega) equal]
      simpa [Block.onDepositPath] using path

namespace Pipeline

section Halt

variable {p : Primitives} {signer : EIP155Signer} {s next : Pipeline}
  {moves : List PipelineMove} {move : PipelineMove}
  {history reports : List PipelineReport} {core : List Transaction}

/-- A queued transaction was queued before, or it has just been found
valid. -/
theorem Moved.queue (moved : Moved p signer s move next reports)
    (consistent : s.pool.Consistent p) {tx : Transaction}
    (queued : tx ∈ next.pool.queue) :
    tx ∈ s.pool.queue ∨ ValidTx p signer s.utxoSet.reader tx := by
  cases moved with
  | still silent => exact .inl queued
  | added fresh valid =>
      rcases List.mem_append.mp queued with earlier | last
      · exact .inl earlier
      · rw [List.mem_singleton] at last
        exact .inr (last ▸ valid)
  | ticked => exact .inl queued
  | refused head free called =>
      rw [pool, called.pool] at queued
      exact .inl queued
  | wrote head free called =>
      rw [pool, called.pool] at queued
      exact .inl queued
  | removed head =>
      obtain ⟨_, order⟩ := consistent.removeTx (p.txHash _)
      exact .inl (List.mem_of_mem_filter (order.mem_iff.mp queued))
  | submitted done => exact .inl queued
  | deposited called =>
      rw [pool, called.pool] at queued
      exact .inl queued

/-- Every queued transaction was valid when it was accepted. -/
def QueueAged (p : Primitives) (signer : EIP155Signer) (s : Pipeline)
    (history : List PipelineReport) : Prop :=
  ∀ tx ∈ s.pool.queue, Aged p signer (callsOf history) s.utxoSet tx

theorem QueueAged.step (aged : QueueAged p signer s history)
    (tracked : Tracked p signer moves s history)
    (admitted : Admitted (moves ++ [move])) :
    QueueAged p signer (Pipeline.step p signer s move).1
      (history ++ (Pipeline.step p signer s move).2) := by
  have moved := moved_step p signer tracked.steady.run.idle move
  intro tx queued
  have before : Aged p signer (callsOf history) s.utxoSet tx := by
    rcases moved.queue tracked.custody.consistent queued with
      earlier | valid
    · exact aged tx earlier
    · exact .of_valid tracked.steady.run valid
  rw [callsOf_append]
  rcases moved.chain with
    ⟨chain, _, silent, _⟩ | ⟨call, one, makes, called⟩
  · rw [silent, List.append_nil, utxoSet, chain]
    exact before
  · obtain ⟨admissible, _⟩ := tracked.steady.admissible admitted makes
    rw [one]
    exact before.called tracked.steady.run admissible called

theorem queueAged_run (p : Primitives) (signer : EIP155Signer)
    {addr : Address} {operator : Operator}
    (started : startOperator p true addr Database.empty = .ok operator)
    {moves : List PipelineMove} (admitted : Admitted moves) :
    Tracked p signer moves
        (execute (Pipeline.step p signer) (start operator) moves).1
        (execute (Pipeline.step p signer) (start operator) moves).2 ∧
      QueueAged p signer
        (execute (Pipeline.step p signer) (start operator) moves).1
        (execute (Pipeline.step p signer) (start operator) moves).2 := by
  refine execute_invariant (Pipeline.step p signer)
    (fun moves s history => Admitted moves →
      Tracked p signer moves s history ∧ QueueAged p signer s history)
    ?_ ?_ moves admitted
  · intro moves s history move invariant admitted
    obtain ⟨tracked, aged⟩ := invariant admitted.of_append
    exact ⟨tracked.step admitted, aged.step tracked admitted⟩
  · intro _
    refine ⟨tracked_start p signer started, ?_⟩
    have genesis := eq_genesisOperator p addr started
    subst genesis
    intro tx queued
    cases queued

/-- Spoiled transactions begin the queue and every copy of it. -/
structure Jammed (s : Pipeline) (history : List PipelineReport)
    (core : List Transaction) : Prop where
  free : s.removing = []
  queued : core <+: s.pool.queue
  copied : ∀ txs ∈ s.txsCh, core <+: txs
  spoiled : Spoiled (callsOf history) s.utxoSet core

theorem Jammed.step (jammed : Jammed s history core)
    (tracked : Tracked p signer moves s history)
    (admitted : Admitted (moves ++ [move])) :
    Jammed (Pipeline.step p signer s move).1
        (history ++ (Pipeline.step p signer s move).2) core ∧
      childBlocks (entries (Pipeline.step p signer s move).2) = [] := by
  have run := tracked.steady.run
  have moved := moved_step p signer run.idle move
  have spoiled : Spoiled
      (callsOf (history ++ (Pipeline.step p signer s move).2))
      (Pipeline.step p signer s move).1.utxoSet core := by
    rw [callsOf_append]
    rcases moved.chain with
      ⟨chain, _, silent, _⟩ | ⟨call, one, makes, called⟩
    · rw [silent, List.append_nil, utxoSet, chain]
      exact jammed.spoiled
    · obtain ⟨admissible, _⟩ := tracked.steady.admissible admitted makes
      rw [one]
      exact jammed.spoiled.called run admissible called
  generalize after : Pipeline.step p signer s move = result at moved spoiled ⊢
  obtain ⟨next, reports⟩ := result
  dsimp only at moved spoiled ⊢
  cases moved with
  | still silent =>
      exact ⟨⟨jammed.free, jammed.queued, jammed.copied, spoiled⟩, rfl⟩
  | added fresh valid =>
      refine ⟨⟨jammed.free, ?_, jammed.copied, spoiled⟩, rfl⟩
      exact jammed.queued.trans (List.prefix_append _ _)
  | ticked =>
      refine ⟨⟨jammed.free, jammed.queued, ?_, spoiled⟩, rfl⟩
      intro txs member
      rcases List.mem_append.mp member with earlier | last
      · exact jammed.copied txs earlier
      · rw [List.mem_singleton.mp last]
        exact jammed.queued
  | refused head free called =>
      refine ⟨⟨jammed.free, ?_, ?_, spoiled⟩, rfl⟩
      · rw [pool, called.pool]
        exact jammed.queued
      · intro txs member
        exact jammed.copied txs (by rw [head]; exact .tail _ member)
  | wrote head free called =>
      have first := jammed.copied _ (by rw [head]; exact .head _)
      obtain ⟨admissible, _⟩ := tracked.steady.admissible admitted
        ⟨_, by rw [head]; exact .head _, rfl⟩
      rcases called.outcome with ⟨_, nothing⟩ | ⟨_, _, verdict⟩
      · cases nothing
      · exact absurd verdict
          ((jammed.spoiled.of_prefix first).refused run admissible)
  | removed head =>
      rw [jammed.free] at head
      cases head
  | submitted done =>
      obtain ⟨_, _, nothing⟩ := reports_submitted _ _
      refine ⟨⟨jammed.free, jammed.queued, jammed.copied, spoiled⟩, ?_⟩
      rw [nothing]
      rfl
  | deposited called =>
      obtain ⟨_, _, written⟩ := reports_called _ _
      refine ⟨⟨jammed.free, ?_, jammed.copied, spoiled⟩, ?_⟩
      · rw [pool, called.pool]
        exact jammed.queued
      · rw [written]
        rcases called.outcome with ⟨_, nothing⟩ | ⟨_, entry, _⟩
        · rw [nothing]
          rfl
        · rw [entry]
          rfl

/-- No later move writes a child block or takes something out of the pool. -/
theorem Jammed.run (jammed : Jammed s history core)
    (tracked : Tracked p signer moves s history)
    {later : List PipelineMove} (admitted : Admitted (moves ++ later)) :
    childBlocks (entries (execute (Pipeline.step p signer) s later).2) = [] ∧
      core <+: (execute (Pipeline.step p signer) s later).1.pool.queue := by
  induction later generalizing moves s history with
  | nil => exact ⟨rfl, jammed.queued⟩
  | cons move later induction =>
      have split : moves ++ move :: later = (moves ++ [move]) ++ later := by
        rw [List.append_assoc, List.singleton_append]
      rw [split] at admitted
      obtain ⟨next, silent⟩ := jammed.step tracked admitted.of_append
      obtain ⟨rest, queued⟩ := induction next
        (tracked.step admitted.of_append) admitted
      rw [execute_cons]
      refine ⟨?_, queued⟩
      rw [entries_append, childBlocks_append, silent, rest]
      rfl

end Halt

/-- Once `Seal` has nothing left to do, the channel is empty and the content of
the pool does not pass the validation of a block, no child block is written any
more, whatever is added, deposited or copied later. -/
theorem unsealable_pool_halts_sealing (p : Primitives)
    (signer : EIP155Signer) (addr : Address) {operator : Operator}
    (started : startOperator p true addr Database.empty = .ok operator)
    {moves later : List PipelineMove} (admitted : Admitted (moves ++ later))
    {halted : Pipeline} {history : List PipelineReport}
    (run : execute (Pipeline.step p signer) (start operator) moves =
      (halted, history))
    (done : halted.removing = []) (drained : halted.txsCh = [])
    (unsealable :
      ¬ halted.pool.Sealable p signer halted.utxoSet.reader) :
    childBlocks
        (entries (execute (Pipeline.step p signer) halted later).2) = [] ∧
      halted.pool.queue <+:
        (execute (Pipeline.step p signer) halted later).1.pool.queue := by
  obtain ⟨tracked, aged⟩ :=
    queueAged_run p signer started admitted.of_append
  rw [run] at tracked aged
  have jammed : Jammed halted history halted.pool.queue := by
    refine ⟨done, List.prefix_refl _, ?_, ?_⟩
    · rw [drained]
      intro txs member
      cases member
    · rw [TxPool.sealable_iff] at unsealable
      exact spoiled_of_aged aged unsealable
  exact jammed.run tracked admitted

end Pipeline

namespace Sample

/-- Both payments out of the deposit are accepted. -/
def conflictMoves : List PipelineMove :=
  [.depositEvent now true 1 alice 0 5, .add spend, .add respend]

def conflict : Pipeline × List PipelineReport :=
  execute (Pipeline.step respendPrimitives signer)
    (Pipeline.start (genesisOperator respendPrimitives operatorAddr))
    conflictMoves

end Sample

/-- After two payments out of one deposit no tick gets a block written. -/
theorem conflicting_payments_halt_sealing :
    childBlocks (entries (execute
      (Pipeline.step Sample.respendPrimitives Sample.signer)
      Sample.conflict.1 [.tick, .write Sample.now true false, .tick,
        .write Sample.now true false]).2) = [] := by
  have reached : Sample.conflict.1.removing = [] ∧
      Sample.conflict.1.txsCh = [] ∧
      ¬ UtxoBlockValidator.validateTx Sample.respendPrimitives Sample.signer
        Sample.conflict.1.utxoSet.reader Sample.conflict.1.pool.content =
          .ok () := by
    decide +kernel
  obtain ⟨done, drained, unsealable⟩ := reached
  have admitted : Pipeline.Admitted (Sample.conflictMoves ++
      [.tick, .write Sample.now true false, .tick,
        .write Sample.now true false]) := ⟨by decide, by decide, by decide⟩
  exact (Pipeline.unsealable_pool_halts_sealing Sample.respendPrimitives
    Sample.signer Sample.operatorAddr
    (startOperator_empty Sample.respendPrimitives Sample.operatorAddr
      (by decide)) admitted
    (Prod.mk.eta : (Sample.conflict.1, Sample.conflict.2) =
      Sample.conflict).symm done drained unsealable).1

namespace Pipeline

section Progress

variable {p : Primitives} {signer : EIP155Signer} {s : Pipeline}
  {moves : List PipelineMove} {move : PipelineMove}
  {history : List PipelineReport} {txs : List Transaction}

/-- The header has its own hash and a number that was used. -/
def UsedHeader (p : Primitives) (calls : List OperatorStep) (hash : Hash)
    (header : Header) : Prop :=
  p.headerHash header = hash ∧
    (uint64 header.number = 0 ∨ UsedNumber calls (uint64 header.number))

/-- The stored and the cached headers have used numbers. -/
structure Recorded (p : Primitives) (s : Pipeline)
    (history : List PipelineReport) : Prop where
  stored : HeadersMeet
    (fun _ hash header => UsedHeader p (callsOf history) hash header)
      s.operator.chain.db.db
  cached : BlockCache.Caches s.operator.chain.blockCache fun hash block =>
    UsedHeader p (callsOf history) hash block.header

theorem UsedHeader.append {calls : List OperatorStep} {hash : Hash}
    {header : Header} (used : UsedHeader p calls hash header)
    (call : OperatorStep) : UsedHeader p (calls ++ [call]) hash header :=
  ⟨used.1, used.2.imp_right fun number => number.append call⟩

theorem Recorded.reads (recorded : Recorded p s history) :
    s.operator.chain.Reads p fun hash block =>
      UsedHeader p (callsOf history) hash block.header := by
  intro hash number block read
  have used := recorded.stored number hash block.header
    (BlockChain.storedAt_of_readBlock read).1
  exact ⟨used.1, used⟩

theorem Recorded.step (recorded : Recorded p s history)
    (tracked : Tracked p signer moves s history)
    (admitted : Admitted (moves ++ [move])) :
    Recorded p (Pipeline.step p signer s move).1
      (history ++ (Pipeline.step p signer s move).2) := by
  have run := tracked.steady.run
  have moved := moved_step p signer run.idle move
  rcases moved.chain with
    ⟨chain, _, silent, _⟩ | ⟨call, one, makes, called⟩
  · constructor
    · rw [chain, callsOf_append, silent, List.append_nil]
      exact recorded.stored
    · rw [chain, callsOf_append, silent, List.append_nil]
      exact recorded.cached
  · obtain ⟨admissible, _⟩ := tracked.steady.admissible admitted makes
    have later : HeadersMeet (fun _ hash header =>
        UsedHeader p (callsOf history ++ [call]) hash header)
          s.operator.chain.db.db :=
      recorded.stored.mono fun _ _ _ used => used.append call
    constructor
    · rw [callsOf_append, one]
      rcases called.effect with ⟨same, _⟩ | ⟨db, _, verdict⟩
      · rw [same]
        exact later
      · rw [db]
        apply later.applyAll
        apply BlockChain.putsMeet_writeBatch
        exact ⟨rfl, .inr (used_of_verdict run admissible verdict)⟩
    · rw [callsOf_append, one]
      apply called.cached
      · intro hash block found
        exact (recorded.cached hash block found).append call
      · intro hash number block read
        obtain ⟨own, used⟩ := recorded.reads hash number block read
        exact ⟨own, used.append call⟩

theorem recorded_start (p : Primitives) {addr : Address}
    {operator : Operator}
    (started : startOperator p true addr Database.empty = .ok operator) :
    Recorded p (start operator) [] := by
  have genesis := eq_genesisOperator p addr started
  subst genesis
  have own : UsedHeader p [] ((genesisBlock p).hash p)
      (genesisBlock p).header := by
    refine ⟨rfl, .inl ?_⟩
    rw [genesisBlock_number]
    rfl
  constructor
  · apply HeadersMeet.applyAll
    · intro number hash header stored
      cases stored
    · intro change member
      simp only [Rawdb.blockChanges, List.cons_append, List.nil_append,
        List.mem_cons, List.not_mem_nil, or_false] at member
      rcases member with rfl | rfl | rfl | rfl | rfl | rfl
      · trivial
      · trivial
      · exact putsMeet_headerData own
      · trivial
      · trivial
      · trivial
  · exact BlockCache.Caches.touch (BlockCache.caches_nil _) own

/-- The next copy in the channel passes the validation of a block. -/
structure Ready (p : Primitives) (signer : EIP155Signer) (s : Pipeline)
    (txs : List Transaction) : Prop where
  head : ∃ rest, s.txsCh = txs :: rest
  free : s.removing = []
  settled : s.submitting = none
  valid : ∀ tx ∈ txs, ValidTx p signer s.utxoSet.reader tx
  once : (txs.flatMap Transaction.realInputs).Nodup

/-- A deposit spends no output. -/
theorem valid_after_deposit {past : List OperatorStep} {o next : Operator}
    {time : Int} {disk : Bool} {number : Int} {depositor token : Address}
    {amount : Int} {written : List Written} {tx : Transaction}
    (valid : ValidTx p signer o.chain.utxoSet.reader tx)
    (state : RunState past o)
    (admissible : Admissible
      (past ++ [.depositEvent time disk number depositor token amount]))
    (called : Called p signer o next
      (.depositEvent time disk number depositor token amount) written) :
    ValidTx p signer next.chain.utxoSet.reader tx := by
  rcases called.outcome with ⟨same, _⟩ | ⟨changed, _, verdict⟩
  · rw [same]
    exact valid
  · have fresh := state.freshNumber admissible verdict
    rw [changed]
    apply (valid.after_block_iff fresh.unused).mpr
    intro id input spent
    obtain ⟨_, real⟩ := (tx.mem_realInputs_iff id).mp input
    rw [mem_inputIds_iff real] at spent
    cases spent

/-- Only a write takes the copy from the channel. -/
theorem Ready.step (ready : Ready p signer s txs)
    (tracked : Tracked p signer moves s history)
    (admitted : Admitted (moves ++ [move]))
    (other : ∀ time disk raced, move ≠ .write time disk raced) :
    Ready p signer (Pipeline.step p signer s move).1 txs := by
  obtain ⟨⟨rest, head⟩, free, settled, valid, once⟩ := ready
  have moved := moved_step p signer tracked.steady.run.idle move
  generalize Pipeline.step p signer s move = result at moved ⊢
  obtain ⟨next, reports⟩ := result
  dsimp only at moved ⊢
  cases moved with
  | still silent => exact ⟨⟨rest, head⟩, free, settled, valid, once⟩
  | added fresh accepted => exact ⟨⟨rest, head⟩, free, settled, valid, once⟩
  | ticked =>
      refine ⟨⟨rest ++ [s.pool.queue], ?_⟩, free, settled, valid, once⟩
      rw [head]
      rfl
  | refused first empty called => exact absurd rfl (other _ _ _)
  | wrote first empty called => exact absurd rfl (other _ _ _)
  | removed first =>
      rw [free] at first
      cases first
  | submitted done => exact ⟨⟨rest, head⟩, free, rfl, valid, once⟩
  | deposited called =>
      obtain ⟨admissible, _⟩ := tracked.steady.admissible admitted rfl
      refine ⟨⟨rest, head⟩, free, settled, ?_, once⟩
      intro tx member
      exact valid_after_deposit (valid tx member) tracked.steady.run
        admissible called

/-- A copy that is ready is written, unless the hash of its block is taken. -/
theorem Ready.verdict (ready : Ready p signer s txs)
    (tracked : Tracked p signer moves s history)
    (recorded : Recorded p s history) {time : Int} {raced : Bool}
    (admitted : Admitted (moves ++ [.write time true raced]))
    (distinct : ∀ header, p.headerHash header =
        (s.operator.constructBlock p time txs).2.hash p →
      header = (s.operator.constructBlock p time txs).2.header) :
    s.operator.chain.verdict p signer
      (s.operator.constructBlock p time txs).2 = .ok () := by
  obtain ⟨⟨rest, head⟩, _, _, valid, once⟩ := ready
  have run := tracked.steady.run
  obtain ⟨admissible, _⟩ := tracked.steady.admissible admitted
    ⟨txs, by rw [head]; exact .head _, rfl⟩
  have path := sealed_onDepositPath (p := p) time txs run admissible
  obtain ⟨nonzero, unused⟩ := sealed_unused (p := p) run admissible
  have unknown : (s.operator.chain.hasBlock p
      ((s.operator.constructBlock p time txs).2.hash p)
      (s.operator.constructBlock p time txs).2.numberU64).2 = false := by
    by_contra known
    rw [Bool.not_eq_false] at known
    obtain ⟨block, found⟩ := Option.isSome_iff_exists.mp known
    obtain ⟨hash, used⟩ := (BlockChain.getBlock_caches recorded.cached
      recorded.reads _ _).2 block found
    rw [distinct block.header hash] at used
    exact used.elim nonzero unused
  have root : p.deriveSha (s.operator.constructBlock p time txs).2.transactions
      = (s.operator.constructBlock p time txs).2.header.txHash := by
    simp only [Operator.constructBlock, Block.newBlock_transactions,
      Block.newBlock_header]
  simp only [BlockChain.verdict, path, Bool.false_eq_true, if_false]
  apply (UtxoBlockValidator.validateBody_ok_iff _ _ _ _ _).mpr
  refine ⟨unknown, root, ?_⟩
  apply (UtxoBlockValidator.validateTx_ok_iff _ _ _ _).mpr
  rw [Operator.constructBlock_transactions]
  exact ⟨valid, once⟩

/-- Everything a run keeps together with the stored headers. -/
theorem recorded_run (p : Primitives) (signer : EIP155Signer)
    {addr : Address} {operator : Operator}
    (started : startOperator p true addr Database.empty = .ok operator)
    {moves : List PipelineMove} (admitted : Admitted moves) :
    Tracked p signer moves
        (execute (Pipeline.step p signer) (start operator) moves).1
        (execute (Pipeline.step p signer) (start operator) moves).2 ∧
      Recorded p
        (execute (Pipeline.step p signer) (start operator) moves).1
        (execute (Pipeline.step p signer) (start operator) moves).2 := by
  refine execute_invariant (Pipeline.step p signer)
    (fun moves s history => Admitted moves →
      Tracked p signer moves s history ∧ Recorded p s history)
    ?_ ?_ moves admitted
  · intro moves s history move invariant admitted
    obtain ⟨tracked, recorded⟩ := invariant admitted.of_append
    exact ⟨tracked.step admitted, recorded.step tracked admitted⟩
  · intro _
    exact ⟨tracked_start p signer started, recorded_start p started⟩

theorem Ready.run (ready : Ready p signer s txs)
    (tracked : Tracked p signer moves s history)
    {between : List PipelineMove} (admitted : Admitted (moves ++ between))
    (others : ∀ move ∈ between, ∀ time disk raced,
      move ≠ .write time disk raced) :
    Ready p signer (execute (Pipeline.step p signer) s between).1 txs := by
  induction between generalizing moves s history with
  | nil => exact ready
  | cons move between induction =>
      have split : moves ++ move :: between = (moves ++ [move]) ++ between := by
        rw [List.append_assoc, List.singleton_append]
      rw [split] at admitted
      rw [execute_cons]
      apply induction
      · exact ready.step tracked admitted.of_append
          (others move List.mem_cons_self)
      · exact tracked.step admitted.of_append
      · exact admitted
      · intro later member
        exact others later (List.mem_cons_of_mem _ member)

end Progress

/-- When `Seal` is done, the channel is empty and the content of the pool
passes the validation of a block, the next tick and the next write put exactly
this content into a child block, whatever else happens between the two. -/
theorem sealable_pool_is_sealed (p : Primitives) (signer : EIP155Signer)
    (addr : Address) {operator : Operator}
    (started : startOperator p true addr Database.empty = .ok operator)
    {moves between : List PipelineMove} {time : Int}
    (admitted : Admitted
      (moves ++ (.tick :: between) ++ [.write time true false]))
    {ready last : Pipeline} {history reports : List PipelineReport}
    (run : execute (Pipeline.step p signer) (start operator) moves =
      (ready, history))
    (waiting : ready.waiting = true) (drained : ready.txsCh = [])
    (filled : ready.pool.content ≠ [])
    (sealable : ready.pool.Sealable p signer ready.utxoSet.reader)
    (passed : execute (Pipeline.step p signer) ready (.tick :: between) =
      (last, reports))
    (others : ∀ move ∈ between, ∀ time disk raced,
      move ≠ .write time disk raced)
    (distinct : ∀ header, p.headerHash header =
        (last.operator.constructBlock p time ready.pool.content).2.hash p →
      header =
        (last.operator.constructBlock p time ready.pool.content).2.header) :
    ∃ block, block.transactions = ready.pool.content ∧
      entries (Pipeline.step p signer last (.write time true false)).2 =
        [.child last.utxoSet block] := by
  have earlier := admitted.of_append
  obtain ⟨before, _⟩ := recorded_run p signer started earlier.of_append
  obtain ⟨tracked, recorded⟩ := recorded_run p signer started earlier
  rw [run] at before
  rw [execute_append, run] at tracked recorded
  rw [passed] at tracked recorded
  have free : ready.removing = [] ∧ ready.submitting = none := by
    simpa [Pipeline.waiting] using waiting
  obtain ⟨valid, once⟩ := TxPool.sealable_iff.mp sealable
  have copied : ready.tick = { ready with txsCh := [ready.pool.content] } := by
    have some : ready.pool.content.isEmpty = false := by
      simpa [List.isEmpty_iff] using filled
    simp [tick, room, waiting, some, drained]
  have split : moves ++ .tick :: between = (moves ++ [.tick]) ++ between := by
    rw [List.append_assoc, List.singleton_append]
  have ticked : Ready p signer ready.tick ready.pool.content := by
    rw [copied]
    exact ⟨⟨[], rfl⟩, free.1, free.2, valid, once⟩
  have next : Ready p signer last ready.pool.content := by
    rw [split] at earlier
    have after := ticked.run (before.step earlier.of_append) earlier others
    rw [execute_cons] at passed
    have same := congrArg Prod.fst passed
    simp only [Pipeline.step] at same
    rwa [same] at after
  have verdict := next.verdict tracked recorded admitted distinct
  obtain ⟨⟨rest, head⟩, empty, settled, _⟩ := next
  have idle : last.waiting = true := by
    simp [Pipeline.waiting, empty, settled]
  refine ⟨(last.operator.constructBlock p time ready.pool.content).2,
    Operator.constructBlock_transactions _ _ _ _, ?_⟩
  rcases BlockChain.writeWith_cases p
      (Operator.buffersDeletions_removeInputs true) signer true
      last.operator.chain
      (last.operator.constructBlock p time ready.pool.content).2
      tracked.steady.run.idle with
    ⟨_, _, _, refused⟩ | ⟨_, outcome, _, _⟩
  · exact absurd ⟨verdict, rfl⟩ refused
  · have written := congrArg Prod.snd outcome
    have events := congrArg (fun out => committedBlocks out.1) outcome
    simp only [Pipeline.step]
    rw [write_of_ok head idle written, Operator.sealWrite, events]
    rfl

end Pipeline

namespace Sample

/-- The payment is accepted. -/
def paymentMoves : List PipelineMove :=
  [.depositEvent now true 1 alice 0 5, .add spend]

def offered : Pipeline × List PipelineReport :=
  execute (Pipeline.step primitives signer) (Pipeline.start operator)
    paymentMoves

/-- The payment is copied twice and offered again. -/
def copied : Pipeline × List PipelineReport :=
  execute (Pipeline.step primitives signer) offered.1
    [.tick, .tick, .add spend]

theorem header_of_spendHash {header : Header}
    (same : primitives.headerHash header = spendHash) :
    header = spendBlock.header := by
  have found : ∃ entry ∈ headerHashes, entry.1 = header ∧
      entry.2 = spendHash := by
    simp only [primitives, lookup] at same
    cases looked : headerHashes.find? fun entry => entry.1 = header with
    | none =>
        rw [looked] at same
        exact absurd same (by decide)
    | some entry =>
        rw [looked] at same
        refine ⟨entry, List.mem_of_find?_eq_some looked, ?_, same⟩
        simpa using List.find?_some looked
  obtain ⟨entry, member, rfl, hash⟩ := found
  revert entry
  decide

end Sample

/-- The payment is sealed by the write after the ticks. -/
theorem payment_is_sealed :
    ∃ block, block.transactions = Sample.offered.1.pool.content ∧
      entries (Pipeline.step Sample.primitives Sample.signer Sample.copied.1
        (.write Sample.now true false)).2 =
          [.child Sample.copied.1.utxoSet block] := by
  have reached : Sample.offered.1.waiting = true ∧
      Sample.offered.1.txsCh = [] ∧ Sample.offered.1.pool.content ≠ [] ∧
      UtxoBlockValidator.validateTx Sample.primitives Sample.signer
        Sample.offered.1.utxoSet.reader Sample.offered.1.pool.content =
          .ok () ∧
      (Sample.copied.1.operator.constructBlock Sample.primitives Sample.now
        Sample.offered.1.pool.content).2 = Sample.spendBlock := by
    decide +kernel
  obtain ⟨waiting, drained, filled, sealable, block⟩ := reached
  have admitted : Pipeline.Admitted
      (Sample.paymentMoves ++ (.tick :: [.tick, .add Sample.spend]) ++
        [.write Sample.now true false]) := ⟨by decide, by decide, by decide⟩
  apply Pipeline.sealable_pool_is_sealed Sample.primitives Sample.signer
    Sample.operatorAddr Sample.started admitted
  · exact (Prod.mk.eta : (Sample.offered.1, Sample.offered.2) =
      Sample.offered).symm
  · exact waiting
  · exact drained
  · exact filled
  · exact sealable
  · exact (Prod.mk.eta : (Sample.copied.1, Sample.copied.2) =
      Sample.copied).symm
  · simp
  · rw [block]
    intro header same
    exact Sample.header_of_spendHash same

end Plasma.Core
