import Plasma.Core.Holdings
import Plasma.Core.PoolContent
import Plasma.Core.Spending

/-!
# The sealing pipeline

One goroutine of the operator puts a copy of the pool into a channel at every
tick, a second one takes the copies and seals them.  Between the write of a
block and the removal of its transactions the pool is filled and copied again,
so a copy in the channel can be out of date when its turn comes.
-/

namespace Plasma.Core

open Plasma.Lib Plasma.Store

/-- The operator, the copies in the channel and what `Seal` has left to do
after a write. -/
structure Pipeline where
  operator : Operator
  txsCh : List (List Transaction)
  removing : List Transaction
  submitting : Option Block

inductive PipelineMove where
  | add (tx : Transaction)
  | tick
  | write (time : Int) (disk raced : Bool)
  | remove
  | submit (accepted : Bool)
  | depositEvent (time : Int) (disk : Bool) (number : Int)
      (depositor token : Address) (amount : Int)
deriving DecidableEq, Repr

/-- What a move did: a transaction the pool took, a block handed to
`WriteBlock`, what was written, and a block the root chain took. -/
inductive PipelineReport where
  | accepted (tx : Transaction)
  | called (call : OperatorStep)
  | wrote (entry : Written)
  | submitted (block : Block)

def txsChCapacity : Nat := 10

namespace Pipeline

def pool (s : Pipeline) : TxPool := s.operator.txPool

def utxoSet (s : Pipeline) : UtxoSet := s.operator.chain.utxoSet

def withPool (s : Pipeline) (pool : TxPool) : Pipeline :=
  { s with operator := { s.operator with txPool := pool } }

/-- `processTxs` is between two copies. -/
def waiting (s : Pipeline) : Bool :=
  s.removing.isEmpty && s.submitting.isNone

/-- The copies that are not written yet: those in the channel, one that is held
back, and one that `processTxs` may have taken between two blocks. -/
def room (s : Pipeline) : Nat :=
  if s.waiting then txsChCapacity + 2 else txsChCapacity + 1

/-- A copy that finds the channel full is held back until there is room, and
no other one is made before. -/
def tick (s : Pipeline) : Pipeline :=
  let txs := s.pool.content
  if txs.isEmpty then s
  else if s.txsCh.length < s.room then
    { s with txsCh := s.txsCh ++ [txs] }
  else s

section

variable (p : Primitives) (signer : EIP155Signer)

/-- `addTx`, and one pass of the loop of `addTxsLocked`. -/
def add (s : Pipeline) (tx : Transaction) : Pipeline × List PipelineReport :=
  match s.pool.add p signer (Rawdb.readUTXO s.operator.chain.db) tx with
  | (pool, .error _) => (s.withPool pool, [])
  | (pool, .ok _) => (s.withPool pool, [.accepted tx])

/-- `Seal` up to the write of its block.  `raced` says that another writer has
a database transaction open. -/
def write (time : Int) (disk raced : Bool) (s : Pipeline) :
    Pipeline × List PipelineReport :=
  match s.txsCh with
  | [] => (s, [])
  | txs :: rest =>
      if s.waiting then
        let call := OperatorStep.sealTxs time disk false txs
        let (o, block) := s.operator.constructBlock p time txs
        if raced then
          ({ s with operator := o, txsCh := rest }, [.called call])
        else
          match o.writeBlock p signer disk block with
          | (o, events, .error _) =>
              ({ s with operator := o, txsCh := rest },
                .called call :: (committedBlocks events).map fun block =>
                  .wrote (.child s.utxoSet block))
          | (o, events, .ok _) =>
              ({ operator := o
                 txsCh := rest
                 removing := block.transactions
                 submitting := some block },
                .called call :: (committedBlocks events).map fun block =>
                  .wrote (.child s.utxoSet block))
      else (s, [])

/-- One pass of the loop of `Seal` over the written transactions. -/
def remove (s : Pipeline) : Pipeline :=
  match s.removing with
  | [] => s
  | tx :: rest =>
      { s.withPool (s.pool.removeTx p (p.txHash tx)) with removing := rest }

/-- The end of `Seal`. -/
def submit (accepted : Bool) (s : Pipeline) :
    Pipeline × List PipelineReport :=
  match s.submitting with
  | none => (s, [])
  | some block =>
      if s.removing.isEmpty then
        ({ s with submitting := none },
          if accepted then [.submitted block] else [])
      else (s, [])

def depositEvent (time : Int) (disk : Bool) (number : Int)
    (depositor token : Address) (amount : Int) (s : Pipeline) :
    Pipeline × List PipelineReport :=
  let (o, events, _) := s.operator.handleDepositEvent p signer time disk number
    depositor token amount
  ({ s with operator := o },
    .called (.depositEvent time disk number depositor token amount) ::
      (committedBlocks events).map fun _ =>
        .wrote (.deposit number depositor amount))

def step (s : Pipeline) : PipelineMove → Pipeline × List PipelineReport
  | .add tx => s.add p signer tx
  | .tick => (s.tick, [])
  | .write time disk raced => s.write p signer time disk raced
  | .remove => (s.remove p, [])
  | .submit accepted => s.submit accepted
  | .depositEvent time disk number depositor token amount =>
      s.depositEvent p signer time disk number depositor token amount

end

/-- An operator that has just been started. -/
def start (operator : Operator) : Pipeline := ⟨operator, [], [], none⟩

section Seal

variable {p : Primitives} {signer : EIP155Signer} {s : Pipeline}
  {txs : List Transaction} {rest : List (List Transaction)}

/-- The operator after the write of a sealed block. -/
def sealing (p : Primitives) (signer : EIP155Signer) (s : Pipeline)
    (time : Int) (disk : Bool) (txs : List Transaction) : Operator :=
  { s.operator with
    currentChildBlock := s.operator.currentChildBlock + childBlockInterval
    chain := (s.operator.sealWrite p signer time disk txs).1 }

theorem writeBlock_constructBlock (p : Primitives) (signer : EIP155Signer)
    (s : Pipeline) (time : Int) (disk : Bool) (txs : List Transaction) :
    (s.operator.constructBlock p time txs).1.writeBlock p signer disk
        (s.operator.constructBlock p time txs).2 =
      (s.sealing p signer time disk txs,
        (s.operator.sealWrite p signer time disk txs).2) := by
  simp only [Operator.writeBlock, sealing, Operator.sealWrite,
    Operator.constructBlock]

theorem write_of_error (head : s.txsCh = txs :: rest)
    (waiting : s.waiting = true) {time : Int} {disk : Bool}
    {failure : WriteError}
    (failed : (s.operator.sealWrite p signer time disk txs).2.2 =
      .error failure) :
    s.write p signer time disk false =
      ({ s with operator := s.sealing p signer time disk txs, txsCh := rest },
        .called (.sealTxs time disk false txs) ::
          (committedBlocks
            (s.operator.sealWrite p signer time disk txs).2.1).map
              fun block => .wrote (.child s.utxoSet block)) := by
  unfold write
  rw [head]
  dsimp only
  rw [if_pos waiting, if_neg Bool.false_ne_true,
    writeBlock_constructBlock]
  split
  · rename_i result
    rw [Prod.mk.injEq] at result
    rw [result.1, result.2]
  · rename_i result
    rw [(Prod.mk.inj result).2] at failed
    cases failed

theorem write_of_ok (head : s.txsCh = txs :: rest)
    (waiting : s.waiting = true) {time : Int} {disk : Bool}
    (written : (s.operator.sealWrite p signer time disk txs).2.2 = .ok ()) :
    s.write p signer time disk false =
      ({ operator := s.sealing p signer time disk txs
         txsCh := rest
         removing := txs
         submitting := some (s.operator.constructBlock p time txs).2 },
        .called (.sealTxs time disk false txs) ::
          (committedBlocks
            (s.operator.sealWrite p signer time disk txs).2.1).map
              fun block => .wrote (.child s.utxoSet block)) := by
  unfold write
  rw [head]
  dsimp only
  rw [if_pos waiting, if_neg Bool.false_ne_true,
    writeBlock_constructBlock]
  split
  · rename_i result
    rw [(Prod.mk.inj result).2] at written
    cases written
  · rename_i result
    rw [Prod.mk.injEq] at result
    rw [Operator.constructBlock_transactions, result.1, result.2]

theorem execute_remove (p : Primitives) (signer : EIP155Signer)
    (s : Pipeline) :
    execute (step p signer) s (.replicate s.removing.length .remove) =
      ({ s.withPool (s.removing.foldl
          (fun pool tx => pool.removeTx p (p.txHash tx)) s.pool) with
        removing := [] }, []) := by
  obtain ⟨operator, txsCh, removing, submitting⟩ := s
  induction removing generalizing operator with
  | nil => rfl
  | cons tx removing induction =>
      rw [List.length_cons, List.replicate_succ, execute_cons]
      simp only [step, remove, withPool]
      rw [induction]
      rfl

theorem execute_idle_remove (count : Nat) (empty : s.removing = []) :
    execute (step p signer) s (.replicate count .remove) = (s, []) := by
  induction count with
  | zero => rfl
  | succ count induction =>
      have still : step p signer s .remove = (s, []) := by
        simp only [step, remove, empty]
      rw [List.replicate_succ, execute_cons, still]
      exact induction

/-- Without other moves in between the passes are one call of `Seal`. -/
theorem execute_seal (head : s.txsCh = txs :: rest)
    (waiting : s.waiting = true) (time : Int) (disk submits : Bool) :
    (execute (step p signer) s (.write time disk false ::
        (.replicate txs.length .remove ++ [.submit submits]))).1 =
      { operator := (s.operator.sealTxs p signer time disk submits txs).1
        txsCh := rest
        removing := []
        submitting := none } := by
  rw [execute_cons, execute_append]
  simp only [step]
  cases outcome : (s.operator.sealWrite p signer time disk txs).2.2 with
  | error failure =>
      have free : s.removing = [] ∧ s.submitting = none := by
        simpa [Pipeline.waiting] using waiting
      rw [write_of_error head waiting outcome,
        Operator.sealTxs_of_error p signer s.operator time disk submits txs
          outcome]
      rw [execute_idle_remove txs.length (by exact free.1)]
      simp [step, submit, free, sealing]
  | ok done =>
      rw [write_of_ok head waiting outcome,
        Operator.sealTxs_of_ok p signer s.operator time disk submits txs
          outcome, execute_remove]
      rfl

end Seal

end Pipeline

/-!
## What one move can do
-/

/-- What handing a block to `WriteBlock` does to the operator: it writes
nothing, or it writes the block. -/
structure Called (p : Primitives) (signer : EIP155Signer) (o next : Operator)
    (call : OperatorStep) (entries : List Written) : Prop where
  counter : next.currentChildBlock = o.currentChildBlock + call.advance
  pool : next.txPool = o.txPool
  cached : ∀ Ok : Hash → Block → Prop,
    BlockCache.Caches o.chain.blockCache Ok → o.chain.Reads p Ok →
      BlockCache.Caches next.chain.blockCache Ok
  effect :
    (next.chain.db = o.chain.db ∧ entries = []) ∨
      (next.chain.db = ⟨applyAll (o.chain.writeBatch p (call.block p o))
          o.chain.db.db, false, []⟩ ∧
        entries = [call.written p o] ∧
        o.chain.verdict p signer (call.block p o) = .ok ())

section Called

variable {p : Primitives} {signer : EIP155Signer}
  {past : List OperatorStep} {o next : Operator} {call : OperatorStep}
  {entries : List Written}

theorem Called.outcome (called : Called p signer o next call entries) :
    (next.chain.utxoSet = o.chain.utxoSet ∧ entries = []) ∨
      (next.chain.utxoSet =
          applyAll (call.block p o).changes o.chain.utxoSet ∧
        entries = [call.written p o] ∧
        o.chain.verdict p signer (call.block p o) = .ok ()) := by
  rcases called.effect with ⟨same, nothing⟩ | ⟨db, rest⟩
  · left
    exact ⟨congrArg (fun d : Database => Rawdb.utxos d.db) same, nothing⟩
  · right
    refine ⟨?_, rest⟩
    rw [← BlockChain.utxos_writeBatch p]
    exact congrArg (fun d : Database => Rawdb.utxos d.db) db

theorem Called.idle (called : Called p signer o next call entries)
    (idle : o.chain.db.Idle) : next.chain.db.Idle := by
  rcases called.effect with ⟨same, _⟩ | ⟨db, _⟩
  · rw [same]
    exact idle
  · rw [db]
    exact ⟨rfl, rfl⟩

theorem RunState.called (state : RunState past o)
    (admissible : Admissible (past ++ [call]))
    (called : Called p signer o next call entries) :
    RunState (past ++ [call]) next := by
  have few : (past ++ [call]).countP isSeal < 2 ^ 50 :=
    List.countP_le_length.trans_lt admissible.short
  rw [List.countP_append, List.countP_singleton] at few
  refine ⟨called.idle state.idle, ?_, ?_⟩
  · rw [called.counter, UInt64.toNat_add, state.counter, List.countP_append,
      List.countP_singleton]
    cases call with
    | sealTxs time disk submits txs =>
        have advanced : (OperatorStep.sealTxs time disk submits
            txs).advance.toNat = 1000 := rfl
        simp only [isSeal, if_true] at few ⊢
        omega
    | depositEvent time disk number depositor token amount =>
        have advanced : (OperatorStep.depositEvent time disk number depositor
            token amount).advance.toNat = 0 := rfl
        simp only [isSeal, Bool.false_eq_true, if_false] at few ⊢
        omega
  · intro id held
    rcases called.outcome with ⟨same, _⟩ | ⟨changed, _, verdict⟩
    · rw [same] at held
      exact (state.used id held).append call
    · rw [changed] at held
      obtain ⟨out, present⟩ := Option.ne_none_iff_exists'.mp held
      rcases mem_of_applyAll _ _ present with before | created
      · exact (state.used id (by simp [before])).append call
      · rw [Block.changes, putKeys_txsChanges] at created
        rw [blockNum_of_mem_outputIds created]
        exact used_of_verdict state admissible verdict

end Called

def PipelineMove.depositNumber? : PipelineMove → Option Int
  | .depositEvent _ _ number _ _ _ => some number
  | _ => none

namespace Pipeline

section

variable (p : Primitives) (signer : EIP155Signer)

/-- The moves that change something, with what they report. -/
inductive Moved (s : Pipeline) :
    PipelineMove → Pipeline → List PipelineReport → Prop where
  | still {move : PipelineMove} (silent : move.depositNumber? = none) :
      Moved s move s []
  | added {tx : Transaction}
      (fresh : p.txHash tx ∉ s.pool.all.map Prod.fst)
      (valid : ValidTx p signer s.utxoSet.reader tx) :
      Moved s (.add tx)
        (s.withPool ⟨s.pool.queue ++ [tx],
          s.pool.all ++ [(p.txHash tx, tx)]⟩) [.accepted tx]
  | ticked :
      Moved s .tick { s with txsCh := s.txsCh ++ [s.pool.queue] } []
  | refused {time : Int} {disk raced : Bool} {txs : List Transaction}
      {rest : List (List Transaction)} {next : Operator}
      (head : s.txsCh = txs :: rest) (free : s.removing = [])
      (called : Called p signer s.operator next
        (.sealTxs time disk false txs) []) :
      Moved s (.write time disk raced)
        { s with operator := next, txsCh := rest }
        [.called (.sealTxs time disk false txs)]
  | wrote {time : Int} {disk raced : Bool} {txs : List Transaction}
      {rest : List (List Transaction)} {next : Operator}
      (head : s.txsCh = txs :: rest) (free : s.removing = [])
      (called : Called p signer s.operator next
        (.sealTxs time disk false txs)
          [.child s.utxoSet (s.operator.constructBlock p time txs).2]) :
      Moved s (.write time disk raced)
        ⟨next, rest, txs, some (s.operator.constructBlock p time txs).2⟩
        [.called (.sealTxs time disk false txs),
          .wrote (.child s.utxoSet (s.operator.constructBlock p time txs).2)]
  | removed {tx : Transaction} {rest : List Transaction}
      (head : s.removing = tx :: rest) :
      Moved s .remove
        { s.withPool (s.pool.removeTx p (p.txHash tx)) with
          removing := rest } []
  | submitted {accepted : Bool} {block : Block} (done : s.removing = []) :
      Moved s (.submit accepted) { s with submitting := none }
        (if accepted then [.submitted block] else [])
  | deposited {time : Int} {disk : Bool} {number : Int}
      {depositor token : Address} {amount : Int} {next : Operator}
      {entries : List Written}
      (called : Called p signer s.operator next
        (.depositEvent time disk number depositor token amount) entries) :
      Moved s (.depositEvent time disk number depositor token amount)
        { s with operator := next }
        (.called (.depositEvent time disk number depositor token amount) ::
          entries.map .wrote)

variable {s : Pipeline}

theorem called_sealing (idle : s.operator.chain.db.Idle) (time : Int)
    (disk : Bool) (txs : List Transaction) :
    ((∃ failure, (s.operator.sealWrite p signer time disk txs).2.2 =
          .error failure) ∧
        committedBlocks
          (s.operator.sealWrite p signer time disk txs).2.1 = [] ∧
        Called p signer s.operator (s.sealing p signer time disk txs)
          (.sealTxs time disk false txs) []) ∨
      ((s.operator.sealWrite p signer time disk txs).2.2 = .ok () ∧
        committedBlocks (s.operator.sealWrite p signer time disk txs).2.1 =
          [(s.operator.constructBlock p time txs).2] ∧
        Called p signer s.operator (s.sealing p signer time disk txs)
          (.sealTxs time disk false txs)
            [.child s.utxoSet (s.operator.constructBlock p time txs).2]) := by
  have buffers := Operator.buffersDeletions_removeInputs disk
  have cached : ∀ Ok : Hash → Block → Prop,
      BlockCache.Caches s.operator.chain.blockCache Ok →
        s.operator.chain.Reads p Ok → BlockCache.Caches
          (s.sealing p signer time disk txs).chain.blockCache Ok := by
    intro Ok caches reads
    exact BlockChain.writeWith_caches buffers signer disk idle caches reads _
  rcases BlockChain.writeWith_cases p buffers signer disk s.operator.chain
      (s.operator.constructBlock p time txs).2 idle with
    ⟨same, silent, failed, _⟩ | ⟨db, outcome, verdict, _⟩
  · left
    exact ⟨failed, silent, rfl, rfl, cached, .inl ⟨same, rfl⟩⟩
  · right
    have written := congrArg Prod.snd outcome
    have events := congrArg (fun out => committedBlocks out.1) outcome
    exact ⟨written, events, rfl, rfl, cached, .inr ⟨db, rfl, verdict⟩⟩

theorem called_raced (s : Pipeline) (time : Int) (disk : Bool)
    (txs : List Transaction) :
    Called p signer s.operator (s.operator.constructBlock p time txs).1
      (.sealTxs time disk false txs) [] := by
  simp only [Operator.constructBlock]
  exact ⟨rfl, rfl, fun _ caches _ => caches, .inl ⟨rfl, rfl⟩⟩

theorem called_depositEvent (idle : s.operator.chain.db.Idle) (time : Int)
    (disk : Bool) (number : Int) (depositor token : Address)
    (amount : Int) :
    Called p signer s.operator
      (s.operator.handleDepositEvent p signer time disk number depositor token
        amount).1
      (.depositEvent time disk number depositor token amount)
      ((committedBlocks (s.operator.handleDepositEvent p signer time disk
        number depositor token amount).2.1).map fun _ =>
          .deposit number depositor amount) := by
  have buffers := Operator.buffersDeletions_removeInputs disk
  refine ⟨(UInt64.add_zero _).symm, rfl, ?_, ?_⟩
  · intro Ok caches reads
    exact BlockChain.writeWith_caches buffers signer disk idle caches reads _
  · rcases BlockChain.writeWith_cases p buffers signer disk s.operator.chain
        (s.operator.constructDepositBlock p time number
          (Operator.depositTx depositor amount)) idle with
      ⟨same, silent, _⟩ | ⟨db, outcome, verdict, _⟩
    · exact .inl ⟨same, congrArg (List.map _) silent⟩
    · right
      refine ⟨db, ?_, verdict⟩
      exact congrArg (fun out : List NodeEvent × Except WriteError Unit =>
        (committedBlocks out.1).map fun _ =>
          Written.deposit number depositor amount) outcome

/-- One inversion for every move. -/
theorem moved_step (idle : s.operator.chain.db.Idle) (move : PipelineMove) :
    Moved p signer s move (step p signer s move).1
      (step p signer s move).2 := by
  cases move with
  | add tx =>
      simp only [step, add]
      rcases s.pool.add_cases signer
          (Rawdb.readUTXO s.operator.chain.db) tx with
        ⟨fresh, valid, taken⟩ | ⟨_, same, refused⟩
      · rw [taken]
        exact .added fresh valid
      · split
        · rename_i pool failure result
          rw [result] at same
          subst same
          exact .still rfl
        · rename_i result
          rw [result] at refused
          cases refused
  | tick =>
      simp only [step, tick]
      split
      · exact .still rfl
      · split
        · exact .ticked
        · exact .still rfl
  | write time disk raced =>
      simp only [step]
      cases head : s.txsCh with
      | nil =>
          simp only [write, head]
          exact .still rfl
      | cons txs rest =>
          cases waiting : s.waiting with
          | false =>
              simp only [write, head, waiting, Bool.false_eq_true, if_false]
              exact .still rfl
          | true =>
              have free : s.removing = [] ∧ s.submitting = none := by
                simpa [Pipeline.waiting] using waiting
              cases raced with
              | true =>
                  simp only [write, head, waiting, if_true]
                  exact .refused head free.1
                    (called_raced p signer s time disk txs)
              | false =>
                  rcases called_sealing p signer idle time disk txs with
                    ⟨⟨failure, failed⟩, silent, called⟩ |
                      ⟨written, events, called⟩
                  · rw [write_of_error head waiting failed, silent]
                    exact .refused head free.1 called
                  · rw [write_of_ok head waiting written, events]
                    exact .wrote head free.1 called
  | remove =>
      simp only [step, remove]
      cases head : s.removing with
      | nil => exact .still rfl
      | cons tx rest => exact .removed head
  | submit accepted =>
      simp only [step, submit]
      cases s.submitting with
      | none => exact .still rfl
      | some block =>
          dsimp only
          split
          · rename_i done
            exact .submitted (List.isEmpty_iff.mp done)
          · exact .still rfl
  | depositEvent time disk number depositor token amount =>
      have called := called_depositEvent p signer idle time disk number
        depositor token amount
      have moved := Moved.deposited called
      rw [List.map_map] at moved
      exact moved

end

end Pipeline

/-!
## Runs of the pipeline
-/

namespace PipelineReport

def accepted? : PipelineReport → Option Transaction
  | .accepted tx => some tx
  | _ => none

def called? : PipelineReport → Option OperatorStep
  | .called call => some call
  | _ => none

def wrote? : PipelineReport → Option Written
  | .wrote entry => some entry
  | _ => none

end PipelineReport

/-- The transactions the pool has taken. -/
def acceptedTxs (history : List PipelineReport) : List Transaction :=
  history.filterMap PipelineReport.accepted?

/-- The blocks handed to `WriteBlock`. -/
def callsOf (history : List PipelineReport) : List OperatorStep :=
  history.filterMap PipelineReport.called?

/-- What was written. -/
def entries (history : List PipelineReport) : List Written :=
  history.filterMap PipelineReport.wrote?

@[simp] theorem acceptedTxs_append (history later : List PipelineReport) :
    acceptedTxs (history ++ later) =
      acceptedTxs history ++ acceptedTxs later :=
  List.filterMap_append

@[simp] theorem callsOf_append (history later : List PipelineReport) :
    callsOf (history ++ later) = callsOf history ++ callsOf later :=
  List.filterMap_append

@[simp] theorem entries_append (history later : List PipelineReport) :
    entries (history ++ later) = entries history ++ entries later :=
  List.filterMap_append

theorem reports_called (call : OperatorStep) (written : List Written) :
    acceptedTxs (.called call :: written.map .wrote) = [] ∧
      callsOf (.called call :: written.map .wrote) = [call] ∧
      entries (.called call :: written.map .wrote) = written := by
  induction written with
  | nil => exact ⟨rfl, rfl, rfl⟩
  | cons entry written induction =>
      obtain ⟨none, one, rest⟩ := induction
      exact ⟨none, one, congrArg (entry :: ·) rest⟩

theorem reports_submitted (accepted : Bool) (block : Block) :
    acceptedTxs (if accepted then [.submitted block] else []) = [] ∧
      callsOf (if accepted then [.submitted block] else []) = [] ∧
      entries (if accepted then [.submitted block] else []) = [] := by
  cases accepted <;> exact ⟨rfl, rfl, rfl⟩

namespace PipelineMove

/-- The calls of `WriteBlock` a move can make. -/
def Makes (s : Pipeline) : PipelineMove → OperatorStep → Prop
  | .write time disk _, call =>
      ∃ txs ∈ s.txsCh, call = .sealTxs time disk false txs
  | .depositEvent time disk number depositor token amount, call =>
      call = .depositEvent time disk number depositor token amount
  | _, _ => False

/-- A deposit event has a number of the contract and no negative amount. -/
def Bounded : PipelineMove → Prop
  | .depositEvent _ _ number _ _ amount =>
      1 ≤ number ∧ ¬ (1000 ∣ number) ∧ 0 ≤ amount
  | _ => True

instance : DecidablePred Bounded
  | .depositEvent _ _ number _ _ amount =>
      inferInstanceAs
        (Decidable (1 ≤ number ∧ ¬ (1000 ∣ number) ∧ 0 ≤ amount))
  | .add _ | .tick | .write _ _ _ | .remove | .submit _ => .isTrue trivial

end PipelineMove

namespace Pipeline

/-- What a move does to the chain and the counter. -/
theorem Moved.chain {p : Primitives} {signer : EIP155Signer}
    {s next : Pipeline} {move : PipelineMove} {reports : List PipelineReport}
    (moved : Moved p signer s move next reports) :
    (next.operator.chain = s.operator.chain ∧
        next.operator.currentChildBlock = s.operator.currentChildBlock ∧
        callsOf reports = [] ∧ entries reports = [] ∧
        move.depositNumber? = none) ∨
      ∃ call, callsOf reports = [call] ∧ move.Makes s call ∧
        Called p signer s.operator next.operator call (entries reports) := by
  cases moved with
  | still silent => exact .inl ⟨rfl, rfl, rfl, rfl, silent⟩
  | added fresh valid => exact .inl ⟨rfl, rfl, rfl, rfl, rfl⟩
  | ticked => exact .inl ⟨rfl, rfl, rfl, rfl, rfl⟩
  | refused head free called =>
      exact .inr ⟨_, rfl, ⟨_, by simp [head], rfl⟩, called⟩
  | wrote head free called =>
      exact .inr ⟨_, rfl, ⟨_, by simp [head], rfl⟩, called⟩
  | removed head => exact .inl ⟨rfl, rfl, rfl, rfl, rfl⟩
  | submitted done =>
      obtain ⟨_, silent, nothing⟩ := reports_submitted _ _
      exact .inl ⟨rfl, rfl, silent, nothing, rfl⟩
  | deposited called =>
      obtain ⟨_, one, written⟩ := reports_called _ _
      refine .inr ⟨_, one, rfl, ?_⟩
      rw [written]
      exact called

/-- The numbers of the deposit events among the moves. -/
def depositNumbers (moves : List PipelineMove) : List Int :=
  moves.filterMap PipelineMove.depositNumber?

/-- The runs considered: the deposit numbers are those of a contract and
different as 64-bit numbers. -/
structure Admitted (moves : List PipelineMove) : Prop where
  short : moves.length < 2 ^ 32
  bounded : ∀ move ∈ moves, move.Bounded
  distinct : ((depositNumbers moves).map uint64).Nodup

theorem Admitted.of_append {moves later : List PipelineMove}
    (admitted : Admitted (moves ++ later)) : Admitted moves := by
  obtain ⟨short, bounded, distinct⟩ := admitted
  refine ⟨?_, ?_, ?_⟩
  · rw [List.length_append] at short
    omega
  · intro move member
    exact bounded move (List.mem_append_left _ member)
  · rw [depositNumbers, List.filterMap_append, List.map_append] at distinct
    exact distinct.of_append_left

/-- What every state of a run keeps: the calls made so far are a run of the
operator, and no copy is longer than the run. -/
structure Steady (moves : List PipelineMove) (s : Pipeline)
    (history : List PipelineReport) : Prop where
  run : RunState (callsOf history) s.operator
  deposits : Core.depositNumbers (callsOf history) = depositNumbers moves
  few : (callsOf history).length ≤ moves.length
  bounded : ∀ call ∈ callsOf history, call.Bounded
  queued : s.pool.queue.length ≤ moves.length
  copied : ∀ txs ∈ s.txsCh, txs.length ≤ moves.length

theorem length_removeTx_le (p : Primitives) (pool : TxPool) (hash : Hash) :
    (pool.removeTx p hash).queue.length ≤ pool.queue.length := by
  unfold TxPool.removeTx
  split
  · exact le_refl _
  · dsimp only
    split
    · exact le_refl _
    · unfold TxPool.removeAt
      split
      · exact le_refl _
      · simp

section Steady

variable {p : Primitives} {signer : EIP155Signer} {s next : Pipeline}
  {moves : List PipelineMove} {move : PipelineMove}
  {history reports : List PipelineReport}

/-- A call a move makes keeps the calls so far within the bounds. -/
theorem Steady.admissible (steady : Steady moves s history)
    (admitted : Admitted (moves ++ [move])) {call : OperatorStep}
    (makes : move.Makes s call) :
    Admissible (callsOf history ++ [call]) ∧ call.Bounded ∧
      Core.depositNumbers (callsOf history ++ [call]) =
        depositNumbers (moves ++ [move]) := by
  have few := steady.few
  have short := admitted.short
  rw [List.length_append, List.length_singleton] at short
  have same : call.depositNumber? = move.depositNumber? := by
    cases move with
    | write time disk raced =>
        obtain ⟨txs, _, rfl⟩ := makes
        rfl
    | depositEvent time disk number depositor token amount =>
        cases makes
        rfl
    | _ => exact makes.elim
  have numbers : Core.depositNumbers (callsOf history ++ [call]) =
      depositNumbers (moves ++ [move]) := by
    rw [Core.depositNumbers, depositNumbers, List.filterMap_append,
      List.filterMap_append]
    have before := steady.deposits
    rw [Core.depositNumbers, depositNumbers] at before
    rw [before]
    simp only [List.filterMap_cons, List.filterMap_nil, same]
  have bounded : call.Bounded := by
    cases move with
    | write time disk raced =>
        obtain ⟨txs, member, rfl⟩ := makes
        have length := steady.copied txs member
        exact (show txs.length < 2 ^ 32 by omega)
    | depositEvent time disk number depositor token amount =>
        cases makes
        exact admitted.bounded
          (.depositEvent time disk number depositor token amount) (by simp)
    | _ => exact makes.elim
  refine ⟨⟨?_, ?_, ?_⟩, bounded, numbers⟩
  · rw [List.length_append, List.length_singleton]
    omega
  · intro other member
    rcases List.mem_append.mp member with earlier | last
    · exact steady.bounded other earlier
    · rw [List.mem_singleton] at last
      rwa [last]
  · rw [numbers]
    exact admitted.distinct

/-- No move makes a copy or the queue longer than the run. -/
theorem Moved.lengths (moved : Moved p signer s move next reports)
    (queued : s.pool.queue.length ≤ moves.length)
    (copied : ∀ txs ∈ s.txsCh, txs.length ≤ moves.length) :
    next.pool.queue.length ≤ (moves ++ [move]).length ∧
      ∀ txs ∈ next.txsCh, txs.length ≤ (moves ++ [move]).length := by
  rw [List.length_append, List.length_singleton]
  have longer : ∀ txs ∈ s.txsCh, txs.length ≤ moves.length + 1 := by
    intro txs member
    exact (copied txs member).trans (Nat.le_succ _)
  cases moved with
  | still silent => exact ⟨queued.trans (Nat.le_succ _), longer⟩
  | added fresh valid =>
      refine ⟨?_, longer⟩
      simp only [pool, withPool, List.length_append, List.length_singleton]
      exact Nat.succ_le_succ queued
  | ticked =>
      refine ⟨queued.trans (Nat.le_succ _), ?_⟩
      intro txs member
      rcases List.mem_append.mp member with earlier | last
      · exact longer txs earlier
      · rw [List.mem_singleton.mp last]
        exact queued.trans (Nat.le_succ _)
  | refused head free called =>
      refine ⟨?_, ?_⟩
      · rw [pool, called.pool]
        exact queued.trans (Nat.le_succ _)
      · intro txs member
        exact longer txs (by rw [head]; exact List.mem_cons_of_mem _ member)
  | wrote head free called =>
      refine ⟨?_, ?_⟩
      · rw [pool, called.pool]
        exact queued.trans (Nat.le_succ _)
      · intro txs member
        exact longer txs (by rw [head]; exact List.mem_cons_of_mem _ member)
  | removed head =>
      refine ⟨?_, longer⟩
      exact (length_removeTx_le p _ _).trans (queued.trans (Nat.le_succ _))
  | submitted done => exact ⟨queued.trans (Nat.le_succ _), longer⟩
  | deposited called =>
      refine ⟨?_, longer⟩
      rw [pool, called.pool]
      exact queued.trans (Nat.le_succ _)

theorem Steady.step (steady : Steady moves s history)
    (admitted : Admitted (moves ++ [move])) :
    Steady (moves ++ [move]) (Pipeline.step p signer s move).1
      (history ++ (Pipeline.step p signer s move).2) := by
  have moved := moved_step p signer steady.run.idle move
  obtain ⟨queued, copied⟩ := moved.lengths steady.queued steady.copied
  rcases moved.chain with
    ⟨chain, counter, silent, _, deposit⟩ | ⟨call, one, makes, called⟩
  · refine ⟨?_, ?_, ?_, ?_, queued, copied⟩
    · rw [callsOf_append, silent, List.append_nil]
      refine ⟨?_, ?_, ?_⟩
      · rw [chain]
        exact steady.run.idle
      · rw [counter]
        exact steady.run.counter
      · rw [chain]
        exact steady.run.used
    · rw [callsOf_append, silent, List.append_nil, steady.deposits,
        depositNumbers, depositNumbers, List.filterMap_append]
      simp only [List.filterMap_cons, List.filterMap_nil, deposit,
        List.append_nil]
    · rw [callsOf_append, silent, List.append_nil, List.length_append]
      exact steady.few.trans (Nat.le_add_right _ _)
    · rw [callsOf_append, silent, List.append_nil]
      exact steady.bounded
  · obtain ⟨admissible, bounded, numbers⟩ := steady.admissible admitted makes
    refine ⟨?_, ?_, ?_, ?_, queued, copied⟩
    · rw [callsOf_append, one]
      exact steady.run.called admissible called
    · rw [callsOf_append, one]
      exact numbers
    · rw [callsOf_append, one, List.length_append, List.length_append]
      exact Nat.add_le_add_right steady.few 1
    · rw [callsOf_append, one]
      exact admissible.bounded

end Steady

end Pipeline

end Plasma.Core
