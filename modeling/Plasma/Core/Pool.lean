import Plasma.Core.BlockOrder
import Plasma.Core.Encoding

/-!
# The transaction pool and its journal

A transaction is validated on its own when it enters the pool.  Local
transactions are also written to a journal, which `NewTxPool` loads and then
replaces by the transactions of local accounts.  File operations succeed; an
entry of the file stands for the encoding of a transaction.
-/

namespace Plasma.Core

open Plasma.Lib Plasma.Store

inductive PoolError where
  | knownTransaction (hash : Hash)
  | invalid (failure : TxError)
deriving DecidableEq, Repr

namespace TxPool

def empty : TxPool := ⟨[], []⟩

def content (pool : TxPool) : List Transaction := pool.queue

def get (pool : TxPool) (hash : Hash) : Option Transaction :=
  (pool.all.find? fun entry => entry.1 == hash).map Prod.snd

variable (p : Primitives)

def enqueueTx (pool : TxPool) (hash : Hash) (tx : Transaction) : TxPool :=
  { queue := pool.queue ++ [tx]
    all :=
      if (pool.get hash).isNone then pool.all ++ [(p.txHash tx, tx)]
      else pool.all }

/-- A full pool takes further transactions as well. -/
def add (signer : EIP155Signer) (reader : UtxoReader) (pool : TxPool)
    (tx : Transaction) : TxPool × Except PoolError Unit :=
  let hash := p.txHash tx
  if (pool.get hash).isSome then (pool, .error (.knownTransaction hash))
  else
    match UtxoTxValidator.validate p signer reader tx with
    | .error failure => (pool, .error (.invalid failure))
    | .ok _ => (pool.enqueueTx p hash tx, .ok ())

/-- `add` when the validator gives the verdict. -/
def addWith (verdict : Except TxError Unit) (pool : TxPool)
    (tx : Transaction) : TxPool × Except PoolError Unit :=
  let hash := p.txHash tx
  if (pool.get hash).isSome then (pool, .error (.knownTransaction hash))
  else
    match verdict with
    | .error failure => (pool, .error (.invalid failure))
    | .ok _ => (pool.enqueueTx p hash tx, .ok ())

theorem add_eq_addWith (signer : EIP155Signer) (reader : UtxoReader)
    (pool : TxPool) (tx : Transaction) :
    pool.add p signer reader tx =
      pool.addWith p (UtxoTxValidator.validate p signer reader tx) tx := rfl

end TxPool

structure TxPoolConfig where
  noLocals : Bool
  journal : String
deriving DecidableEq, Repr

/-- Where the journal writes: nowhere, to a device that discards everything, or
to the end of its file. -/
inductive JournalWriter where
  | closed
  | devNull
  | file
deriving DecidableEq, Repr

/-- An operator with its pool; the queue and the lookup of the pool are in the
operator.  The file is the one at the path of the configuration. -/
structure PoolNode where
  operator : Operator
  config : TxPoolConfig
  accounts : List Address
  journal : Option JournalWriter
  file : Option (List Transaction)

/-- What a call did: local transactions it took, blocks it wrote, and the start
of a new process. -/
inductive PoolReport where
  | accepted (tx : Transaction)
  | written (block : Block)
  | restarted
deriving DecidableEq, Repr

namespace PoolNode

def pool (node : PoolNode) : TxPool := node.operator.txPool

def reader (node : PoolNode) : UtxoReader :=
  Rawdb.readUTXO node.operator.chain.db

def utxoSet (node : PoolNode) : UtxoSet := node.operator.chain.utxoSet

def withPool (node : PoolNode) (pool : TxPool) : PoolNode :=
  { node with operator := { node.operator with txPool := pool } }

/-- A failed insertion is only logged. -/
def journalTx (node : PoolNode) (tx : Transaction) : PoolNode :=
  match node.journal with
  | none => node
  | some .closed => node
  | some .devNull => node
  | some .file =>
      match tx.encodeRLP with
      | none => node
      | some _ => { node with file := some (node.file.getD [] ++ [tx]) }

section

variable (p : Primitives) (signer : EIP155Signer)

def add (asLocal : Bool) (node : PoolNode) (tx : Transaction) :
    PoolNode × Except PoolError Unit :=
  match node.pool.add p signer node.reader tx with
  | (_, .error failure) => (node, .error failure)
  | (pool, .ok _) =>
      let node := node.withPool pool
      (if asLocal then node.journalTx tx else node, .ok ())

/-- Every transaction gets its own answer. -/
def addTxsLocked (asLocal : Bool) :
    PoolNode → List Transaction → PoolNode × List (Except PoolError Unit)
  | node, [] => (node, [])
  | node, tx :: rest =>
      let (node, result) := node.add p signer asLocal tx
      let (node, results) := addTxsLocked asLocal node rest
      (node, result :: results)

def addLocal (node : PoolNode) (tx : Transaction) :
    PoolNode × Except PoolError Unit :=
  node.add p signer (!node.config.noLocals) tx

def addLocals (node : PoolNode) (txs : List Transaction) :
    PoolNode × List (Except PoolError Unit) :=
  addTxsLocked p signer (!node.config.noLocals) node txs

def addRemote (node : PoolNode) (tx : Transaction) :
    PoolNode × Except PoolError Unit :=
  node.add p signer false tx

def addRemotes (node : PoolNode) (txs : List Transaction) :
    PoolNode × List (Except PoolError Unit) :=
  addTxsLocked p signer false node txs

def sealTxs (time : Int) (disk submits : Bool) (node : PoolNode)
    (txs : List Transaction) :
    PoolNode × List NodeEvent × Except OperatorError Unit :=
  let (operator, events, result) :=
    node.operator.sealTxs p signer time disk submits txs
  ({ node with operator := operator }, events, result)

/-- Append a transaction to the group of an account. -/
def appendTo (addr : Address) (tx : Transaction) :
    List (Address × List Transaction) → List (Address × List Transaction)
  | [] => [(addr, [tx])]
  | (other, txs) :: groups =>
      if other = addr then (other, txs ++ [tx]) :: groups
      else (other, txs) :: appendTo addr tx groups

/-- The queued transactions of local accounts, grouped by account. -/
def localTxs (node : PoolNode) : List (Address × List Transaction) :=
  node.pool.queue.foldl (fun groups tx =>
    match signer.sender p tx with
    | .error _ => groups
    | .ok (first, second) =>
        [first, second].foldl (fun groups addr =>
          if addr ∈ node.accounts then appendTo addr tx groups else groups)
          groups) []

/-- A transaction that cannot be encoded leaves the old file in place. -/
def rotate (node : PoolNode) (all : List (Address × List Transaction)) :
    PoolNode :=
  let txs := all.flatMap Prod.snd
  if txs.all fun tx => tx.encodeRLP.isSome then
    { node with file := some txs, journal := some .file }
  else { node with journal := some .closed }

/-- The loop over the file hands the transactions over in batches. -/
def loadLoop : List Transaction → List Transaction → PoolNode → PoolNode
  | batch, [], node =>
      if batch.length > 0 then (node.addLocals p signer batch).1 else node
  | batch, tx :: rest, node =>
      if (batch ++ [tx]).length > 1024 then
        loadLoop [] rest (node.addLocals p signer (batch ++ [tx])).1
      else loadLoop (batch ++ [tx]) rest node

/-- While the file is loaded, nothing is written to it. -/
def load (node : PoolNode) : PoolNode :=
  match node.file with
  | none => node
  | some txs =>
      let node :=
        loadLoop p signer [] txs { node with journal := some .devNull }
      { node with journal := some .closed }

def newTxPool (config : TxPoolConfig) (operator : Operator)
    (file : Option (List Transaction)) : PoolNode :=
  let node : PoolNode :=
    { operator := { operator with txPool := TxPool.empty }
      config := config
      accounts := []
      journal := none
      file := file }
  if !config.noLocals && config.journal != "" then
    let node := load p signer { node with journal := some .closed }
    node.rotate (node.localTxs p signer)
  else node

/-- A new process over the chain that was loaded from the database. -/
def restart (node : PoolNode) (chain : BlockChain) : PoolNode :=
  newTxPool p signer node.config
    (Operator.newOperator node.operator.addr chain TxPool.empty) node.file

end

end PoolNode

inductive PoolStep where
  | addLocal (tx : Transaction)
  | addLocals (txs : List Transaction)
  | addRemote (tx : Transaction)
  | addRemotes (txs : List Transaction)
  | sealTxs (time : Int) (disk submits : Bool) (txs : List Transaction)
deriving DecidableEq, Repr

namespace PoolStep

/-- The transactions a call offers to the pool. -/
def offered : PoolStep → List Transaction
  | .addLocal tx => [tx]
  | .addLocals txs => txs
  | .addRemote tx => [tx]
  | .addRemotes txs => txs
  | .sealTxs .. => []

end PoolStep

/-- The offered transactions that got no error. -/
def acceptedOf (txs : List Transaction)
    (results : List (Except PoolError Unit)) : List Transaction :=
  ((txs.zip results).filter fun entry => entry.2.isOk).map Prod.fst

namespace PoolNode

section

variable (p : Primitives) (signer : EIP155Signer)

def perform (node : PoolNode) : PoolStep → PoolNode × List PoolReport
  | .addLocal tx =>
      let (next, result) := node.addLocal p signer tx
      (next, (acceptedOf [tx] [result]).map .accepted)
  | .addLocals txs =>
      let (next, results) := node.addLocals p signer txs
      (next, (acceptedOf txs results).map .accepted)
  | .addRemote tx => ((node.addRemote p signer tx).1, [])
  | .addRemotes txs => ((node.addRemotes p signer txs).1, [])
  | .sealTxs time disk submits txs =>
      let (next, events, _) := node.sealTxs p signer time disk submits txs
      (next, (committedBlocks events).map .written)

end

end PoolNode

/-!
## The lookup and the queue
-/

namespace TxPool

variable {p : Primitives}

theorem get_isSome_iff {pool : TxPool} {hash : Hash} :
    (pool.get hash).isSome = true ↔ hash ∈ pool.all.map Prod.fst := by
  simp only [get, Option.isSome_map, List.find?_isSome, List.mem_map,
    beq_iff_eq]

theorem get_isNone_iff {pool : TxPool} {hash : Hash} :
    (pool.get hash).isNone = true ↔ hash ∉ pool.all.map Prod.fst := by
  rw [← get_isSome_iff, Option.isNone_iff_eq_none, Option.isSome_iff_ne_none,
    ne_eq, not_not]

/-- The lookup knows the hashes of the queue, and these are different. -/
structure Consistent (p : Primitives) (pool : TxPool) : Prop where
  once : (pool.queue.map p.txHash).Nodup
  known : ∀ hash, hash ∈ pool.all.map Prod.fst ↔
    hash ∈ pool.queue.map p.txHash

theorem consistent_empty : empty.Consistent p := by
  refine ⟨List.nodup_nil, ?_⟩
  intro hash
  exact Iff.rfl

/-- A transaction the pool takes is the last of its queue; one it refuses
leaves no trace. -/
theorem addWith_cases (verdict : Except TxError Unit) (pool : TxPool)
    (tx : Transaction) :
    (p.txHash tx ∉ pool.all.map Prod.fst ∧ verdict = .ok () ∧
        pool.addWith p verdict tx =
          (⟨pool.queue ++ [tx], pool.all ++ [(p.txHash tx, tx)]⟩, .ok ())) ∨
      ((p.txHash tx ∈ pool.all.map Prod.fst ∨ verdict ≠ .ok ()) ∧
        ∃ failure, pool.addWith p verdict tx = (pool, .error failure)) := by
  by_cases known : p.txHash tx ∈ pool.all.map Prod.fst
  · right
    refine ⟨.inl known, .knownTransaction (p.txHash tx), ?_⟩
    simp only [addWith, get_isSome_iff.mpr known, if_true]
  · have fresh := get_isNone_iff.mpr known
    have absent : (pool.get (p.txHash tx)).isSome = false := by
      rw [← Option.not_isNone, fresh]
      rfl
    cases verdict with
    | error failure =>
        right
        refine ⟨.inr (by simp), .invalid failure, ?_⟩
        simp only [addWith, absent, Bool.false_eq_true, if_false]
    | ok accepted =>
        left
        refine ⟨known, rfl, ?_⟩
        simp only [addWith, absent, enqueueTx, fresh, if_true,
          Bool.false_eq_true, if_false]

theorem add_cases (signer : EIP155Signer) (reader : UtxoReader)
    (pool : TxPool) (tx : Transaction) :
    (p.txHash tx ∉ pool.all.map Prod.fst ∧ ValidTx p signer reader tx ∧
        pool.add p signer reader tx =
          (⟨pool.queue ++ [tx], pool.all ++ [(p.txHash tx, tx)]⟩, .ok ())) ∨
      ((p.txHash tx ∈ pool.all.map Prod.fst ∨ ¬ ValidTx p signer reader tx) ∧
        (pool.add p signer reader tx).1 = pool ∧
        (pool.add p signer reader tx).2.isOk = false) := by
  have valid := UtxoTxValidator.validate_ok_iff p signer reader tx
  rw [add_eq_addWith]
  rcases pool.addWith_cases (p := p)
      (UtxoTxValidator.validate p signer reader tx) tx with
    ⟨fresh, accepted, taken⟩ | ⟨reason, failure, refused⟩
  · exact .inl ⟨fresh, valid.mp accepted, taken⟩
  · rw [refused]
    refine .inr ⟨?_, rfl, rfl⟩
    rcases reason with known | rejected
    · exact .inl known
    · exact .inr fun passes => rejected (valid.mpr passes)

theorem Consistent.add {pool : TxPool} (consistent : pool.Consistent p)
    (signer : EIP155Signer) (reader : UtxoReader) (tx : Transaction) :
    (pool.add p signer reader tx).1.Consistent p := by
  rcases pool.add_cases signer reader tx with
    ⟨fresh, _, taken⟩ | ⟨_, same, _⟩
  · rw [taken]
    constructor
    · rw [List.map_append, List.nodup_append]
      refine ⟨consistent.once, List.nodup_singleton _, ?_⟩
      intro hash member other last same
      rw [List.map_singleton, List.mem_singleton] at last
      rw [consistent.known, ← last, ← same] at fresh
      exact fresh member
    · intro hash
      simp only [List.map_append, List.mem_append, consistent.known,
        List.map_singleton]
  · rw [same]
    exact consistent

/-- The pool after a batch of transactions. -/
def addAll (p : Primitives) (signer : EIP155Signer) (reader : UtxoReader)
    (pool : TxPool) (txs : List Transaction) : TxPool :=
  txs.foldl (fun pool tx => (pool.add p signer reader tx).1) pool

theorem Consistent.addAll {pool : TxPool} (consistent : pool.Consistent p)
    (signer : EIP155Signer) (reader : UtxoReader) (txs : List Transaction) :
    (pool.addAll p signer reader txs).Consistent p := by
  induction txs generalizing pool with
  | nil => exact consistent
  | cons tx txs induction => exact induction (consistent.add signer reader tx)

/-- Adding keeps what is queued. -/
theorem prefix_addAll (signer : EIP155Signer) (reader : UtxoReader)
    (pool : TxPool) (txs : List Transaction) :
    pool.queue <+: (pool.addAll p signer reader txs).queue := by
  induction txs generalizing pool with
  | nil => exact List.prefix_refl _
  | cons tx txs induction =>
      have first : pool.queue <+: (pool.add p signer reader tx).1.queue := by
        rcases pool.add_cases signer reader tx with
          ⟨_, _, taken⟩ | ⟨_, same, _⟩
        · rw [taken]
          exact List.prefix_append _ _
        · rw [same]
      exact first.trans (induction _)

theorem removeAt_perm (queue : List Transaction) {index : Nat}
    (inside : index < queue.length) :
    (removeAt queue index).Perm (queue.eraseIdx index) := by
  rcases List.eq_nil_or_concat queue with rfl | ⟨init, last, rfl⟩
  · cases inside
  · simp only [removeAt, List.concat_eq_append, List.getLast?_concat]
    simp only [List.concat_eq_append, List.length_append,
      List.length_singleton] at inside
    by_cases final : index = init.length
    · subst final
      simp [List.eraseIdx_append_of_length_le]
    · have early : index < init.length := by omega
      rw [List.set_append_left _ _ early, List.dropLast_concat,
        List.eraseIdx_append_of_lt_length early]
      exact (List.set_perm_cons_eraseIdx early last).trans
        (List.perm_append_singleton _ _).symm

private theorem eraseP_eq_filter {queue : List Transaction} {hash : Hash}
    (once : (queue.map p.txHash).Nodup) :
    queue.eraseP (fun tx => p.txHash tx == hash) =
      queue.filter fun tx => p.txHash tx != hash := by
  induction queue with
  | nil => rfl
  | cons tx queue induction =>
      rw [List.map_cons, List.nodup_cons] at once
      by_cases same : p.txHash tx = hash
      · have others : ∀ other ∈ queue, (p.txHash other != hash) = true := by
          intro other member
          rw [bne_iff_ne]
          rintro equal
          rw [same, ← equal] at once
          exact once.1 (List.mem_map_of_mem member)
        rw [List.eraseP_cons_of_pos (by simpa using same),
          List.filter_cons_of_neg (by simpa using same),
          List.filter_eq_self.mpr others]
      · rw [List.eraseP_cons_of_neg (by simpa using same),
          List.filter_cons_of_pos (by simpa using same), induction once.2]

/-- Removing by hash keeps the other transactions, in some order. -/
theorem Consistent.removeTx {pool : TxPool} (consistent : pool.Consistent p)
    (hash : Hash) :
    (pool.removeTx p hash).Consistent p ∧
      (pool.removeTx p hash).queue.Perm
        (pool.queue.filter fun tx => p.txHash tx != hash) := by
  by_cases known : hash ∈ pool.all.map Prod.fst
  · have looked : ∃ entry,
        (pool.all.find? fun entry => entry.1 == hash) = some entry := by
      rw [← Option.isSome_iff_exists, List.find?_isSome]
      obtain ⟨entry, member, same⟩ := List.mem_map.mp known
      exact ⟨entry, member, by simpa using same⟩
    obtain ⟨entry, looked⟩ := looked
    have queued := (consistent.known hash).mp known
    obtain ⟨offset, found⟩ : ∃ offset,
        (pool.queue.findIdx? fun tx => p.txHash tx == hash) =
          some offset := by
      rw [← Option.isSome_iff_exists, List.findIdx?_isSome, List.any_eq_true]
      obtain ⟨tx, member, same⟩ := List.mem_map.mp queued
      exact ⟨tx, member, by simpa using same⟩
    have inside : offset < pool.queue.length :=
      (List.findIdx?_eq_some_iff_getElem.mp found).1
    have removed : pool.removeTx p hash =
        { queue := removeAt pool.queue offset
          all := pool.all.filter fun entry => entry.1 != hash } := by
      simp only [TxPool.removeTx, looked, found]
    have order : (removeAt pool.queue offset).Perm
        (pool.queue.filter fun tx => p.txHash tx != hash) := by
      rw [← eraseP_eq_filter consistent.once, List.eraseP_eq_eraseIdx, found]
      exact removeAt_perm _ inside
    rw [removed]
    refine ⟨⟨?_, ?_⟩, order⟩
    · rw [(order.map p.txHash).nodup_iff]
      exact consistent.once.sublist (List.filter_sublist.map _)
    · intro other
      rw [(order.map p.txHash).mem_iff]
      have lookups := consistent.known other
      simp only [List.mem_map, List.mem_filter, bne_iff_ne] at lookups ⊢
      constructor
      · rintro ⟨entry, ⟨member, different⟩, rfl⟩
        obtain ⟨tx, queued, same⟩ := lookups.mp ⟨entry, member, rfl⟩
        exact ⟨tx, ⟨queued, same ▸ different⟩, same⟩
      · rintro ⟨tx, ⟨queued, different⟩, rfl⟩
        obtain ⟨entry, member, same⟩ := lookups.mpr ⟨tx, queued, rfl⟩
        exact ⟨entry, ⟨member, same ▸ different⟩, same⟩
  · have same : pool.removeTx p hash = pool := by
      have nothing :
          (pool.all.find? fun entry => entry.1 == hash) = none := by
        rw [List.find?_eq_none]
        rintro entry member equal
        exact known (List.mem_map.mpr ⟨entry, member, by simpa using equal⟩)
      simp only [TxPool.removeTx, nothing]
    rw [same]
    refine ⟨consistent, ?_⟩
    rw [List.filter_eq_self.mpr]
    intro tx member
    rw [bne_iff_ne]
    rintro rfl
    rw [consistent.known] at known
    exact known (List.mem_map_of_mem member)

/-- What is left after the transactions of a block have been removed. -/
theorem Consistent.removeAll {pool : TxPool} (consistent : pool.Consistent p)
    (txs : List Transaction) :
    (txs.foldl (fun pool tx => pool.removeTx p (p.txHash tx))
        pool).Consistent p ∧
      (txs.foldl (fun pool tx => pool.removeTx p (p.txHash tx))
        pool).queue.Perm
          (pool.queue.filter fun tx =>
            decide (p.txHash tx ∉ txs.map p.txHash)) := by
  induction txs generalizing pool with
  | nil => simp [consistent]
  | cons sealed txs induction =>
      obtain ⟨next, order⟩ := consistent.removeTx (p.txHash sealed)
      obtain ⟨final, rest⟩ := induction next
      refine ⟨final, rest.trans ((order.filter _).trans ?_)⟩
      rw [List.filter_filter]
      apply List.Perm.of_eq
      apply List.filter_congr
      intro tx _
      simp only [List.map_cons, List.mem_cons, not_or, Bool.decide_and,
        bne, Bool.and_comm, Bool.beq_eq_decide_eq, decide_not]

end TxPool

/-!
## What the calls do
-/

namespace PoolNode

variable (p : Primitives) (signer : EIP155Signer)

/-- The node with another pool and another journal file. -/
def updated (node : PoolNode) (pool : TxPool)
    (file : Option (List Transaction)) : PoolNode :=
  { node.withPool pool with file := file }

theorem journalTx_eq (node : PoolNode) (tx : Transaction) :
    ∃ file, node.journalTx tx = { node with file := file } := by
  unfold journalTx
  split
  · exact ⟨node.file, rfl⟩
  · exact ⟨node.file, rfl⟩
  · exact ⟨node.file, rfl⟩
  · split
    · exact ⟨node.file, rfl⟩
    · exact ⟨_, rfl⟩

theorem add_eq (asLocal : Bool) (node : PoolNode) (tx : Transaction) :
    ∃ file, (node.add p signer asLocal tx).1 =
      node.updated (node.pool.add p signer node.reader tx).1 file := by
  rcases node.pool.add_cases (p := p) signer node.reader tx with
    ⟨_, _, taken⟩ | ⟨_, same, refused⟩
  · rw [taken]
    unfold add
    rw [taken]
    cases asLocal with
    | true => exact journalTx_eq _ tx
    | false => exact ⟨node.file, rfl⟩
  · refine ⟨node.file, ?_⟩
    rw [same]
    unfold add
    split
    · rfl
    · rename_i pool accepted outcome
      rw [outcome] at refused
      cases refused

theorem addTxsLocked_eq (asLocal : Bool) (node : PoolNode)
    (txs : List Transaction) :
    ∃ file, (addTxsLocked p signer asLocal node txs).1 =
      node.updated (node.pool.addAll p signer node.reader txs) file := by
  induction txs generalizing node with
  | nil => exact ⟨node.file, rfl⟩
  | cons tx txs induction =>
      obtain ⟨first, added⟩ := node.add_eq p signer asLocal tx
      obtain ⟨file, rest⟩ := induction (node.add p signer asLocal tx).1
      refine ⟨file, rest.trans ?_⟩
      rw [added]
      rfl

/-- A call that is not a seal changes the pool and the file only. -/
theorem perform_eq_of_unsealed (node : PoolNode) (step : PoolStep)
    (unsealed : ∀ time disk submits txs,
      step ≠ .sealTxs time disk submits txs) :
    ∃ file, (node.perform p signer step).1 =
      node.updated (node.pool.addAll p signer node.reader step.offered)
        file := by
  cases step with
  | addLocal tx => exact addTxsLocked_eq p signer _ node [tx]
  | addLocals txs => exact addTxsLocked_eq p signer _ node txs
  | addRemote tx => exact addTxsLocked_eq p signer _ node [tx]
  | addRemotes txs => exact addTxsLocked_eq p signer _ node txs
  | sealTxs time disk submits txs => exact (unsealed _ _ _ _ rfl).elim

end PoolNode

/-- A seal that returns no error has written its block. -/
theorem Operator.sealTxs_succeeded (p : Primitives) (signer : EIP155Signer)
    {o : Operator} (idle : o.chain.db.Idle) {time : Int} {disk submits : Bool}
    {txs : List Transaction}
    (sealed : (o.sealTxs p signer time disk submits txs).2.2 = .ok ()) :
    (o.sealTxs p signer time disk submits txs).1.chain.db.Idle ∧
      (o.sealTxs p signer time disk submits txs).1.chain.utxoSet =
        applyAll (o.constructBlock p time txs).2.changes o.chain.utxoSet ∧
      (o.sealTxs p signer time disk submits txs).1.txPool =
        txs.foldl (fun pool tx => pool.removeTx p (p.txHash tx)) o.txPool ∧
      committedBlocks (o.sealTxs p signer time disk submits txs).2.1 =
        [(o.constructBlock p time txs).2] := by
  rcases BlockChain.writeWith_cases p (buffersDeletions_removeInputs disk)
      signer disk o.chain (o.constructBlock p time txs).2 idle with
    ⟨_, _, ⟨failure, failed⟩, _⟩ | ⟨db, outcome, _, _⟩
  · rw [sealTxs_of_error p signer o time disk submits txs failed] at sealed
    cases sealed
  · have written : (o.sealWrite p signer time disk txs).2.2 = .ok () :=
      congrArg Prod.snd outcome
    have contents : (o.sealWrite p signer time disk txs).1.utxoSet =
        applyAll (o.constructBlock p time txs).2.changes o.chain.utxoSet := by
      rw [← BlockChain.utxos_writeBatch p]
      exact congrArg (fun d : Database => Rawdb.utxos d.db) db
    refine ⟨?_, ?_, ?_, ?_⟩
    · rw [sealTxs_chain]
      exact db ▸ ⟨rfl, rfl⟩
    · rw [sealTxs_chain]
      exact contents
    · rw [sealTxs_of_ok p signer o time disk submits txs written]
      rfl
    · rw [sealTxs_committed]
      exact congrArg (fun out => committedBlocks out.1) outcome

end Plasma.Core
