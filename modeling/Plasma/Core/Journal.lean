import Plasma.Core.PoolContent

/-!
# Local transactions over restarts

A restart loads the journal into an empty pool and then replaces it by the
transactions of local accounts.  No account is ever marked as local, so the
journal is empty after every restart, and a transaction survives the restarts
only until the second one after it was accepted.
-/

namespace Plasma.Core

open Plasma.Lib Plasma.Store

inductive ProcessStep where
  | call (step : PoolStep)
  | restart (chain : BlockChain)

namespace ProcessStep

/-- The transactions a step adds or seals. -/
def transactions : ProcessStep → List Transaction
  | .call (.sealTxs _ _ _ txs) => txs
  | .call step => step.offered
  | .restart _ => []

end ProcessStep

/-- What has been reported since the last restart. -/
def sinceRestart (history : List PoolReport) : List PoolReport :=
  history.foldl (fun recent report =>
    if report = .restarted then [] else recent ++ [report]) []

/-- The transaction was taken as a local one and no written block contains
it. -/
def Pending (history : List PoolReport) (tx : Transaction) : Prop :=
  .accepted tx ∈ history ∧
    ∀ block, .written block ∈ history → tx ∉ block.transactions

/-- A local transaction that can be encoded is written to the journal. -/
def PoolReport.entry? : PoolReport → Option Transaction
  | .accepted tx => if tx.encodeRLP.isSome then some tx else none
  | _ => none

/-- The transactions that the journal holds after these reports. -/
def journaled (history : List PoolReport) : List Transaction :=
  (sinceRestart history).filterMap PoolReport.entry?

theorem sinceRestart_append_calls {history calls : List PoolReport}
    (running : .restarted ∉ calls) :
    sinceRestart (history ++ calls) = sinceRestart history ++ calls := by
  rw [sinceRestart, List.foldl_append, ← sinceRestart]
  generalize sinceRestart history = recent
  induction calls generalizing recent with
  | nil => exact (List.append_nil _).symm
  | cons report calls induction =>
      rw [List.mem_cons, not_or] at running
      rw [List.foldl_cons, if_neg (Ne.symm running.1), induction running.2,
        List.append_assoc]
      rfl

@[simp] theorem sinceRestart_append_restarted (history : List PoolReport) :
    sinceRestart (history ++ [.restarted]) = [] := by
  rw [sinceRestart, List.foldl_append]
  rfl

theorem sinceRestart_subset (history : List PoolReport) :
    sinceRestart history ⊆ history := by
  induction history using List.reverseRecOn with
  | nil => exact List.Subset.refl _
  | append_singleton history last induction =>
      by_cases restarted : last = .restarted
      · rw [restarted, sinceRestart_append_restarted]
        exact List.nil_subset _
      · have running : .restarted ∉ [last] := by
          rw [List.mem_singleton]
          exact Ne.symm restarted
        rw [sinceRestart_append_calls running]
        intro report member
        rcases List.mem_append.mp member with before | now
        · exact List.mem_append_left _ (induction before)
        · exact List.mem_append_right _ now

@[simp] theorem journaled_append_restarted (history : List PoolReport) :
    journaled (history ++ [.restarted]) = [] := by
  rw [journaled, sinceRestart_append_restarted]
  rfl

theorem mem_journaled_iff {history : List PoolReport} {tx : Transaction} :
    tx ∈ journaled history ↔
      .accepted tx ∈ sinceRestart history ∧ tx.encodeRLP.isSome = true := by
  rw [journaled, List.mem_filterMap]
  constructor
  · rintro ⟨report, member, found⟩
    cases report with
    | accepted other =>
        simp only [PoolReport.entry?, Option.ite_none_right_eq_some,
          Option.some.injEq] at found
        obtain ⟨encodable, rfl⟩ := found
        exact ⟨member, encodable⟩
    | written block => cases found
    | restarted => cases found
  · rintro ⟨member, encodable⟩
    refine ⟨_, member, ?_⟩
    simp only [PoolReport.entry?, encodable, if_true]

theorem journaled_append_accepted (history : List PoolReport)
    (txs : List Transaction) :
    journaled (history ++ txs.map .accepted) =
      journaled history ++ txs.filter fun tx => tx.encodeRLP.isSome := by
  have running : .restarted ∉ txs.map PoolReport.accepted := by
    intro member
    obtain ⟨tx, _, same⟩ := List.mem_map.mp member
    cases same
  rw [journaled, sinceRestart_append_calls running, List.filterMap_append,
    ← journaled]
  congr 1
  induction txs with
  | nil => rfl
  | cons tx txs induction =>
      have rest : .restarted ∉ txs.map PoolReport.accepted :=
        fun member => running (List.mem_cons_of_mem _ member)
      by_cases encodable : tx.encodeRLP.isSome = true
      · simp [PoolReport.entry?, encodable, induction rest]
      · simp [PoolReport.entry?, encodable, induction rest]

theorem journaled_append_written (history : List PoolReport)
    (blocks : List Block) :
    journaled (history ++ blocks.map .written) = journaled history := by
  have running : .restarted ∉ blocks.map PoolReport.written := by
    intro member
    obtain ⟨block, _, same⟩ := List.mem_map.mp member
    cases same
  rw [journaled, sinceRestart_append_calls running, List.filterMap_append,
    ← journaled]
  convert List.append_nil _
  rw [List.filterMap_eq_nil_iff]
  intro report member
  obtain ⟨block, _, rfl⟩ := List.mem_map.mp member
  rfl

namespace PoolNode

section

variable (p : Primitives) (signer : EIP155Signer)

def advance (node : PoolNode) : ProcessStep → PoolNode × List PoolReport
  | .call step => node.perform p signer step
  | .restart chain => (node.restart p signer chain, [.restarted])

end

variable {p : Primitives} {signer : EIP155Signer}

/-- The journal is in use and was opened by `NewTxPool`. -/
structure Journaling (node : PoolNode) : Prop where
  locals : node.config.noLocals = false
  path : node.config.journal ≠ ""
  accounts : node.accounts = []
  journal : node.journal = some .file

theorem journalTx_file {node : PoolNode} (journal : node.journal = some .file)
    {entries : List Transaction} (file : node.file = some entries)
    (tx : Transaction) :
    (node.journalTx tx).file =
      some (entries ++ [tx].filter fun tx => tx.encodeRLP.isSome) := by
  simp only [journalTx, journal, file, Option.getD_some]
  cases encoded : tx.encodeRLP with
  | none => simp [encoded, file]
  | some bytes => simp [encoded]

/-- A local transaction is refused and changes nothing, or is valid and
appended to the journal when it can be encoded. -/
theorem add_local_cases (p : Primitives) (signer : EIP155Signer)
    (node : PoolNode) (journal : node.journal = some .file)
    {entries : List Transaction} (file : node.file = some entries)
    (tx : Transaction) :
    ((node.add p signer true tx).2 = .ok () ∧
        ValidTx p signer node.reader tx ∧
        (node.add p signer true tx).1.file =
          some (entries ++ [tx].filter fun tx => tx.encodeRLP.isSome)) ∨
      ((node.add p signer true tx).1 = node ∧
        (node.add p signer true tx).2.isOk = false) := by
  rcases node.pool.add_cases (p := p) signer node.reader tx with
    ⟨_, valid, taken⟩ | ⟨_, _, refused⟩
  · left
    have appended : ∀ pool, ((node.withPool pool).journalTx tx).file =
        some (entries ++ [tx].filter fun tx => tx.encodeRLP.isSome) :=
      fun pool => @journalTx_file (node.withPool pool) journal entries file tx
    unfold add
    rw [taken]
    exact ⟨rfl, valid, appended _⟩
  · right
    unfold add
    split
    · exact ⟨rfl, rfl⟩
    · rename_i pool accepted outcome
      rw [outcome] at refused
      cases refused

/-- The answers for a batch: who is accepted is valid, and the accepted ones
that can be encoded are appended to the journal. -/
theorem addTxsLocked_accepted (p : Primitives) (signer : EIP155Signer)
    (node : PoolNode)
    (journal : node.journal = some .file) {entries : List Transaction}
    (file : node.file = some entries) (txs : List Transaction) :
    (addTxsLocked p signer true node txs).1.file =
        some (entries ++
          (acceptedOf txs (addTxsLocked p signer true node txs).2).filter
            fun tx => tx.encodeRLP.isSome) ∧
      ∀ tx ∈ acceptedOf txs (addTxsLocked p signer true node txs).2,
        tx ∈ txs ∧ ValidTx p signer node.reader tx := by
  induction txs generalizing node entries with
  | nil =>
      refine ⟨?_, ?_⟩
      · exact file.trans (congrArg some (List.append_nil _).symm)
      · intro tx member
        cases member
  | cons tx txs induction =>
      obtain ⟨_, added⟩ := node.add_eq p signer true tx
      have sameReader : (node.add p signer true tx).1.reader =
          node.reader := by
        rw [added]
        rfl
      have sameJournal : (node.add p signer true tx).1.journal =
          some .file := by
        rw [added]
        exact journal
      rcases node.add_local_cases p signer journal file tx with
        ⟨result, valid, written⟩ | ⟨same, failed⟩
      · obtain ⟨restFile, restValid⟩ :=
          induction _ sameJournal written
        have accepted : acceptedOf (tx :: txs)
            (addTxsLocked p signer true node (tx :: txs)).2 =
              tx :: acceptedOf txs (addTxsLocked p signer true
                (node.add p signer true tx).1 txs).2 := by
          simp only [addTxsLocked, result]
          rfl
        rw [accepted]
        refine ⟨restFile.trans ?_, ?_⟩
        · rw [List.append_assoc, ← List.filter_append]
          rfl
        · intro other member
          rcases List.mem_cons.mp member with rfl | later
          · exact ⟨List.mem_cons_self, valid⟩
          · obtain ⟨offered, validLater⟩ := restValid other later
            rw [sameReader] at validLater
            exact ⟨List.mem_cons_of_mem _ offered, validLater⟩
      · have accepted : acceptedOf (tx :: txs)
            (addTxsLocked p signer true node (tx :: txs)).2 =
              acceptedOf txs (addTxsLocked p signer true node txs).2 := by
          simp only [addTxsLocked, acceptedOf, List.zip_cons_cons,
            List.filter_cons, failed, same, Bool.false_eq_true, if_false]
        obtain ⟨restFile, restValid⟩ := induction node journal file
        rw [accepted]
        refine ⟨?_, ?_⟩
        · rw [← restFile]
          simp only [addTxsLocked, same]
        · intro other member
          obtain ⟨offered, valid⟩ := restValid other member
          exact ⟨List.mem_cons_of_mem _ offered, valid⟩

/-- Remote transactions are not journaled. -/
theorem addTxsLocked_remote_file (p : Primitives) (signer : EIP155Signer)
    (node : PoolNode) (txs : List Transaction) :
    (addTxsLocked p signer false node txs).1.file = node.file := by
  induction txs generalizing node with
  | nil => rfl
  | cons tx txs induction =>
      have first : (node.add p signer false tx).1.file = node.file := by
        unfold add
        split <;> rfl
      exact (induction _).trans first

theorem addTxsLocked_append (asLocal : Bool) (node : PoolNode)
    (first second : List Transaction) :
    (addTxsLocked p signer asLocal node (first ++ second)).1 =
      (addTxsLocked p signer asLocal
        (addTxsLocked p signer asLocal node first).1 second).1 := by
  induction first generalizing node with
  | nil => rfl
  | cons tx first induction => exact induction _

/-- The batches make no difference. -/
theorem loadLoop_eq (batch rest : List Transaction) (node : PoolNode) :
    loadLoop p signer batch rest node =
      (addTxsLocked p signer (!node.config.noLocals) node
        (batch ++ rest)).1 := by
  induction rest generalizing batch node with
  | nil =>
      rw [loadLoop, List.append_nil]
      split
      · rfl
      · rename_i short
        rw [List.length_eq_zero_iff.mp (Nat.eq_zero_of_not_pos short)]
        rfl
  | cons tx rest induction =>
      rw [loadLoop]
      split
      · obtain ⟨file, added⟩ := addTxsLocked_eq p signer
          (!node.config.noLocals) node (batch ++ [tx])
        have config : (node.addLocals p signer (batch ++ [tx])).1.config =
            node.config := by
          rw [addLocals, added]
          rfl
        rw [induction, config, List.nil_append, addLocals,
          ← addTxsLocked_append, List.append_assoc]
        rfl
      · rw [induction, List.append_assoc]
        rfl

theorem localTxs_eq_nil {node : PoolNode} (accounts : node.accounts = []) :
    node.localTxs p signer = [] := by
  unfold localTxs
  generalize node.pool.queue = queue
  induction queue with
  | nil => rfl
  | cons tx queue induction =>
      rw [List.foldl_cons]
      cases signer.sender p tx with
      | error failure => exact induction
      | ok senders =>
          simp only [accounts, List.not_mem_nil, if_false, List.foldl_cons,
            List.foldl_nil]
          simp only [accounts, List.not_mem_nil, if_false] at induction
          exact induction

/-- A restart loads the journal into an empty pool and leaves an empty
journal. -/
theorem restart_eq {node : PoolNode} (journaling : node.Journaling)
    {entries : List Transaction} (file : node.file = some entries)
    (chain : BlockChain) :
    node.restart p signer chain =
      { operator :=
          Operator.newOperator node.operator.addr chain
            (TxPool.empty.addAll p signer (Rawdb.readUTXO chain.db) entries)
        config := node.config
        accounts := []
        journal := some .file
        file := some [] } := by
  have enabled : (!node.config.noLocals && node.config.journal != "") =
      true := by
    simp [journaling.locals, journaling.path]
  unfold restart newTxPool
  rw [if_pos enabled]
  simp only [load, file, loadLoop_eq, List.nil_append]
  obtain ⟨_, added⟩ := addTxsLocked_eq p signer (!node.config.noLocals)
    { operator :=
        Operator.newOperator node.operator.addr chain TxPool.empty
      config := node.config
      accounts := []
      journal := some .devNull
      file := some entries } entries
  have loaded : ∀ other : PoolNode, other.accounts = [] →
      other.rotate (other.localTxs p signer) =
        { other with file := some [], journal := some .file } := by
    intro other accounts
    rw [localTxs_eq_nil accounts]
    rfl
  rw [loaded _ (by exact congrArg PoolNode.accounts added)]
  simp only [Operator.newOperator] at added ⊢
  rw [added]
  rfl

end PoolNode

namespace TxPool

variable {p : Primitives} {signer : EIP155Signer} {reader : UtxoReader}

theorem mem_of_mem_addAll {pool : TxPool} {txs : List Transaction}
    {tx : Transaction}
    (queued : tx ∈ (pool.addAll p signer reader txs).queue) :
    tx ∈ pool.queue ∨ tx ∈ txs := by
  induction txs generalizing pool with
  | nil => exact .inl queued
  | cons first txs induction =>
      have next : tx ∈ ((pool.add p signer reader first).1.addAll p signer
          reader txs).queue := queued
      rcases induction next with before | later
      · rcases pool.add_cases (p := p) signer reader first with
          ⟨_, _, taken⟩ | ⟨_, same, _⟩
        · rw [taken] at before
          rcases List.mem_append.mp before with old | new
          · exact .inl old
          · exact .inr (List.mem_singleton.mp new ▸ List.mem_cons_self)
        · rw [same] at before
          exact .inl before
      · exact .inr (List.mem_cons_of_mem _ later)

/-- A valid transaction of a batch is queued afterwards when no other
transaction has its hash. -/
theorem mem_addAll {pool : TxPool} (consistent : pool.Consistent p)
    {txs : List Transaction} {tx : Transaction}
    (alone : ∀ other, other ∈ pool.queue ∨ other ∈ txs →
      p.txHash other = p.txHash tx → other = tx)
    (valid : ValidTx p signer reader tx) (offered : tx ∈ txs) :
    tx ∈ (pool.addAll p signer reader txs).queue := by
  induction txs generalizing pool with
  | nil => cases offered
  | cons first txs induction =>
      rcases List.mem_cons.mp offered with rfl | later
      · apply (prefix_addAll signer reader
          (pool.add p signer reader tx).1 txs).subset
        rcases pool.add_cases (p := p) signer reader tx with
          ⟨_, _, taken⟩ | ⟨refused, same, _⟩
        · rw [taken]
          exact List.mem_append_right _ List.mem_cons_self
        · rw [same]
          rcases refused with known | invalid
          · obtain ⟨other, queued, equal⟩ :=
              List.mem_map.mp ((consistent.known _).mp known)
            exact alone other (.inl queued) equal ▸ queued
          · exact (invalid valid).elim
      · refine induction (consistent.add signer reader first) ?_ later
        rintro other (queued | offered) equal
        · rcases @mem_of_mem_addAll p signer reader pool [first] other queued
            with old | new
          · exact alone other (.inl old) equal
          · exact alone other
              (.inr (List.mem_singleton.mp new ▸ List.mem_cons_self)) equal
        · exact alone other (.inr (List.mem_cons_of_mem _ offered)) equal

end TxPool

/-!
## Runs with restarts
-/

/-- What every state of a run keeps: the journal holds what was accepted since
the last restart, and every pending transaction is still valid. -/
structure JournalState (p : Primitives) (signer : EIP155Signer)
    (txs : List Transaction) (node : PoolNode) (history : List PoolReport) :
    Prop where
  idle : node.operator.chain.db.Idle
  journaling : node.Journaling
  file : node.file = some (journaled history)
  known : ∀ tx, .accepted tx ∈ history → tx ∈ txs
  valid : ∀ tx, Pending history tx → ValidTx p signer node.utxoSet.reader tx

/-- Different transactions spend different outputs and have different hashes.
All transactions without an encoding share one hash, so that at most one of
them is among the transactions. -/
structure Independent (p : Primitives) (txs : List Transaction) : Prop where
  apart : ∀ tx ∈ txs, ∀ other ∈ txs, tx ≠ other →
    ∀ id ∈ tx.realInputs, id ∉ other.realInputs
  hashes : ∀ tx ∈ txs, ∀ other ∈ txs, p.txHash tx = p.txHash other →
    tx = other

namespace PoolNode

/-- Seals succeed under unused numbers, and a restart keeps the outputs. -/
def Admits (p : Primitives) (signer : EIP155Signer) (node : PoolNode) :
    ProcessStep → Prop
  | .call step => node.Succeeds p signer step ∧ node.SealsFresh step
  | .restart chain => chain.db.Idle ∧ chain.utxoSet = node.utxoSet

end PoolNode

/-- A transaction that is pending after further reports was pending before or
is one of them. -/
theorem Pending.of_append {history reports : List PoolReport}
    {tx : Transaction} (pending : Pending (history ++ reports) tx) :
    Pending history tx ∨ .accepted tx ∈ reports := by
  obtain ⟨accepted, unwritten⟩ := pending
  rcases List.mem_append.mp accepted with before | now
  · left
    refine ⟨before, ?_⟩
    intro block written
    exact unwritten block (List.mem_append_left _ written)
  · exact .inr now

theorem mem_of_accepted_map {taken : List Transaction} {tx : Transaction}
    (member : PoolReport.accepted tx ∈ taken.map PoolReport.accepted) :
    tx ∈ taken := by
  obtain ⟨other, offered, same⟩ := List.mem_map.mp member
  cases same
  exact offered

namespace JournalState

variable {p : Primitives} {signer : EIP155Signer} {txs : List Transaction}
  {node : PoolNode} {history : List PoolReport}

/-- The pool and the file change, and local transactions are reported. -/
theorem updated (state : JournalState p signer txs node history)
    {pool : TxPool} {taken : List Transaction}
    {file : Option (List Transaction)}
    (written : file = some (journaled (history ++ taken.map .accepted)))
    (among : ∀ tx ∈ taken, tx ∈ txs)
    (valid : ∀ tx ∈ taken, ValidTx p signer node.reader tx) :
    JournalState p signer txs (node.updated pool file)
      (history ++ taken.map .accepted) := by
  refine ⟨state.idle, ?_, written, ?_, ?_⟩
  · exact ⟨state.journaling.locals, state.journaling.path,
      state.journaling.accounts, state.journaling.journal⟩
  · intro tx accepted
    rcases List.mem_append.mp accepted with before | now
    · exact state.known tx before
    · exact among tx (mem_of_accepted_map now)
  · intro tx pending
    rcases pending.of_append with before | now
    · exact state.valid tx before
    · exact valid tx (mem_of_accepted_map now)

theorem addLocals (state : JournalState p signer txs node history)
    {offered : List Transaction} (among : ∀ tx ∈ offered, tx ∈ txs) :
    JournalState p signer txs
      (PoolNode.addTxsLocked p signer true node offered).1
      (history ++ (acceptedOf offered
        (PoolNode.addTxsLocked p signer true node offered).2).map
          .accepted) := by
  obtain ⟨file, valid⟩ := PoolNode.addTxsLocked_accepted p signer node
    state.journaling.journal state.file offered
  obtain ⟨_, added⟩ := PoolNode.addTxsLocked_eq p signer true node offered
  rw [added] at file ⊢
  refine state.updated ?_ ?_ ?_
  · rw [journaled_append_accepted]
    exact file
  · intro tx taken
    exact among tx (valid tx taken).1
  · intro tx taken
    exact (valid tx taken).2

theorem addRemotes (state : JournalState p signer txs node history)
    (offered : List Transaction) :
    JournalState p signer txs
      (PoolNode.addTxsLocked p signer false node offered).1 history := by
  have file := PoolNode.addTxsLocked_remote_file p signer node offered
  obtain ⟨same, added⟩ := PoolNode.addTxsLocked_eq p signer false node offered
  rw [added] at file ⊢
  have nothing : history = history ++ ([] : List Transaction).map .accepted :=
    (List.append_nil _).symm
  rw [nothing]
  refine state.updated ?_ ?_ ?_
  · rw [← nothing, ← state.file]
    exact file
  · intro tx taken
    cases taken
  · intro tx taken
    cases taken

theorem sealTxs (state : JournalState p signer txs node history)
    (independent : Independent p txs) {time : Int} {disk submits : Bool}
    {sealed : List Transaction} (among : ∀ tx ∈ sealed, tx ∈ txs)
    (succeeds : node.Succeeds p signer (.sealTxs time disk submits sealed))
    (fresh : node.SealsFresh (.sealTxs time disk submits sealed)) :
    JournalState p signer txs
      (node.perform p signer (.sealTxs time disk submits sealed)).1
      (history ++
        (node.perform p signer (.sealTxs time disk submits sealed)).2) := by
  obtain ⟨idle, utxos, _, committed⟩ :=
    Operator.sealTxs_succeeded p signer state.idle succeeds
  have reports : (node.perform p signer
      (.sealTxs time disk submits sealed)).2 =
        [(node.operator.constructBlock p time sealed).2].map .written :=
    congrArg (List.map PoolReport.written) committed
  have unused : UnusedNumber
      (node.operator.constructBlock p time sealed).2.numberU64
      node.utxoSet := by
    rw [Operator.constructBlock_numberU64]
    exact fresh
  rw [reports]
  refine ⟨idle, ?_, ?_, ?_, ?_⟩
  · exact ⟨state.journaling.locals, state.journaling.path,
      state.journaling.accounts, state.journaling.journal⟩
  · rw [journaled_append_written]
    exact state.file
  · intro tx accepted
    rcases List.mem_append.mp accepted with before | now
    · exact state.known tx before
    · cases List.mem_singleton.mp now
  · intro tx pending
    have unwritten : tx ∉ sealed := by
      have outside := pending.2 _
        (List.mem_append_right _ List.mem_cons_self)
      rw [Operator.constructBlock_transactions] at outside
      exact outside
    rcases pending.of_append with before | now
    · have after := ((state.valid tx before).after_block_iff unused).mpr ?_
      · exact (congrArg (fun utxos => ValidTx p signer
          (UtxoSet.reader utxos) tx) utxos).mpr after
      · intro id input spent
        rw [mem_inputIds_iff ((tx.mem_realInputs_iff id).mp input).2,
          Operator.constructBlock_transactions] at spent
        obtain ⟨other, member, shared⟩ := List.mem_flatMap.mp spent
        exact independent.apart tx (state.known tx before.1) other
          (among other member) (fun same => unwritten (same ▸ member)) id
          input shared
    · cases List.mem_singleton.mp now

theorem restart (state : JournalState p signer txs node history)
    {chain : BlockChain} (idle : chain.db.Idle)
    (kept : chain.utxoSet = node.utxoSet) :
    JournalState p signer txs (node.restart p signer chain)
      (history ++ [.restarted]) := by
  rw [PoolNode.restart_eq state.journaling state.file chain]
  refine ⟨idle, ?_, ?_, ?_, ?_⟩
  · exact ⟨state.journaling.locals, state.journaling.path, rfl, rfl⟩
  · rw [journaled_append_restarted]
  · intro tx accepted
    rcases List.mem_append.mp accepted with before | now
    · exact state.known tx before
    · cases List.mem_singleton.mp now
  · intro tx pending
    rcases pending.of_append with before | now
    · have valid := state.valid tx before
      rw [← kept] at valid
      exact valid
    · cases List.mem_singleton.mp now

/-- One step of the process. -/
theorem advance (state : JournalState p signer txs node history)
    (independent : Independent p txs) {step : ProcessStep}
    (admits : node.Admits p signer step)
    (among : ∀ tx ∈ step.transactions, tx ∈ txs) :
    JournalState p signer txs (node.advance p signer step).1
      (history ++ (node.advance p signer step).2) := by
  have asLocal : (!node.config.noLocals) = true := by
    rw [state.journaling.locals]
    rfl
  cases step with
  | restart chain => exact state.restart admits.1 admits.2
  | call step =>
      cases step with
      | sealTxs time disk submits sealed =>
          exact state.sealTxs independent among admits.1 admits.2
      | addLocal tx =>
          have added := state.addLocals among
          rw [← asLocal] at added
          exact added
      | addLocals offered =>
          have added := state.addLocals among
          rw [← asLocal] at added
          exact added
      | addRemote tx =>
          have added := state.addRemotes [tx]
          rw [← List.append_nil history] at added
          exact added
      | addRemotes offered =>
          have added := state.addRemotes offered
          rw [← List.append_nil history] at added
          exact added

end JournalState

theorem journalState_run {p : Primitives} {signer : EIP155Signer}
    {start : PoolNode} (idle : start.operator.chain.db.Idle)
    (journaling : start.Journaling) (opened : start.file = some [])
    {steps : List ProcessStep}
    (admitted : StepsMeet (PoolNode.advance p signer)
      (PoolNode.Admits p signer) start steps)
    (independent : Independent p (steps.flatMap ProcessStep.transactions)) :
    JournalState p signer (steps.flatMap ProcessStep.transactions)
      (execute (PoolNode.advance p signer) start steps).1
      (execute (PoolNode.advance p signer) start steps).2 := by
  have among : ∀ step ∈ steps, ∀ tx ∈ step.transactions,
      tx ∈ steps.flatMap ProcessStep.transactions := by
    intro step member tx offered
    exact List.mem_flatMap.mpr ⟨step, member, offered⟩
  refine execute_induction _ _ (fun _ node history => JournalState p signer
    (steps.flatMap ProcessStep.transactions) node history) ?_ ?_
    (admitted.and_forall among)
  · intro _ node history step state meets
    exact state.advance independent meets.1 meets.2
  · refine ⟨idle, journaling, opened, ?_, ?_⟩
    · intro tx accepted
      cases accepted
    · intro tx pending
      cases pending.1

/-- Which pending local transactions a restart keeps: those that were accepted
since the restart before it and can be encoded. -/
theorem local_transaction_survives_iff {p : Primitives}
    {signer : EIP155Signer} {start : PoolNode}
    (idle : start.operator.chain.db.Idle) (journaling : start.Journaling)
    (opened : start.file = some []) {steps : List ProcessStep}
    (admitted : StepsMeet (PoolNode.advance p signer)
      (PoolNode.Admits p signer) start steps)
    (independent : Independent p (steps.flatMap ProcessStep.transactions))
    {chain : BlockChain}
    (restarts : (execute (PoolNode.advance p signer) start steps).1.Admits p
      signer (.restart chain))
    {tx : Transaction}
    (pending : Pending (execute (PoolNode.advance p signer) start steps).2
      tx) :
    tx ∈ ((execute (PoolNode.advance p signer) start steps).1.restart p
        signer chain).pool.content ↔
      .accepted tx ∈ sinceRestart
          (execute (PoolNode.advance p signer) start steps).2 ∧
        tx.encodeRLP.isSome = true := by
  have state := journalState_run idle journaling opened admitted independent
  have offered : ∀ other ∈ journaled
      (execute (PoolNode.advance p signer) start steps).2,
        other ∈ steps.flatMap ProcessStep.transactions := by
    intro other entry
    exact state.known other
      (sinceRestart_subset _ (mem_journaled_iff.mp entry).1)
  rw [← mem_journaled_iff,
    PoolNode.restart_eq state.journaling state.file chain]
  constructor
  · intro queued
    rcases TxPool.mem_of_mem_addAll queued with nothing | loaded
    · cases nothing
    · exact loaded
  · intro entry
    refine TxPool.mem_addAll TxPool.consistent_empty ?_ ?_ entry
    · rintro other (nothing | loaded) equal
      · cases nothing
      · exact independent.hashes other (offered other loaded) tx
          (offered tx entry) equal
    · have valid := state.valid tx pending
      rw [← restarts.2] at valid
      exact valid

namespace Sample

/-- The node with one deposit and an empty journal. -/
def journalNode : PoolNode := poolNode (depositedOperator primitives)

/-- The chain that a new process loads. -/
def keptChain : BlockChain := (depositedOperator primitives).chain

/-- A local payment and any number of restarts after it. -/
def restarted (restarts : Nat) : List ProcessStep :=
  .call (.addLocal spend) :: List.replicate restarts (.restart keptChain)

theorem journalNode_journaling : journalNode.Journaling :=
  ⟨rfl, by decide, rfl, rfl⟩

theorem keptChain_idle : keptChain.db.Idle :=
  (depositedOperator_state primitives).idle

theorem spend_independent (restarts : Nat) :
    Independent primitives
      ((restarted restarts).flatMap ProcessStep.transactions) := by
  have only : ∀ tx ∈ (restarted restarts).flatMap ProcessStep.transactions,
      tx = spend := by
    intro tx member
    obtain ⟨step, taken, offered⟩ := List.mem_flatMap.mp member
    rcases List.mem_cons.mp taken with rfl | later
    · exact List.mem_singleton.mp offered
    · rw [List.eq_of_mem_replicate later] at offered
      cases offered
  constructor
  · intro tx member other otherMember different
    exact (different ((only tx member).trans
      (only other otherMember).symm)).elim
  · intro tx member other otherMember _
    exact (only tx member).trans (only other otherMember).symm

end Sample

theorem local_payment_survives_first_restart :
    Sample.spend ∈ ((execute
        (PoolNode.advance Sample.primitives Sample.signer) Sample.journalNode
        (Sample.restarted 0)).1.restart Sample.primitives Sample.signer
          Sample.keptChain).pool.content := by
  have history : (execute
      (PoolNode.advance Sample.primitives Sample.signer) Sample.journalNode
      (Sample.restarted 0)).2 = [.accepted Sample.spend] := by
    decide +kernel
  have kept : Sample.keptChain.utxoSet = (execute
      (PoolNode.advance Sample.primitives Sample.signer) Sample.journalNode
      (Sample.restarted 0)).1.utxoSet := by
    obtain ⟨file, added⟩ := PoolNode.perform_eq_of_unsealed
      Sample.primitives Sample.signer Sample.journalNode
      (.addLocal Sample.spend) (by simp)
    have reached : (execute
        (PoolNode.advance Sample.primitives Sample.signer) Sample.journalNode
        (Sample.restarted 0)).1 = (Sample.journalNode.perform
          Sample.primitives Sample.signer (.addLocal Sample.spend)).1 := by
      simp only [Sample.restarted, List.replicate_zero, execute,
        PoolNode.advance]
    rw [reached, added]
    rfl
  have admitted : StepsMeet
      (PoolNode.advance Sample.primitives Sample.signer)
      (PoolNode.Admits Sample.primitives Sample.signer) Sample.journalNode
      (Sample.restarted 0) := ⟨⟨trivial, trivial⟩, trivial⟩
  refine (local_transaction_survives_iff Sample.keptChain_idle
    Sample.journalNode_journaling rfl admitted
    (Sample.spend_independent 0) ⟨Sample.keptChain_idle, kept⟩ ?_).mpr ?_
  · rw [history]
    refine ⟨List.mem_cons_self, ?_⟩
    intro block written
    cases List.mem_singleton.mp written
  · rw [history]
    exact ⟨List.mem_cons_self, by decide +kernel⟩

/-- The payment is pending and in the pool after the first restart, and gone
after the second. -/
theorem second_restart_loses_local_payment :
    (execute (PoolNode.advance Sample.primitives Sample.signer)
        Sample.journalNode (Sample.restarted 2)).2 =
          [.accepted Sample.spend, .restarted, .restarted] ∧
      (execute (PoolNode.advance Sample.primitives Sample.signer)
        Sample.journalNode (Sample.restarted 1)).1.pool.content =
          [Sample.spend] ∧
      (execute (PoolNode.advance Sample.primitives Sample.signer)
        Sample.journalNode (Sample.restarted 2)).1.pool.content = [] := by
  decide +kernel

end Plasma.Core
