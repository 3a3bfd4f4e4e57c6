import Plasma.Lib.Flooding
import Plasma.Core.Pool

/-!
# Gossip of transactions

Every pool puts the transactions it accepts into the channel of
`broadcastTxs`.  The operator offers the transactions of its peers to its
pool; a validator puts them into a channel that nobody reads.
-/

namespace Plasma.Network

open Plasma.Core Plasma.Lib Plasma.Lib.Gossip

def maxKnownTxs : ℕ := 32768

instance : NeZero maxKnownTxs := ⟨by decide⟩

/-- The pool of a node, with the outputs its validator reads. -/
structure TxNode where
  operator : Bool
  pool : TxPool
  reader : UtxoReader

/-- What happens to the pool of a node besides gossip: a transaction arrives
over HTTP, and blocks are written; the operator removes the transactions it has
sealed. -/
inductive PoolDuty where
  | addLocal (tx : Transaction)
  | removeTxs (txs : List Transaction)
  | written (reader : UtxoReader)

/-- What a new process finds: the pool its journal gave back, and the recorded
outputs. -/
structure Reload where
  pool : TxPool
  reader : UtxoReader

section Handler

variable (p : Primitives) (signer : EIP155Signer)

/-- An accepted transaction goes into the channel. -/
def addTx (node : TxNode) (tx : Transaction) :
    TxNode × List (List Transaction) × Except PoolError Unit :=
  match node.pool.add p signer node.reader tx with
  | (_, .error failure) => (node, [], .error failure)
  | (pool, .ok _) => ({ node with pool := pool }, [[tx]], .ok ())

def addRemotes : TxNode → List Transaction →
    TxNode × List (List Transaction) ×
      List (Transaction × Except PoolError Unit)
  | node, [] => (node, [], [])
  | node, tx :: rest =>
      let (node, batches, result) := addTx p signer node tx
      let (node, more, results) := addRemotes node rest
      (node, batches ++ more, (tx, result) :: results)

/-- `ProcessRemoteTxs` of the two workers. -/
def processRemoteTxs (node : TxNode) (txs : List Transaction) :
    TxNode × List (List Transaction) ×
      List (Transaction × Except PoolError Unit) :=
  if node.operator then addRemotes p signer node txs else (node, [], [])

/-- Transactions are not downloaded. -/
def txWorkers : Workers TxNode PoolDuty Empty Reload Transaction
    (List (Transaction × Except PoolError Unit)) where
  encodes := Transaction.encodes
  act node duty :=
    match duty with
    | .addLocal tx =>
        let (node, batches, _) := addTx p signer node tx
        (node, batches)
    | .removeTxs txs =>
        ({ node with
            pool := txs.foldl (fun pool tx => pool.removeTx p (p.txHash tx))
              node.pool }, [])
    | .written reader => ({ node with reader := reader }, [])
  take node _ txs := processRemoteTxs p signer node txs
  serve node _ := (node, none)
  asks _ := false
  fetched node _ _ := (node, [], [])
  restart node reload :=
    { node with pool := reload.pool, reader := reload.reader }

end Handler

abbrev TxNetwork (Peer : Type) :=
  Gossip.Network Peer Transaction Hash TxNode maxKnownTxs

abbrev TxMove (Peer : Type) := Move Peer PoolDuty Empty Reload

section Run

variable {Peer : Type} [DecidableEq Peer]

def gossipTxs (p : Primitives) (signer : EIP155Signer) (net : TxNetwork Peer)
    (moves : List (TxMove Peer)) :
    TxNetwork Peer × List (Report Peer Transaction
      (List (Transaction × Except PoolError Unit))) :=
  execute (Gossip.Network.step (txWorkers p signer) p.txHash) net moves

section Steps

variable (p : Primitives) (signer : EIP155Signer)

theorem addTx_spec (node : TxNode) (tx : Transaction) :
    (addTx p signer node tx).1.operator = node.operator ∧
      ((∃ failure, addTx p signer node tx = (node, [], .error failure)) ∨
        (addTx p signer node tx).2 = ([[tx]], .ok ())) := by
  unfold addTx
  split
  · exact ⟨rfl, .inl ⟨_, rfl⟩⟩
  · exact ⟨rfl, .inr rfl⟩

theorem addRemotes_cons (node : TxNode) (tx : Transaction)
    (rest : List Transaction) :
    addRemotes p signer node (tx :: rest) =
      ((addRemotes p signer (addTx p signer node tx).1 rest).1,
        (addTx p signer node tx).2.1 ++
          (addRemotes p signer (addTx p signer node tx).1 rest).2.1,
        (tx, (addTx p signer node tx).2.2) ::
          (addRemotes p signer (addTx p signer node tx).1 rest).2.2) := rfl

/-- Every transaction offered by a peer is refused or put into the channel,
and nothing else is put there. -/
theorem addRemotes_spec (txs : List Transaction) (node : TxNode) :
    (addRemotes p signer node txs).1.operator = node.operator ∧
      (∀ batch ∈ (addRemotes p signer node txs).2.1, ∀ tx ∈ batch,
        tx ∈ txs) ∧
      ∀ tx ∈ txs, [tx] ∈ (addRemotes p signer node txs).2.1 ∨
        ∃ failure, (tx, .error failure) ∈
          (addRemotes p signer node txs).2.2 := by
  induction txs generalizing node with
  | nil => simp [addRemotes]
  | cons first rest induction =>
      obtain ⟨kind, outcome⟩ := addTx_spec p signer node first
      obtain ⟨same, origin, settled⟩ := induction (addTx p signer node first).1
      rw [addRemotes_cons]
      refine ⟨same.trans kind, ?_, ?_⟩
      · intro batch member tx part
        rcases List.mem_append.mp member with now | later
        · rcases outcome with ⟨failure, refused⟩ | accepted
          · rw [refused] at now
            cases now
          · rw [accepted] at now
            cases List.mem_singleton.mp now
            cases List.mem_singleton.mp part
            exact List.mem_cons_self
        · exact List.mem_cons_of_mem _ (origin batch later tx part)
      · intro tx member
        rcases List.mem_cons.mp member with rfl | later
        · rcases outcome with ⟨failure, refused⟩ | accepted
          · refine .inr ⟨failure, ?_⟩
            rw [refused]
            exact List.mem_cons_self
          · refine .inl (List.mem_append_left _ ?_)
            rw [accepted]
            exact List.mem_singleton.mpr rfl
        · rcases settled tx later with pushed | ⟨failure, refused⟩
          · exact .inl (List.mem_append_right _ pushed)
          · exact .inr ⟨failure, List.mem_cons_of_mem _ refused⟩

theorem processRemoteTxs_spec (node : TxNode) (txs : List Transaction) :
    (processRemoteTxs p signer node txs).1.operator = node.operator ∧
      (∀ batch ∈ (processRemoteTxs p signer node txs).2.1, ∀ tx ∈ batch,
        node.operator = true ∧ tx ∈ txs) ∧
      (node.operator = true → ∀ tx ∈ txs,
        [tx] ∈ (processRemoteTxs p signer node txs).2.1 ∨
          ∃ failure, (tx, .error failure) ∈
            (processRemoteTxs p signer node txs).2.2) := by
  unfold processRemoteTxs
  split
  · rename_i operator
    obtain ⟨same, origin, settled⟩ := addRemotes_spec p signer txs node
    exact ⟨same, fun batch member tx part =>
      ⟨operator, origin batch member tx part⟩, fun _ => settled⟩
  · rename_i validator
    exact ⟨rfl, by simp, fun operator => absurd operator validator⟩

/-- What a step says about the pool of a host. -/
structure Handles (node next : TxNode) (move : TxMove Peer) (name : Peer)
    (reports : List (Report Peer Transaction
      (List (Transaction × Except PoolError Unit)))) : Prop where
  role : next.operator = node.operator
  origin : ∀ batch ∈ pushes name reports, ∀ tx ∈ batch,
    move = .act name (.addLocal tx) ∨
      (node.operator = true ∧ ∃ envelope outcome,
        Report.received envelope outcome ∈ reports ∧
          envelope.receiver = name ∧ tx ∈ envelope.items)
  unserved : ∀ tx, .served name tx ∉ reports
  settled : ∀ envelope outcome, Report.received envelope outcome ∈ reports →
    envelope.receiver = name → node.operator = true →
      ∀ tx ∈ envelope.items, [tx] ∈ pushes name reports ∨
        ∃ failure, (tx, .error failure) ∈ outcome

theorem handles_step (net : TxNetwork Peer) (move : TxMove Peer)
    (name : Peer) :
    Handles (net.hosts name).worker
      ((net.step (txWorkers p signer) p.txHash move).1.hosts name).worker move
      name (net.step (txWorkers p signer) p.txHash move).2 := by
  have works := net.works_step (txWorkers p signer) p.txHash move name
  generalize ((net.step (txWorkers p signer) p.txHash move).1.hosts
    name).worker = next,
    (net.step (txWorkers p signer) p.txHash move).2 = reports at works ⊢
  cases works with
  | idle silent unasked deaf =>
      refine ⟨rfl, by simp [silent], unasked, ?_⟩
      intro envelope outcome reported mine
      exact absurd mine (deaf envelope outcome reported)
  | act duty =>
      refine ⟨?_, ?_, by simp, by simp⟩
      · cases duty with
        | addLocal tx => exact (addTx_spec p signer _ tx).1
        | removeTxs txs => rfl
        | written reader => rfl
      · intro batch member tx part
        rw [pushes_pushed, if_pos rfl] at member
        cases duty with
        | addLocal submitted =>
            left
            rcases (addTx_spec p signer (net.hosts name).worker
                submitted).2 with
              ⟨failure, refused⟩ | accepted
            · simp [txWorkers, refused] at member
            · simp only [txWorkers, accepted, List.mem_singleton] at member
              rw [member] at part
              cases List.mem_singleton.mp part
              rfl
        | removeTxs txs => cases member
        | written reader => cases member
  | take index pick reload travelling encodes mine =>
      rename_i envelope
      obtain ⟨role, origin, settled⟩ := processRemoteTxs_spec p signer
        (net.hosts name).worker envelope.items
      refine ⟨role, ?_, by simp, ?_⟩
      · intro batch member tx part
        rw [pushes_received, pushes_pushed, if_pos rfl] at member
        obtain ⟨operator, carried⟩ := origin batch member tx part
        exact .inr ⟨operator, envelope, _, List.mem_cons_self, mine, carried⟩
      · intro other outcome reported _ operator
        simp only [List.mem_cons, List.mem_map, reduceCtorEq, and_false,
          exists_false, or_false, Report.received.injEq] at reported
        obtain ⟨rfl, rfl⟩ := reported
        rw [pushes_received, pushes_pushed, if_pos rfl]
        exact settled operator
  | serve host request => cases request
  | fetch request => cases request
  | restart reload => exact ⟨rfl, by simp, by simp, by simp⟩

end Steps

section Custody

variable (start : TxNetwork Peer)

/-- What is known about the transactions of a run: every batch comes from a
submission at its host or, at an operator, from a message; and an operator has
put what it took into the channel or refused it. -/
structure Custody (moves : List (TxMove Peer)) (net : TxNetwork Peer)
    (history : List (Report Peer Transaction
      (List (Transaction × Except PoolError Unit)))) : Prop where
  role : ∀ name, (net.hosts name).worker.operator =
    (start.hosts name).worker.operator
  origin : ∀ name, ∀ batch ∈ pushes name history, ∀ tx ∈ batch,
    .act name (.addLocal tx) ∈ moves ∨
      ((start.hosts name).worker.operator = true ∧
        ∃ envelope outcome, Report.received envelope outcome ∈ history ∧
          envelope.receiver = name ∧ tx ∈ envelope.items)
  unserved : ∀ name tx, .served name tx ∉ history
  settled : ∀ envelope outcome, Report.received envelope outcome ∈ history →
    (start.hosts envelope.receiver).worker.operator = true →
      ∀ tx ∈ envelope.items,
        [tx] ∈ pushes envelope.receiver history ∨
          ∃ failure, (tx, .error failure) ∈ outcome

variable {start} {p : Primitives} {signer : EIP155Signer}

theorem Custody.step {moves : List (TxMove Peer)} {net : TxNetwork Peer}
    {history : List (Report Peer Transaction
      (List (Transaction × Except PoolError Unit)))}
    (custody : Custody start moves net history) (move : TxMove Peer) :
    Custody start (moves ++ [move])
      (net.step (txWorkers p signer) p.txHash move).1
      (history ++ (net.step (txWorkers p signer) p.txHash move).2) where
  role := by
    intro name
    exact (handles_step p signer net move name).role.trans (custody.role name)
  origin := by
    intro name batch pushed tx part
    rw [pushes_append] at pushed
    rcases List.mem_append.mp pushed with earlier | new
    · rcases custody.origin name batch earlier tx part with
        submitted | ⟨operator, envelope, outcome, received, rest⟩
      · exact .inl (List.mem_append_left _ submitted)
      · exact .inr ⟨operator, envelope, outcome,
          List.mem_append_left _ received, rest⟩
    · rcases (handles_step p signer net move name).origin batch new tx part with
        rfl | ⟨operator, envelope, outcome, received, rest⟩
      · exact .inl (List.mem_append_right _ (List.mem_singleton.mpr rfl))
      · rw [custody.role] at operator
        exact .inr ⟨operator, envelope, outcome,
          List.mem_append_right _ received, rest⟩
  unserved := by
    intro name tx served
    rcases List.mem_append.mp served with earlier | new
    · exact custody.unserved name tx earlier
    · exact (handles_step p signer net move name).unserved tx new
  settled := by
    intro envelope outcome reported operator tx carried
    rw [pushes_append]
    rcases List.mem_append.mp reported with earlier | new
    · rcases custody.settled envelope outcome earlier operator tx carried with
        pushed | refused
      · exact .inl (List.mem_append_left _ pushed)
      · exact .inr refused
    · rw [← custody.role] at operator
      rcases (handles_step p signer net move envelope.receiver).settled envelope
          outcome new rfl operator tx carried with
        pushed | refused
      · exact .inl (List.mem_append_right _ pushed)
      · exact .inr refused

theorem custody_run (moves : List (TxMove Peer)) :
    Custody start moves (gossipTxs p signer start moves).1
      (gossipTxs p signer start moves).2 := by
  refine execute_invariant (Gossip.Network.step (txWorkers p signer) p.txHash)
    (fun moves net history => Custody start moves net history) ?_ ?_ moves
  · intro moves net history move custody
    exact custody.step move
  · exact ⟨fun _ => rfl, by simp, by simp, by simp⟩

end Custody

end Run

namespace Sample

open Core.Sample

def reader : UtxoReader := fun id =>
  if id = ⟨1, 0, 0⟩ then some ⟨id, ⟨alice, 5⟩⟩ else none

def txPair : TxNetwork Bool :=
  .start (fun operator => ⟨operator, TxPool.empty, reader⟩)
    fun operator => [!operator]

def submission : List (TxMove Bool) :=
  [.act false (.addLocal spend), .broadcast false, .send false,
    .receive 0 0 ⟨TxPool.empty, reader⟩, .broadcast true]

end Sample

section Run

variable {Peer : Type} [DecidableEq Peer]

/-- The cache of no host is for the host itself. -/
def NoSelfLink (net : TxNetwork Peer) (moves : List (TxMove Peer)) : Prop :=
  ∀ name, ¬ net.Linked name name ∧ .connect name name ∉ moves

/-- When one host alone is the operator, every transaction it hears of was
submitted at the very host that sent it: none is passed on by a third one. -/
theorem operator_hears_of_submitted_txs (p : Primitives)
    (signer : EIP155Signer) {net : TxNetwork Peer} (fresh : net.Fresh)
    {operator : Peer}
    (alone : ∀ name, (net.hosts name).worker.operator = true →
      name = operator)
    {moves : List (TxMove Peer)} (apart : NoSelfLink net moves)
    {envelope : Envelope Peer Transaction}
    {outcome : List (Transaction × Except PoolError Unit)}
    (received : Report.received envelope outcome ∈
      (gossipTxs p signer net moves).2)
    (goal : envelope.receiver = operator) :
    ∀ tx ∈ envelope.items, .act envelope.sender (.addLocal tx) ∈ moves := by
  intro tx carried
  have traced : Traced (txWorkers p signer).encodes p.txHash
      (gossipTxs p signer net moves).1
      (gossipTxs p signer net moves).2 := traced_run fresh moves
  have custody : Custody net moves (gossipTxs p signer net moves).1
      (gossipTxs p signer net moves).2 := custody_run moves
  have sent := traced.received _ (mem_receipts.mpr received)
  obtain ⟨_, batch, pushed, part⟩ := traced.sent envelope sent tx carried
  rcases custody.origin envelope.sender batch pushed tx part with
    submitted | ⟨relays, _⟩
  · exact submitted
  · have self : envelope.sender = envelope.receiver :=
      (alone envelope.sender relays).trans goal.symm
    exact absurd self (messages_apart fresh.idle (fun name => (apart name).1)
      (fun name => (apart name).2) envelope sent)

/-- The operator hears of the payment from the host where it was submitted. -/
theorem operator_hears_of_payment :
    ∃ envelope outcome, Report.received envelope outcome ∈
        (gossipTxs Core.Sample.primitives Core.Sample.signer Sample.txPair
          Sample.submission).2 ∧
      ∀ tx ∈ envelope.items,
        .act envelope.sender (.addLocal tx) ∈ Sample.submission := by
  have received : Report.received ⟨false, true, [Core.Sample.spend]⟩
      [(Core.Sample.spend, .ok ())] ∈
        (gossipTxs Core.Sample.primitives Core.Sample.signer Sample.txPair
          Sample.submission).2 := by
    decide +kernel
  have alone : ∀ name, (Sample.txPair.hosts name).worker.operator = true →
      name = true := by
    intro name operator
    exact operator
  have apart : NoSelfLink Sample.txPair Sample.submission := by
    intro name
    constructor
    · intro linked
      have present := Gossip.Network.start_linked.mp linked
      clear linked
      revert name
      decide
    · simp [Sample.submission]
  exact ⟨_, _, received, operator_hears_of_submitted_txs
    Core.Sample.primitives Core.Sample.signer
    (Gossip.Network.start_fresh _ _) alone apart received rfl⟩

end Run

end Plasma.Network

