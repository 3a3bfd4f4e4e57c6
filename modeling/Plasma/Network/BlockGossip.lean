import Plasma.Lib.Flooding
import Plasma.Core.Holdings

/-!
# Gossip of blocks

The block handlers of the peers form a flooding network.  `WriteBlock` puts a
block into the channel of `broadcastBlock` before it is committed, and
`recvBlock` puts it there once more when it was written.  A validator also
downloads blocks, which `recvBlock` does not see.
-/

namespace Plasma.Network

open Plasma.Core Plasma.Lib Plasma.Lib.Gossip

def maxKnownBlocks : ℕ := 1000

instance : NeZero maxKnownBlocks := ⟨by decide⟩

/-- What a call of `WriteBlock` meets: a transaction that another goroutine has
open, and the disk. -/
structure Encounter where
  busy : Bool
  disk : Bool
deriving DecidableEq, Repr

/-- The calls a node makes on its own account. -/
inductive Duty where
  | sealTxs (time : Int) (disk submits : Bool) (txs : List Transaction)
  | depositEvent (time : Int) (disk : Bool) (number : Int)
      (depositor token : Address) (amount : Int)
deriving DecidableEq, Repr

namespace Duty

def step : Duty → NodeStep
  | .sealTxs time disk submits txs => .sealTxs time disk submits txs
  | .depositEvent time disk number depositor token amount =>
      .depositEvent time disk number depositor token amount

def disk : Duty → Bool
  | .sealTxs _ disk _ _ => disk
  | .depositEvent _ disk _ _ _ _ => disk

/-- The block that the duty makes an operator build is storable. -/
def storable (p : Primitives) : Node → Duty → Bool
  | .operator o, .sealTxs time _ _ txs =>
      (o.constructBlock p time txs).2.storable
  | .operator o, .depositEvent time _ number depositor _ amount =>
      (o.constructDepositBlock p time number
        (Operator.depositTx depositor amount)).storable
  | _, _ => true

/-- The disk works and the block is storable. -/
def Allowed (p : Primitives) (node : Node) (duty : Duty) : Prop :=
  duty.disk = true ∧ duty.storable p node = true

instance (p : Primitives) (node : Node) : DecidablePred (Allowed p node) :=
  fun duty =>
    inferInstanceAs (Decidable (duty.disk = true ∧ duty.storable p node = true))

end Duty

section Handler

variable (p : Primitives) (signer : EIP155Signer)

/-- The broadcast blocks go into the channel one by one. -/
def channel (events : List NodeEvent) : List (List Block) :=
  (broadcastBlocks events).map fun block => [block]

/-- A process that failed to start gives no answer. -/
def writeBlock (node : Node) (meets : Encounter) (block : Block) :
    Node × List (List Block) × Option (Except WriteError Unit) :=
  if meets.busy then (node, [], node.chain?.map fun _ => .error .databaseRace)
  else
    let (node, events, result) := node.writeBlock p signer meets.disk block
    (node, channel events, result)

/-- A written block is transmitted once more. -/
def recvBlock (node : Node) (meets : Encounter) (block : Block) :
    Node × List (List Block) × Option (Except WriteError Unit) :=
  let (node, batches, result) := writeBlock p signer node meets block
  match result with
  | some (.ok _) => (node, batches ++ [[block]], result)
  | _ => (node, batches, result)

/-- The blocks of a message; a message of `broadcastBlock` carries one. -/
def recvBlocks (meets : Encounter) :
    Node → List Block → Node × List (List Block) ×
      List (Block × Option (Except WriteError Unit))
  | node, [] => (node, [], [])
  | node, block :: rest =>
      let (node, batches, result) := recvBlock p signer node meets block
      let (node, more, results) := recvBlocks meets node rest
      (node, batches ++ more, (block, result) :: results)

/-- The answer to a peer that downloads. -/
def getBlock (node : Node) (number : UInt64) : Node × Option Block :=
  match node.chain? with
  | none => (node, none)
  | some chain =>
      let (chain, block) := chain.getBlockByNumber p number
      (node.withChain chain, block)

def downloads : Node → Bool
  | .validator _ => true
  | _ => false

def blockWorkers : Workers Node Duty UInt64 Encounter Block
    (List (Block × Option (Except WriteError Unit))) where
  encodes := Block.encodes
  act node duty :=
    let (node, events) := node.step p signer duty.step
    (node, channel events)
  take node meets blocks := recvBlocks p signer meets node blocks
  serve := getBlock p
  asks := downloads
  fetched node meets block :=
    let (node, batches, result) := writeBlock p signer node meets block
    (node, batches, [(block, result)])
  restart node meets := (node.step p signer (.restart meets.disk)).1

end Handler

abbrev BlockNetwork (Peer : Type) :=
  Gossip.Network Peer Block Hash Node maxKnownBlocks

abbrev BlockMove (Peer : Type) := Move Peer Duty UInt64 Encounter

section Send

variable {Peer : Type}

/-- The peers that are not known to have a block. -/
def peerIDsWithoutBlock
    (caches : AList fun _ : Peer => Known Hash maxKnownBlocks) (hash : Hash) :
    List Peer :=
  (caches.entries.filter fun entry => hash ∉ entry.2).map Sigma.fst

/-- `broadcastBlock` sends the block to the peers without it. -/
theorem recipients_block (p : Primitives) (block : Block)
    (caches : AList fun _ : Peer => Known Hash maxKnownBlocks) :
    recipients (Block.hash p) [block] caches =
      (peerIDsWithoutBlock caches (block.hash p)).map fun peer =>
        (peer, [block]) := by
  unfold recipients peerIDsWithoutBlock
  induction caches.entries with
  | nil => rfl
  | cons entry entries induction =>
      rw [List.map_cons, List.filter_cons, List.filter_cons, induction]
      by_cases present : block.hash p ∈ entry.2 <;> simp [unknown, present]

end Send

/-- The block was not written: the process does not run, another transaction
is open, or the validator refuses a block that is new to it. -/
def Refusal (block : Block) (result : Option (Except WriteError Unit)) :
    Prop :=
  result = none ∨ result = some (.error .databaseRace) ∨
    (block.onDepositPath = false ∧
      ∃ failure, failure ≠ .knownBlock ∧
        result = some (.error (.block failure)))

def RefusedBlock (block : Block)
    (outcome : List (Block × Option (Except WriteError Unit))) : Prop :=
  ∃ result, (block, result) ∈ outcome ∧ Refusal block result

section Store

variable {p : Primitives} (signer : EIP155Signer)

theorem grows_of_wrote {node next : Node} {block : Block}
    {broadcasts : List Block} {result : Except WriteError Unit}
    (wrote : Node.Wrote p signer node next block broadcasts result) :
    Grows Block.encodes (Block.hash p) (Node.InOrder p) Node.HoldsHash node
        next (broadcasts.map fun block => [block]) ∧
      (block.encodes = true →
        next.HoldsHash (block.hash p) ∨ Refusal block (some result)) := by
  rcases wrote.effect with
    ⟨rfl, rfl, _, _, holds⟩ | ⟨rfl, same, path, failure, rfl, known⟩
  · refine ⟨⟨wrote.inOrder, ?_, ?_, ?_⟩,
      fun encodes => .inl ((holds _).mpr (.inl ⟨rfl, encodes⟩))⟩
    · intro hash held
      exact (holds hash).mpr (.inr held)
    · intro batch member other part encodes
      cases List.mem_singleton.mp member
      cases List.mem_singleton.mp part
      exact (holds _).mpr (.inl ⟨rfl, encodes⟩)
    · intro hash held
      rcases (holds hash).mp held with ⟨rfl, encodes⟩ | before
      · exact .inr ⟨[block], by simp, by simp [encodes], block, by simp, rfl⟩
      · exact .inl before
  · have kept : ∀ hash, next.HoldsHash hash ↔ node.HoldsHash hash := by
      intro hash
      rw [Node.HoldsHash, Node.HoldsHash, same]
    refine ⟨⟨wrote.inOrder, fun hash => (kept hash).mpr, by simp,
      fun hash held => .inl ((kept hash).mp held)⟩, fun _ => ?_⟩
    by_cases repeated : failure = .knownBlock
    · exact .inl ((kept _).mpr (known repeated))
    · exact .inr (.inr (.inr ⟨path, failure, repeated, rfl⟩))

/-- A block is written or the node stays as it is. -/
theorem writeBlock_cases {node : Node} (inOrder : node.InOrder p)
    {meets : Encounter} (working : meets.disk = true) {block : Block}
    (encodes : block.encodes = true) :
    ((writeBlock p signer node meets block).1 = node ∧
      (writeBlock p signer node meets block).2.1 = [] ∧
      ((writeBlock p signer node meets block).2.2 = none ∨
        (writeBlock p signer node meets block).2.2 =
          some (.error .databaseRace))) ∨
    ∃ broadcasts result,
      Node.Wrote p signer node (writeBlock p signer node meets block).1 block
        broadcasts result ∧
      (writeBlock p signer node meets block).2.1 =
        broadcasts.map (fun block => [block]) ∧
      (writeBlock p signer node meets block).2.2 = some result := by
  unfold writeBlock
  cases running : node.chain? with
  | none =>
      left
      cases node with
      | operator o => cases running
      | validator v => cases running
      | stopped role d => split <;> exact ⟨rfl, rfl, .inl rfl⟩
  | some chain =>
      split
      · exact .inl ⟨rfl, rfl, .inr rfl⟩
      · obtain ⟨result, answered, wrote⟩ :=
          Node.wrote_writeBlock signer inOrder running
            (Block.storable_of_encodes encodes)
        rw [working]
        exact .inr ⟨_, result, wrote, rfl, answered⟩

theorem grows_writeBlock {node : Node} (inOrder : node.InOrder p)
    {meets : Encounter} (working : meets.disk = true) {block : Block}
    (encodes : block.encodes = true) :
    Grows Block.encodes (Block.hash p) (Node.InOrder p) Node.HoldsHash node
        (writeBlock p signer node meets block).1
        (writeBlock p signer node meets block).2.1 ∧
      ((writeBlock p signer node meets block).1.HoldsHash (block.hash p) ∨
        Refusal block (writeBlock p signer node meets block).2.2) := by
  rcases writeBlock_cases signer inOrder working encodes with
    ⟨same, none, refused⟩ | ⟨broadcasts, result, wrote, sent, answer⟩
  · rw [same, none]
    refine ⟨.refl inOrder, .inr ?_⟩
    rcases refused with silent | race
    · exact .inl silent
    · exact .inr (.inl race)
  · rw [sent, answer]
    obtain ⟨grows, settled⟩ := grows_of_wrote signer wrote
    exact ⟨grows, settled encodes⟩

theorem grows_recvBlock {node : Node} (inOrder : node.InOrder p)
    {meets : Encounter} (working : meets.disk = true) {block : Block}
    (encodes : block.encodes = true) :
    Grows Block.encodes (Block.hash p) (Node.InOrder p) Node.HoldsHash node
        (recvBlock p signer node meets block).1
        (recvBlock p signer node meets block).2.1 ∧
      ((recvBlock p signer node meets block).1.HoldsHash (block.hash p) ∨
        Refusal block (recvBlock p signer node meets block).2.2) := by
  obtain ⟨grows, settled⟩ :=
    grows_writeBlock signer inOrder working encodes
  simp only [recvBlock]
  split
  · rename_i written
    rw [written] at settled
    have holds := settled.resolve_right (by simp [Refusal])
    exact ⟨grows.repeated fun _ => holds, .inl holds⟩
  · exact ⟨grows, settled⟩

theorem grows_recvBlocks {meets : Encounter} (working : meets.disk = true)
    {blocks : List Block}
    (encodes : ∀ block ∈ blocks, block.encodes = true) {node : Node}
    (inOrder : node.InOrder p) :
    Grows Block.encodes (Block.hash p) (Node.InOrder p) Node.HoldsHash node
        (recvBlocks p signer meets node blocks).1
        (recvBlocks p signer meets node blocks).2.1 ∧
      ∀ block ∈ blocks,
        (recvBlocks p signer meets node blocks).1.HoldsHash (block.hash p) ∨
          RefusedBlock block (recvBlocks p signer meets node blocks).2.2 := by
  induction blocks generalizing node with
  | nil => exact ⟨.refl inOrder, by simp⟩
  | cons block blocks induction =>
      obtain ⟨first, settled⟩ :=
        grows_recvBlock signer inOrder working
          (encodes block List.mem_cons_self)
      obtain ⟨rest, others⟩ := induction
        (fun other later => encodes other (List.mem_cons_of_mem _ later))
        first.good
      refine ⟨first.trans rest, ?_⟩
      intro other member
      rcases List.mem_cons.mp member with rfl | later
      · rcases settled with holds | refused
        · exact .inl (rest.kept _ holds)
        · exact .inr ⟨_, List.mem_cons_self, refused⟩
      · rcases others other later with holds | ⟨result, reported, refused⟩
        · exact .inl holds
        · exact .inr ⟨result, List.mem_cons_of_mem _ reported, refused⟩

theorem grows_getBlock {node : Node} (inOrder : node.InOrder p)
    (number : UInt64) :
    Grows Block.encodes (Block.hash p) (Node.InOrder p) Node.HoldsHash node
        (getBlock p node number).1 [] ∧
      ∀ block, (getBlock p node number).2 = some block →
        (getBlock p node number).1.HoldsHash (block.hash p) := by
  unfold getBlock
  cases running : node.chain? with
  | none => exact ⟨.refl inOrder, by simp⟩
  | some chain =>
      obtain ⟨moved, same, answers⟩ := BlockChain.getBlockByNumber_inOrder
        (inOrder.chain running) number
      have database := Node.database_withChain running
        (chain.getBlockByNumber p number).1
      have kept : ∀ hash,
          (node.withChain (chain.getBlockByNumber p number).1).HoldsHash hash ↔
            node.HoldsHash hash := by
        intro hash
        rw [Node.HoldsHash, Node.HoldsHash, database, same,
          Node.database_of_chain running]
      refine ⟨⟨.of_chain (Node.chain_withChain running _) moved,
        fun hash => (kept hash).mpr, by simp,
        fun hash held => .inl ((kept hash).mp held)⟩, ?_⟩
      intro block found
      apply (kept _).mpr
      rw [Node.HoldsHash, Node.database_of_chain running]
      exact answers block found

/-- A duty writes a block or leaves the node as it is. -/
theorem act_cases {node : Node} (inOrder : node.InOrder p) {duty : Duty}
    (allowed : duty.Allowed p node) :
    ((node.step p signer duty.step).1 = node ∧
      channel (node.step p signer duty.step).2 = []) ∨
    ∃ block broadcasts result,
      Node.Wrote p signer node (node.step p signer duty.step).1 block broadcasts
        result ∧
      channel (node.step p signer duty.step).2 =
        broadcasts.map fun block => [block] := by
  obtain ⟨working, storable⟩ := allowed
  cases node with
  | operator o =>
      right
      cases duty with
      | sealTxs time disk submits txs =>
          cases working
          obtain ⟨block, result, wrote⟩ :=
            Node.wrote_sealTxs signer inOrder submits storable
          exact ⟨block, _, result, wrote, rfl⟩
      | depositEvent time disk number depositor token amount =>
          cases working
          obtain ⟨block, result, wrote⟩ :=
            Node.wrote_depositEvent signer inOrder storable
          exact ⟨block, _, result, wrote, rfl⟩
  | validator v => cases duty <;> exact .inl ⟨rfl, rfl⟩
  | stopped role d => cases duty <;> exact .inl ⟨rfl, rfl⟩

theorem getBlock_database (node : Node) (number : UInt64) :
    (getBlock p node number).1.database = node.database := by
  unfold getBlock
  cases running : node.chain? with
  | none => rfl
  | some chain =>
      have kept : (chain.getBlockByNumber p number).1.db = chain.db := by
        simp only [BlockChain.getBlockByNumber]
        split
        · rfl
        · exact BlockChain.getBlock_db p chain _ _
      exact (Node.database_withChain running _).trans
        (kept.trans (Node.database_of_chain running).symm)

theorem blockWorkers_store (p : Primitives) (signer : EIP155Signer) :
    (blockWorkers p signer).Store (Block.hash p) (Node.InOrder p)
      Node.HoldsHash RefusedBlock (Duty.Allowed p)
      (fun meets => meets.disk = true) where
  act := by
    intro node duty inOrder allowed
    rcases act_cases signer inOrder allowed with
      ⟨same, silent⟩ | ⟨block, broadcasts, result, wrote, sent⟩
    · simp only [blockWorkers, same, silent]
      exact .refl inOrder
    · simp only [blockWorkers, sent]
      exact (grows_of_wrote signer wrote).1
  take := by
    intro node meets blocks inOrder working encodes
    exact grows_recvBlocks signer working encodes inOrder
  serve := by
    intro node number inOrder
    obtain ⟨grows, served⟩ := grows_getBlock inOrder number
    exact ⟨grows, fun block found _ => served block found⟩
  fetched := by
    intro node meets block inOrder working encodes
    exact (grows_writeBlock signer inOrder working encodes).1
  restart := by
    intro node meets inOrder _
    obtain ⟨started, kept⟩ := Node.start_inOrder meets.disk node.role
      (d := ⟨node.database.db, false, []⟩) ⟨rfl, rfl⟩ inOrder.authentic
    refine ⟨started, ?_⟩
    rintro hash ⟨number, stored⟩
    exact ⟨number, kept number hash stored⟩

end Store

section Run

variable {Peer : Type} [DecidableEq Peer]

/-- The run of a network of block handlers. -/
def gossipBlocks (p : Primitives) (signer : EIP155Signer)
    (net : BlockNetwork Peer) (moves : List (BlockMove Peer)) :
    BlockNetwork Peer × List (Report Peer Block
      (List (Block × Option (Except WriteError Unit)))) :=
  execute (Gossip.Network.step (blockWorkers p signer) (Block.hash p)) net moves

/-- Every write to a disk succeeds, and the operators build no block on the
path for deposits that cannot be encoded. -/
def WorkingDisks (p : Primitives) (signer : EIP155Signer)
    (net : BlockNetwork Peer) (moves : List (BlockMove Peer)) : Prop :=
  StepsMeet (Gossip.Network.step (blockWorkers p signer) (Block.hash p))
    (Gossip.Network.Admits (Duty.Allowed p) fun meets => meets.disk = true)
    net moves

end Run

namespace Sample

open Core.Sample

/-- Three hosts in a row, the operator first, after their first start. -/
def worker (name : Fin 3) : Node :=
  if name = 0 then .operator operator
  else .validator (Validator.newValidator operator.chain)

def links : Fin 3 → List (Fin 3)
  | 0 => [1]
  | 1 => [0, 2]
  | 2 => [1]

def row : BlockNetwork (Fin 3) := .start worker links

def operatorHost : Fin 3 := 0

def nextHost : Fin 3 := 1

def lastHost : Fin 3 := 2

def met : Encounter := ⟨false, true⟩

/-- The deposit block goes from host to host. -/
def depositMoves : List (BlockMove (Fin 3)) :=
  [.act 0 (.depositEvent now true 1 alice 0 5), .broadcast 0, .send 0,
    .receive 0 0 met, .broadcast 1, .send 1, .broadcast 1, .send 1,
    .receive 0 0 met, .receive 0 0 met, .broadcast 2, .broadcast 2,
    .broadcast 2, .broadcast 2]

theorem row_inOrder (name : Fin 3) :
    (row.hosts name).worker.InOrder primitives := by
  have started : (Node.start primitives true (.operator operatorAddr)
      Database.empty).InOrder primitives :=
    (Node.start_inOrder true _ ⟨rfl, rfl⟩
      (by intro _ _ _ stored; cases stored)).1
  rw [Node.start, Core.Sample.started] at started
  have chain : operator.chain.InOrder primitives := started.chain rfl
  show (worker name).InOrder primitives
  unfold worker
  split
  · exact started
  · exact .of_chain rfl chain

theorem row_new (name : Fin 3) :
    ¬ (row.hosts name).worker.HoldsHash depositHash := by
  have same : (row.hosts name).worker.database = operator.chain.db := by
    show (worker name).database = operator.chain.db
    unfold worker
    split <;> rfl
  rw [Node.HoldsHash, same]
  rintro ⟨number, ⟨header, stored⟩, _⟩
  obtain rfl := genesisContents_header primitives stored
  have absent :
      (operator.chain.db.db (.header 0 depositHash)).isNone = true := by
    decide +kernel
  rw [stored] at absent
  cases absent

theorem depositMoves_working :
    WorkingDisks primitives signer row depositMoves := by
  unfold WorkingDisks
  decide +kernel

theorem depositMoves_keeps : ∀ move ∈ depositMoves, move.Keeps := by
  decide

end Sample

section Run

variable {Peer : Type} [DecidableEq Peer]

/-- With working disks a host only spares a peer a block that the peer
holds. -/
theorem known_block_is_held (p : Primitives) (signer : EIP155Signer)
    {net : BlockNetwork Peer} (fresh : net.Fresh)
    (inOrder : ∀ name, (net.hosts name).worker.InOrder p)
    {moves : List (BlockMove Peer)}
    (working : WorkingDisks p signer net moves)
    {name peer : Peer} {known : Known Hash maxKnownBlocks}
    (cache : ((gossipBlocks p signer net moves).1.hosts name).caches.lookup
      peer = some known) :
    ∀ hash ∈ known,
      ((gossipBlocks p signer net moves).1.hosts peer).worker.HoldsHash
        hash := by
  intro hash member
  have traced : Traced (blockWorkers p signer).encodes (Block.hash p)
      (gossipBlocks p signer net moves).1
      (gossipBlocks p signer net moves).2 := traced_run fresh moves
  have held := held_run (blockWorkers_store p signer) inOrder working
  obtain ⟨block, rfl, encodes, offers⟩ := traced.offered cache member
  exact held.offered peer block offers encodes

/-- The second host of the row spares the operator the deposit block. -/
theorem operator_holds_known_deposit :
    ∃ known, ((gossipBlocks Core.Sample.primitives Core.Sample.signer
        Sample.row Sample.depositMoves).1.hosts 1).caches.lookup 0 =
          some known ∧
      Core.Sample.depositHash ∈ known ∧
      ((gossipBlocks Core.Sample.primitives Core.Sample.signer Sample.row
        Sample.depositMoves).1.hosts 0).worker.HoldsHash
          Core.Sample.depositHash := by
  have marked : (((gossipBlocks Core.Sample.primitives Core.Sample.signer
      Sample.row Sample.depositMoves).1.hosts 1).caches.lookup 0).map
        (fun known => decide (Core.Sample.depositHash ∈ known)) =
          some true := by
    decide +kernel
  obtain ⟨known, cache, member⟩ := Option.map_eq_some_iff.mp marked
  have present := of_decide_eq_true member
  exact ⟨known, cache, present,
    known_block_is_held Core.Sample.primitives Core.Sample.signer
      (Gossip.Network.start_fresh _ _) Sample.row_inOrder
      Sample.depositMoves_working cache _ present⟩

/-- A block that nobody held reaches every host with a chain of links from one
that holds it, unless a host with such a chain refused it. -/
theorem block_reaches_linked_hosts (p : Primitives) (signer : EIP155Signer)
    {net : BlockNetwork Peer} (fresh : net.Fresh)
    (inOrder : ∀ name, (net.hosts name).worker.InOrder p)
    {moves : List (BlockMove Peer)}
    (working : WorkingDisks p signer net moves)
    (keeps : ∀ move ∈ moves, move.Keeps)
    (quiet : (gossipBlocks p signer net moves).1.Quiet) {hash : Hash}
    (new : ∀ name, ¬ (net.hosts name).worker.HoldsHash hash)
    {source target : Peer}
    (path : Relation.ReflTransGen net.Linked source target)
    (holds : ((gossipBlocks p signer net moves).1.hosts
      source).worker.HoldsHash hash) :
    ((gossipBlocks p signer net moves).1.hosts target).worker.HoldsHash hash ∨
      ∃ envelope outcome block,
        Report.received envelope outcome ∈ (gossipBlocks p signer net moves).2 ∧
          Relation.ReflTransGen net.Linked source envelope.receiver ∧
          block ∈ envelope.items ∧ block.hash p = hash ∧
          RefusedBlock block outcome :=
  flood_reaches (blockWorkers_store p signer) fresh inOrder working keeps quiet
    new path holds

/-- The last host of the row comes to hold the deposit block. -/
theorem deposit_block_reaches_last_host :
    ((gossipBlocks Core.Sample.primitives Core.Sample.signer Sample.row
        Sample.depositMoves).1.hosts 2).worker.HoldsHash
          Core.Sample.depositHash := by
  have reached : (∀ name, ((gossipBlocks Core.Sample.primitives
        Core.Sample.signer Sample.row Sample.depositMoves).1.hosts
          name).queue = [] ∧ ((gossipBlocks Core.Sample.primitives
        Core.Sample.signer Sample.row Sample.depositMoves).1.hosts
          name).sending = []) ∧
      (gossipBlocks Core.Sample.primitives Core.Sample.signer Sample.row
        Sample.depositMoves).1.flight = [] ∧
      (Rawdb.readBlock ((gossipBlocks Core.Sample.primitives
        Core.Sample.signer Sample.row Sample.depositMoves).1.hosts
          0).worker.database Core.Sample.depositHash 1).isSome = true ∧
      ∀ receipt ∈ receipts (gossipBlocks Core.Sample.primitives
          Core.Sample.signer Sample.row Sample.depositMoves).2,
        ∀ answer ∈ receipt.2, answer.2 = some (.ok ()) := by
    decide +kernel
  obtain ⟨idle, flight, served, written⟩ := reached
  obtain ⟨block, read⟩ := Option.isSome_iff_exists.mp served
  have first : Sample.row.Linked 0 1 :=
    Gossip.Network.start_linked.mpr (by decide)
  have second : Sample.row.Linked 1 2 :=
    Gossip.Network.start_linked.mpr (by decide)
  have path : Relation.ReflTransGen Sample.row.Linked 0 2 :=
    .tail (.single first) second
  rcases block_reaches_linked_hosts Core.Sample.primitives Core.Sample.signer
      (Gossip.Network.start_fresh _ _) Sample.row_inOrder
      Sample.depositMoves_working Sample.depositMoves_keeps ⟨idle, flight⟩
      Sample.row_new path ⟨1, (BlockChain.storedAt_of_readBlock read).2⟩ with
    holds | ⟨envelope, outcome, other, received, _, _, _, result, reported,
      refused⟩
  · exact holds
  · have accepted := written _ (mem_receipts.mpr received) _ reported
    simp only at accepted
    rw [accepted] at refused
    simp [Refusal] at refused

/-- A host that keeps its cache for a peer and hears of fewer than a thousand
blocks from there sends the peer a block only if it had not heard of it from
there when it chose the recipients. -/
theorem block_not_sent_back (p : Primitives) (signer : EIP155Signer)
    {net : BlockNetwork Peer} (fresh : net.Fresh) {name peer : Peer}
    {moves : List (BlockMove Peer)}
    (keeps : ∀ move ∈ moves, move.KeepsCache name peer)
    (few : (keysFrom (Block.hash p) name peer
      (gossipBlocks p signer net moves).2).card < 1000)
    {before after : List (Report Peer Block
      (List (Block × Option (Except WriteError Unit))))}
    {envelope : Envelope Peer Block}
    (split : (gossipBlocks p signer net moves).2 =
      before ++ .sent envelope :: after)
    (origin : envelope.sender = name) (goal : envelope.receiver = peer) :
    ∃ earlier later, before = earlier ++ .addressed envelope :: later ∧
      ∀ block ∈ envelope.items, ∀ other ∈ heardFrom name peer earlier,
        other.hash p ≠ block.hash p := by
  have chosen : .addressed envelope ∈ before := addressed_of_sent fresh split
  obtain ⟨earlier, later, rfl⟩ := List.append_of_mem chosen
  refine ⟨earlier, later, rfl, ?_⟩
  rw [List.append_assoc, List.cons_append] at split
  exact no_echo fresh keeps few split origin goal

namespace Sample

open Core.Sample

/-- Two processes of the operator that are linked to each other. -/
def pair : BlockNetwork (Fin 2) :=
  .start (fun _ => .operator operator) fun name => if name = 0 then [1] else [0]

/-- The second one receives the first deposit block and writes the next
one. -/
def exchange : List (BlockMove (Fin 2)) :=
  [.act 0 (.depositEvent now true 1 alice 0 5), .broadcast 0, .send 0,
    .receive 0 0 met, .broadcast 1, .broadcast 1,
    .act 1 (.depositEvent now true 2 alice 0 5), .broadcast 1, .send 1]

def nextDeposit : Block := ⟨header depositHash depositRoot 2, [deposit]⟩

end Sample

/-- The second process sends the next deposit block, which it had not heard of
when it chose the recipient. -/
theorem next_deposit_sent_alone :
    ∃ before envelope,
      (gossipBlocks Core.Sample.primitives Core.Sample.signer Sample.pair
          Sample.exchange).2 = before ++ [.sent envelope] ∧
        (heardFrom 1 0 before).length = 1 ∧
        ∃ earlier later, before = earlier ++ .addressed envelope :: later ∧
          ∀ block ∈ envelope.items, ∀ other ∈ heardFrom 1 0 earlier,
            other.hash Core.Sample.primitives ≠
              block.hash Core.Sample.primitives := by
  have facts : (gossipBlocks Core.Sample.primitives Core.Sample.signer
        Sample.pair Sample.exchange).2.getLast? =
          some (.sent ⟨1, 0, [Sample.nextDeposit]⟩) ∧
      (heardFrom 1 0 (gossipBlocks Core.Sample.primitives Core.Sample.signer
        Sample.pair Sample.exchange).2.dropLast).length = 1 ∧
      (keysFrom (Block.hash Core.Sample.primitives) 1 0 (gossipBlocks
        Core.Sample.primitives Core.Sample.signer Sample.pair
          Sample.exchange).2).card < 1000 := by
    decide +kernel
  obtain ⟨last, heard, few⟩ := facts
  have split : (gossipBlocks Core.Sample.primitives Core.Sample.signer
      Sample.pair Sample.exchange).2 =
        (gossipBlocks Core.Sample.primitives Core.Sample.signer Sample.pair
          Sample.exchange).2.dropLast ++
            [.sent ⟨1, 0, [Sample.nextDeposit]⟩] :=
    (List.dropLast_append_getLast? _ last).symm
  exact ⟨_, _, split, heard,
    block_not_sent_back Core.Sample.primitives Core.Sample.signer
      (Gossip.Network.start_fresh _ _) (by decide) few split rfl rfl⟩

end Run

end Plasma.Network
