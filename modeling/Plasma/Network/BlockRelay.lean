import Plasma.Network.BlockGossip

/-!
# How often a block is relayed

A block on the validated path is refused once it is stored.  `WriteBlock` and
`recvBlock` each put it into the channel once, so that a host sends it to a
peer at most twice.  A block that cannot be encoded is not sent at all.
-/

namespace Plasma.Network

open Plasma.Core Plasma.Lib Plasma.Lib.Gossip

/-- What a written block is put into the channel as: once by `WriteBlock`, and
once more by `recvBlock`. -/
structure Batched (block : Block) (broadcasts : List Block)
    (batches : List (List Block)) : Prop where
  same : ∀ batch ∈ batches, batch = [block]
  few : batches.length ≤ 2
  silent : batches = [] ↔ broadcasts = []

/-- A relation between a node and what it has put into the channel that holds
after every written block, and while the recorded outputs stay as they are and
the stored blocks are kept. -/
structure WriteRule (p : Primitives) (signer : EIP155Signer)
    (Inv : Node → List (List Block) → Prop) : Prop where
  inOrder : ∀ node done, Inv node done → node.InOrder p
  wrote : ∀ node next block broadcasts result done batches, Inv node done →
    Node.Wrote p signer node next block broadcasts result →
    Batched block broadcasts batches → Inv next (done ++ batches)
  stays : ∀ node next done, Inv node done → next.InOrder p →
    next.utxoSet = node.utxoSet →
    (∀ number hash, StoredAt node.database.db number hash →
      StoredAt next.database.db number hash) → Inv next done

namespace WriteRule

variable {p : Primitives} {signer : EIP155Signer}
  {Inv : Node → List (List Block) → Prop} (rule : WriteRule p signer Inv)

include rule

theorem single {node next : Node} {done : List (List Block)}
    (holds : Inv node done) {block : Block} {broadcasts : List Block}
    {result : Except WriteError Unit}
    (wrote : Node.Wrote p signer node next block broadcasts result) :
    Inv next (done ++ broadcasts.map fun block => [block]) := by
  apply rule.wrote node next block broadcasts result done _ holds wrote
  rcases wrote.effect with ⟨rfl, _⟩ | ⟨rfl, _⟩
  · exact ⟨by simp, by simp, by simp⟩
  · exact ⟨by simp, by simp, by simp⟩

theorem writeBlock {node : Node} {done : List (List Block)}
    (holds : Inv node done) {meets : Encounter} (working : meets.disk = true)
    {block : Block} (encodes : block.encodes = true) :
    Inv (writeBlock p signer node meets block).1
      (done ++ (writeBlock p signer node meets block).2.1) := by
  rcases writeBlock_cases signer (rule.inOrder node done holds) working encodes
    with ⟨same, none, _⟩ | ⟨broadcasts, result, wrote, sent, _⟩
  · rw [same, none, List.append_nil]
    exact holds
  · rw [sent]
    exact rule.single holds wrote

theorem recvBlock {node : Node} {done : List (List Block)}
    (holds : Inv node done) {meets : Encounter} (working : meets.disk = true)
    {block : Block} (encodes : block.encodes = true) :
    Inv (recvBlock p signer node meets block).1
      (done ++ (recvBlock p signer node meets block).2.1) := by
  have once := rule.writeBlock holds working encodes
  simp only [Network.recvBlock]
  split
  · rename_i written
    rcases writeBlock_cases signer (rule.inOrder node done holds) working encodes
      with ⟨_, _, refused⟩ | ⟨broadcasts, result, wrote, sent, answer⟩
    · rw [written] at refused
      simp at refused
    · rw [sent]
      apply rule.wrote node _ block broadcasts result done _ holds wrote
      rcases wrote.effect with ⟨rfl, _⟩ | ⟨_, _, _, failure, rfl, _⟩
      · exact ⟨by simp, by simp, by simp⟩
      · rw [written] at answer
        simp at answer
  · exact once

theorem recvBlocks {meets : Encounter} (working : meets.disk = true)
    {blocks : List Block}
    (encodes : ∀ block ∈ blocks, block.encodes = true) {node : Node}
    {done : List (List Block)} (holds : Inv node done) :
    Inv (recvBlocks p signer meets node blocks).1
      (done ++ (recvBlocks p signer meets node blocks).2.1) := by
  induction blocks generalizing node done with
  | nil => simpa [Network.recvBlocks] using holds
  | cons block blocks induction =>
      have rest := induction
        (fun other later => encodes other (List.mem_cons_of_mem _ later))
        (rule.recvBlock holds working (encodes block List.mem_cons_self))
      rw [List.append_assoc] at rest
      exact rest

/-- Every call of the block handlers keeps the relation. -/
theorem keeps :
    (blockWorkers p signer).Keeps Inv (Duty.Allowed p)
      (fun meets => meets.disk = true) where
  act := by
    intro node duty done holds allowed
    rcases act_cases signer (rule.inOrder node done holds) allowed with
      ⟨same, silent⟩ | ⟨block, broadcasts, result, wrote, sent⟩
    · simp only [blockWorkers, same, silent, List.append_nil]
      exact holds
    · simp only [blockWorkers, sent]
      exact rule.single holds wrote
  take := by
    intro node meets blocks done holds working encodes
    exact rule.recvBlocks working encodes holds
  serve := by
    intro node number done holds
    have database := getBlock_database (p := p) node number
    apply rule.stays node _ done holds
    · exact (grows_getBlock (rule.inOrder node done holds) number).1.good
    · exact congrArg (fun d => Rawdb.utxos d.db) database
    · intro number hash stored
      simp only [blockWorkers, database]
      exact stored
  fetched := by
    intro node meets block done holds working encodes
    exact rule.writeBlock holds working encodes
  restart := by
    intro node meets done holds _
    obtain ⟨started, kept⟩ := Node.start_inOrder meets.disk node.role
      (d := ⟨node.database.db, false, []⟩) ⟨rfl, rfl⟩
      (rule.inOrder node done holds).authentic
    have outputs := Node.utxos_of_gainsStartData (gainsStartData_start p
      meets.disk node.role (d := ⟨node.database.db, false, []⟩) rfl)
    exact rule.stays node _ done holds started outputs kept

end WriteRule

/-- How often a block on the validated path with an encoding was put into the
channel. -/
structure Relays (p : Primitives) (block : Block) (node : Node)
    (done : List (List Block)) : Prop where
  inOrder : node.InOrder p
  bound : done.countP (block ∈ ·) ≤ 2
  stored : 0 < done.countP (block ∈ ·) → Stored p node.database.db block

theorem relays_writeRule (p : Primitives) (signer : EIP155Signer)
    {block : Block} (path : block.onDepositPath = false)
    (encodes : block.encodes = true) :
    WriteRule p signer (Relays p block) where
  inOrder := by
    intro node done relays
    exact relays.inOrder
  wrote := by
    intro node next other broadcasts result done batches relays wrote batched
    rcases wrote.effect with
      ⟨_, _, stored, new, _⟩ | ⟨none, database, _⟩
    · by_cases mine : other = block
      · subst mine
        have first : done.countP (other ∈ ·) = 0 := by
          by_contra some
          exact new path (relays.stored (Nat.pos_of_ne_zero some))
        refine ⟨wrote.inOrder, ?_, ?_⟩
        · rw [List.countP_append, first, Nat.zero_add]
          exact List.countP_le_length.trans batched.few
        · exact fun _ => stored other (.inl ⟨rfl, encodes⟩)
      · have others : batches.countP (block ∈ ·) = 0 := by
          apply List.countP_eq_zero.mpr
          intro batch member
          rw [batched.same batch member]
          simp [Ne.symm mine]
        refine ⟨wrote.inOrder, ?_, ?_⟩
        · rw [List.countP_append, others]
          exact relays.bound
        · intro some
          rw [List.countP_append, others] at some
          exact stored block (.inr (relays.stored some))
    · rw [batched.silent.mpr none, List.append_nil]
      refine ⟨wrote.inOrder, relays.bound, ?_⟩
      rw [database]
      exact relays.stored
  stays := by
    intro node next done relays inOrder _ kept
    refine ⟨inOrder, relays.bound, ?_⟩
    intro some
    exact kept _ _ (relays.stored some)

section Run

variable {Peer : Type} [DecidableEq Peer]

/-- With working disks a host sends a block on the validated path to a peer at
most twice, whatever is lost, delivered again or started again. -/
theorem child_block_sent_at_most_twice (p : Primitives) (signer : EIP155Signer)
    {net : BlockNetwork Peer} (idle : net.Idle)
    (inOrder : ∀ name, (net.hosts name).worker.InOrder p)
    {moves : List (BlockMove Peer)}
    (working : WorkingDisks p signer net moves)
    {block : Block} (path : block.onDepositPath = false) (name peer : Peer) :
    copies name peer block (gossipBlocks p signer net moves).2 ≤ 2 := by
  by_cases encodes : block.encodes = true
  · have sent : copies name peer block (gossipBlocks p signer net moves).2 +
          unsent peer block
            ((gossipBlocks p signer net moves).1.hosts name).sending +
          ((gossipBlocks p signer net moves).1.hosts name).queue.countP
            (block ∈ ·) ≤
        (pushes name (gossipBlocks p signer net moves).2).countP (block ∈ ·) :=
      copies_le_pushes idle name peer block moves
    have relays : Relays p block
        ((gossipBlocks p signer net moves).1.hosts name).worker
        (pushes name (gossipBlocks p signer net moves).2) := by
      apply keeps_run (relays_writeRule p signer path encodes).keeps _ working
      intro name
      exact ⟨inOrder name, by simp, by simp⟩
    have bound := relays.bound
    omega
  · have none : copies name peer block (gossipBlocks p signer net moves).2 =
        0 := copies_eq_zero_of_not_encodes encodes name peer moves
    rw [none]
    exact Nat.zero_le 2

end Run

namespace Sample

open Core.Sample

def childMoves : List (BlockMove (Fin 3)) :=
  [.act operatorHost (.depositEvent now true 1 alice 0 5),
    .act operatorHost (.sealTxs now true true [spend]),
    .broadcast operatorHost, .send operatorHost, .broadcast operatorHost,
    .send operatorHost, .receive 0 0 met, .receive 0 0 met,
    .broadcast nextHost, .send nextHost, .broadcast nextHost, .send nextHost,
    .broadcast nextHost, .send nextHost, .broadcast nextHost, .send nextHost]

end Sample

/-- Both copies of the child block are sent on. -/
theorem child_block_sent_twice :
    copies 1 2 Core.Sample.spendBlock (gossipBlocks Core.Sample.primitives
        Core.Sample.signer Sample.row Sample.childMoves).2 = 2 ∧
      copies 1 2 Core.Sample.spendBlock (gossipBlocks Core.Sample.primitives
        Core.Sample.signer Sample.row Sample.childMoves).2 ≤ 2 := by
  refine ⟨by decide +kernel, ?_⟩
  apply child_block_sent_at_most_twice Core.Sample.primitives
    Core.Sample.signer (fun _ => ⟨rfl, rfl⟩) Sample.row_inOrder
  · unfold WorkingDisks
    decide +kernel
  · decide

end Plasma.Network
