import Plasma.Core.Pool

/-!
# The queue and the index of the pool

The pool keeps its transactions twice, in a queue and in a lookup by hash.
The verdicts of the validator are inputs here, so that the results hold for
every validator and every state of the chain.
-/

namespace Plasma.Core

open Plasma.Lib

/-- A transaction together with the verdict of the validator on it. -/
structure Offer where
  tx : Transaction
  verdict : Except TxError Unit

inductive PoolCall where
  | addLocal (offer : Offer)
  | addLocals (offers : List Offer)
  | addRemote (offer : Offer)
  | addRemotes (offers : List Offer)
  | removeTx (hash : Hash)

namespace PoolNode

variable (p : Primitives)

def addOffer (asLocal : Bool) (node : PoolNode) (offer : Offer) :
    PoolNode × Except PoolError Unit :=
  match node.pool.addWith p offer.verdict offer.tx with
  | (_, .error failure) => (node, .error failure)
  | (pool, .ok _) =>
      let node := node.withPool pool
      (if asLocal then node.journalTx offer.tx else node, .ok ())

def addOffers (asLocal : Bool) :
    PoolNode → List Offer → PoolNode × List (Except PoolError Unit)
  | node, [] => (node, [])
  | node, offer :: rest =>
      let (node, result) := node.addOffer p asLocal offer
      let (node, results) := addOffers asLocal node rest
      (node, result :: results)

/-- A call and its answers. -/
def call (node : PoolNode) :
    PoolCall → PoolNode × List (Except PoolError Unit)
  | .addLocal offer =>
      let (node, result) := node.addOffer p (!node.config.noLocals) offer
      (node, [result])
  | .addLocals offers => addOffers p (!node.config.noLocals) node offers
  | .addRemote offer =>
      let (node, result) := node.addOffer p false offer
      (node, [result])
  | .addRemotes offers => addOffers p false node offers
  | .removeTx hash => (node.withPool (node.pool.removeTx p hash), [])

/-- The pool of the node asks its validator for the verdict. -/
theorem add_eq_addOffer (signer : EIP155Signer) (asLocal : Bool)
    (node : PoolNode) (tx : Transaction) :
    node.add p signer asLocal tx =
      node.addOffer p asLocal
        ⟨tx, UtxoTxValidator.validate p signer node.reader tx⟩ := rfl

end PoolNode

namespace TxPool

variable {p : Primitives} {pool : TxPool}

/-- The lookup holds the queued transactions under their hashes, which are
pairwise different. -/
structure Indexed (p : Primitives) (pool : TxPool) : Prop where
  once : (pool.queue.map p.txHash).Nodup
  entries : pool.all.Perm (pool.queue.map fun tx => (p.txHash tx, tx))

theorem indexed_empty : TxPool.empty.Indexed p :=
  ⟨List.nodup_nil, List.Perm.refl _⟩

namespace Indexed

theorem keys (indexed : pool.Indexed p) :
    (pool.all.map Prod.fst).Perm (pool.queue.map p.txHash) := by
  have mapped := indexed.entries.map Prod.fst
  rwa [List.map_map] at mapped

theorem consistent (indexed : pool.Indexed p) : pool.Consistent p :=
  ⟨indexed.once, fun _ => indexed.keys.mem_iff⟩

theorem mem_all_iff (indexed : pool.Indexed p) {hash : Hash}
    {tx : Transaction} :
    (hash, tx) ∈ pool.all ↔ tx ∈ pool.queue ∧ p.txHash tx = hash := by
  rw [indexed.entries.mem_iff, List.mem_map]
  constructor
  · rintro ⟨queued, member, same⟩
    obtain ⟨rfl, rfl⟩ := Prod.mk.inj same
    exact ⟨member, rfl⟩
  · rintro ⟨member, rfl⟩
    exact ⟨tx, member, rfl⟩

theorem get_iff (indexed : pool.Indexed p) {hash : Hash} {tx : Transaction} :
    pool.get hash = some tx ↔ tx ∈ pool.queue ∧ p.txHash tx = hash := by
  constructor
  · intro found
    obtain ⟨entry, looked, rfl⟩ := Option.map_eq_some_iff.mp found
    obtain rfl : entry.1 = hash := by
      simpa using List.find?_some looked
    exact indexed.mem_all_iff.mp (List.mem_of_find?_eq_some looked)
  · rintro ⟨member, rfl⟩
    have known : p.txHash tx ∈ pool.all.map Prod.fst :=
      indexed.keys.mem_iff.mpr (List.mem_map_of_mem member)
    obtain ⟨other, found⟩ :=
      Option.isSome_iff_exists.mp (get_isSome_iff.mpr known)
    obtain ⟨entry, looked, rfl⟩ := Option.map_eq_some_iff.mp found
    have key : entry.1 = p.txHash tx := by
      simpa using List.find?_some looked
    obtain ⟨queued, same⟩ :=
      indexed.mem_all_iff.mp (List.mem_of_find?_eq_some looked)
    have equal : entry.2 = tx :=
      List.inj_on_of_nodup_map indexed.once queued member (same.trans key)
    rw [found, equal]

theorem addWith (indexed : pool.Indexed p) (verdict : Except TxError Unit)
    (tx : Transaction) : (pool.addWith p verdict tx).1.Indexed p := by
  rcases pool.addWith_cases (p := p) verdict tx with
    ⟨fresh, _, taken⟩ | ⟨_, failure, refused⟩
  · rw [taken]
    have new : p.txHash tx ∉ pool.queue.map p.txHash := fun queued =>
      fresh (indexed.keys.mem_iff.mpr queued)
    constructor
    · rw [List.map_append, List.map_singleton, ← List.concat_eq_append,
        List.nodup_concat]
      exact ⟨new, indexed.once⟩
    · rw [List.map_append]
      exact indexed.entries.append_right _
  · rw [refused]
    exact indexed

end Indexed

theorem removeTx_all (pool : TxPool) (hash : Hash) :
    (pool.removeTx p hash).all =
      pool.all.filter fun entry => entry.1 != hash := by
  unfold removeTx
  split
  · next absent =>
      rw [List.find?_eq_none] at absent
      symm
      rw [List.filter_eq_self]
      intro entry member
      simpa using absent entry member
  · dsimp only
    split <;> rfl

theorem Indexed.removeTx (indexed : pool.Indexed p) (hash : Hash) :
    (pool.removeTx p hash).Indexed p := by
  obtain ⟨consistent, order⟩ := indexed.consistent.removeTx hash
  refine ⟨consistent.once, ?_⟩
  rw [removeTx_all]
  have kept := indexed.entries.filter fun entry => entry.1 != hash
  rw [List.filter_map] at kept
  exact kept.trans (order.map _).symm

theorem Indexed.get_removeTx (indexed : pool.Indexed p) (hash other : Hash) :
    (pool.removeTx p hash).get other =
      if other = hash then none else pool.get other := by
  ext tx
  rw [(indexed.removeTx hash).get_iff,
    (indexed.consistent.removeTx hash).2.mem_iff, List.mem_filter, bne_iff_ne]
  by_cases same : other = hash
  · rw [if_pos same]
    constructor
    · rintro ⟨⟨_, different⟩, equal⟩
      exact (different (equal.trans same)).elim
    · intro found
      cases found
  · rw [if_neg same, indexed.get_iff]
    constructor
    · rintro ⟨⟨member, _⟩, equal⟩
      exact ⟨member, equal⟩
    · rintro ⟨member, rfl⟩
      exact ⟨⟨member, same⟩, rfl⟩

end TxPool

namespace PoolNode

variable {p : Primitives}

theorem addOffer_cases (asLocal : Bool) (node : PoolNode) (offer : Offer) :
    ((node.addOffer p asLocal offer).2 = .ok () ∧
        (node.addOffer p asLocal offer).1.pool =
          (node.pool.addWith p offer.verdict offer.tx).1) ∨
      ∃ failure, node.addOffer p asLocal offer = (node, .error failure) := by
  unfold addOffer
  split
  · next failure _ => exact .inr ⟨failure, rfl⟩
  · next pool accepted taken =>
      refine .inl ⟨rfl, ?_⟩
      rw [taken]
      cases asLocal with
      | false => rfl
      | true =>
          obtain ⟨file, journaled⟩ :=
            journalTx_eq (node.withPool pool) offer.tx
          exact congrArg PoolNode.pool journaled

theorem indexed_addOffer (asLocal : Bool) {node : PoolNode}
    (indexed : node.pool.Indexed p) (offer : Offer) :
    (node.addOffer p asLocal offer).1.pool.Indexed p := by
  rcases addOffer_cases asLocal node offer with ⟨_, pool⟩ | ⟨failure, refused⟩
  · rw [pool]
    exact indexed.addWith offer.verdict offer.tx
  · rw [refused]
    exact indexed

theorem indexed_addOffers (asLocal : Bool) {node : PoolNode}
    (indexed : node.pool.Indexed p) (offers : List Offer) :
    (addOffers p asLocal node offers).1.pool.Indexed p := by
  induction offers generalizing node with
  | nil => exact indexed
  | cons offer offers induction =>
      exact induction (indexed_addOffer asLocal indexed offer)

theorem indexed_call {node : PoolNode} (indexed : node.pool.Indexed p)
    (call : PoolCall) : (node.call p call).1.pool.Indexed p := by
  cases call with
  | addLocal offer => exact indexed_addOffer _ indexed offer
  | addLocals offers => exact indexed_addOffers _ indexed offers
  | addRemote offer => exact indexed_addOffer _ indexed offer
  | addRemotes offers => exact indexed_addOffers _ indexed offers
  | removeTx hash => exact indexed.removeTx hash

theorem indexed_execute {node : PoolNode} (indexed : node.pool.Indexed p)
    (calls : List PoolCall) :
    (execute (PoolNode.call p) node calls).1.pool.Indexed p := by
  induction calls generalizing node with
  | nil => exact indexed
  | cons call calls induction => exact induction (indexed_call indexed call)

end PoolNode

/-- The offers that got no error. -/
def takenOf (offers : List Offer) (results : List (Except PoolError Unit)) :
    List Offer :=
  ((offers.zip results).filter fun entry => entry.2.isOk).map Prod.fst

namespace PoolNode

variable {p : Primitives}

/-- Only the accepted offers of a batch have an effect. -/
theorem addOffers_eq_taken (asLocal : Bool) (node : PoolNode)
    (offers : List Offer) :
    (addOffers p asLocal node offers).1 =
      (addOffers p asLocal node
        (takenOf offers (addOffers p asLocal node offers).2)).1 := by
  induction offers generalizing node with
  | nil => rfl
  | cons offer offers induction =>
      have rest := induction (node.addOffer p asLocal offer).1
      rcases addOffer_cases (p := p) asLocal node offer with
        ⟨accepted, _⟩ | ⟨failure, refused⟩
      · have taken : takenOf (offer :: offers)
            (addOffers p asLocal node (offer :: offers)).2 =
              offer :: takenOf offers (addOffers p asLocal
                (node.addOffer p asLocal offer).1 offers).2 := by
          simp [takenOf, addOffers, accepted, Except.isOk, Except.toBool]
        rw [taken]
        exact rest
      · have taken : takenOf (offer :: offers)
            (addOffers p asLocal node (offer :: offers)).2 =
              takenOf offers (addOffers p asLocal node offers).2 := by
          simp [takenOf, addOffers, refused, Except.isOk, Except.toBool]
        rw [taken]
        rw [refused] at rest
        simpa [addOffers, refused] using rest

/-- The queue and the lookup hold the same transactions. -/
structure Coherent (p : Primitives) (node : PoolNode) : Prop where
  once : (node.pool.queue.map p.txHash).Nodup
  keys : (node.pool.all.map Prod.fst).Perm (node.pool.queue.map p.txHash)
  found : ∀ hash tx, node.pool.get hash = some tx ↔
    tx ∈ node.pool.queue ∧ p.txHash tx = hash

/-- What the next calls do to the queue and the lookup. -/
structure CallsExact (p : Primitives) (node : PoolNode) : Prop where
  rejected : ∀ asLocal offer failure,
    (node.addOffer p asLocal offer).2 = .error failure →
      (node.addOffer p asLocal offer).1 = node
  batch : ∀ asLocal offers,
    (addOffers p asLocal node offers).1 =
      (addOffers p asLocal node
        (takenOf offers (addOffers p asLocal node offers).2)).1
  removed : ∀ hash,
    (node.call p (.removeTx hash)).1.pool.queue.Perm
      (node.pool.queue.filter fun tx => p.txHash tx != hash)
  lookup : ∀ hash other,
    (node.call p (.removeTx hash)).1.pool.get other =
      if other = hash then none else node.pool.get other
  others : ∀ hash,
    (node.call p (.removeTx hash)).1 =
      node.withPool (node.call p (.removeTx hash)).1.pool

theorem coherent_of_indexed {node : PoolNode}
    (indexed : node.pool.Indexed p) : node.Coherent p where
  once := indexed.once
  keys := indexed.keys
  found _ _ := indexed.get_iff

theorem callsExact_of_indexed {node : PoolNode}
    (indexed : node.pool.Indexed p) : node.CallsExact p where
  rejected asLocal offer failure result := by
    rcases addOffer_cases (p := p) asLocal node offer with
      ⟨accepted, _⟩ | ⟨_, refused⟩
    · rw [accepted] at result
      cases result
    · rw [refused]
  batch asLocal offers := addOffers_eq_taken asLocal node offers
  removed hash := (indexed.consistent.removeTx hash).2
  lookup := indexed.get_removeTx
  others _ := rfl

end PoolNode

/-- In every state reached from an empty pool, whatever the validator answers,
the queue and the lookup agree, and the next calls keep exactly what they
should. -/
theorem pool_index_coherent (p : Primitives) (node : PoolNode)
    (calls : List PoolCall) :
    (execute (PoolNode.call p) (node.withPool TxPool.empty)
        calls).1.Coherent p ∧
      (execute (PoolNode.call p) (node.withPool TxPool.empty)
        calls).1.CallsExact p := by
  have initially : (node.withPool TxPool.empty).pool.Indexed p :=
    TxPool.indexed_empty
  have indexed := PoolNode.indexed_execute initially calls
  exact ⟨PoolNode.coherent_of_indexed indexed,
    PoolNode.callsExact_of_indexed indexed⟩

end Plasma.Core
