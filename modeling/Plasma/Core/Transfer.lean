import Plasma.Core.Incoming

/-!
# Transfers

The command `transfer` of the client builds a transaction with one real input,
whose amount it leaves out, and one real output, signs both slots with the one
key and sends it as JSON to the handler of `tx/new`.  The chain id comes from
the configuration of the client.
-/

namespace Plasma.Core

open Plasma.Lib Plasma.Store

/-- The flags of the command. -/
structure TransferFlags where
  blockNum : UInt64
  txIdx : UInt32
  outIdx : UInt8
  fromAddr : Address
  toAddr : Address
  amount : UInt64
  fee : UInt64
deriving DecidableEq, Repr

namespace TransferFlags

def utxoid (flags : TransferFlags) : UTXOID :=
  ⟨flags.blockNum, flags.txIdx, flags.outIdx⟩

def makeTx (flags : TransferFlags) : TxData :=
  { ins := (some ⟨flags.utxoid, ⟨flags.fromAddr, none⟩⟩,
      some ⟨⟨0, 0, 0⟩, ⟨0, some 0⟩⟩)
    outs := (some ⟨flags.toAddr, some flags.amount.toNat⟩, some ⟨0, some 0⟩)
    fee := some flags.fee.toNat
    sigs := (⟨none, none, none⟩, ⟨none, none, none⟩) }

/-- The transaction that the pool queues. -/
def queued (flags : TransferFlags) (sigs : Sig × Sig) : Transaction :=
  { ins := (⟨flags.utxoid, ⟨flags.fromAddr, 0⟩⟩, Operator.nullInput)
    outs := (⟨flags.toAddr, flags.amount.toNat⟩, ⟨0, 0⟩)
    fee := flags.fee.toNat
    sigs := sigs }

/-- The flags name an unspent output of the account and pay all of it. -/
def PaysInFull (flags : TransferFlags) (reader : UtxoReader)
    (account : Address) : Prop :=
  0 < flags.fee.toNat ∧ flags.blockNum ≠ 0 ∧
    ∃ utxo, reader flags.utxoid = some utxo ∧ utxo.txOut.owner = account ∧
      utxo.txOut.amount = flags.amount.toNat + flags.fee.toNat

end TransferFlags

/-- The answer of the handler; a handler that panics gives none. -/
inductive HttpAnswer where
  | ok
  | invalidTxJson
  | notAdded (failure : PoolError)
  | none
deriving DecidableEq, Repr

section Command

variable {Key Json : Type} (p : Primitives) (dp : DataPrimitives)
  (sign : Hash → Key → Option (List UInt8)) (encode : TxData → Json)
  (decode : Json → Option TxData)

/-- The body of the request of the command. -/
def transfer (chainID : Int) (flags : TransferFlags) (key : Key) :
    Except SignError Json :=
  (flags.makeTx.signTx dp sign (EIP155Signer.newEIP155Signer chainID) key
    (some key)).map encode

/-- The handler of `tx/new`. -/
def newTx (signer : EIP155Signer) (node : PoolNode) (body : Json) :
    PoolNode × HttpAnswer :=
  match unmarshalJSON p decode body with
  | .error .nilPointer => (node, .none)
  | .error _ => (node, .invalidTxJson)
  | .ok tx =>
      match tx.addLocal p dp signer node with
      | .error (.invalid .nilPointer) => (node, .none)
      | .error failure => (node, .notAdded failure)
      | .ok _ =>
          match tx.completed with
          | some whole => ((node.addLocal p signer whole).1, .ok)
          | none => (node, .none)

end Command

/-- Data and the complete transaction with the same encoding have the same
hashes and the same size. -/
structure SameEncoding (p : Primitives) (dp : DataPrimitives) : Prop where
  txHash : ∀ tx whole, tx.completed = some whole →
    dp.txHash tx = p.txHash whole
  txSize : ∀ tx whole, tx.completed = some whole →
    dp.txSize tx = p.txSize whole
  sigHash : ∀ chainId tx whole, tx.completed = some whole →
    dp.sigHash chainId tx = p.sigHash chainId whole

namespace TxData

variable {p : Primitives} {dp : DataPrimitives} {signer : EIP155Signer}
  {tx : TxData} {whole : Transaction}

/-- The validator accepts data with all its parts exactly when it accepts the
complete transaction. -/
theorem validate_completed (same : SameEncoding p dp)
    (parts : tx.completed = some whole) (reader : UtxoReader) :
    tx.validate p dp signer reader = .ok () ↔
      UtxoTxValidator.validate p signer reader whole = .ok () := by
  have sender : tx.sender dp p signer = signer.sender p whole := by
    obtain ⟨_, _, _, _, _, _, _, _, equal⟩ :=
      (completed_eq_some_iff whole).mp parts
    rw [TxData.sender, EIP155Signer.sender_eq, same.sigHash _ tx whole parts,
      equal]
  rw [validate_ok_iff, UtxoTxValidator.validate_ok_iff]
  constructor
  · rintro ⟨other, again, size, fee, distinct, owned, nonneg, balanced⟩
    rw [parts] at again
    cases again
    rw [sender] at owned
    rw [same.txSize tx whole parts] at size
    exact ⟨size, fee, owned, distinct, nonneg, balanced⟩
  · intro valid
    refine ⟨whole, parts, ?_, valid.feePositive, valid.distinct, ?_,
      valid.outsNonneg, valid.balanced⟩
    · rw [same.txSize tx whole parts]
      exact valid.size
    · rw [sender]
      exact valid.owned

/-- The pool takes data with all its parts when it does not know the hash and
the complete transaction is valid. -/
theorem addLocal_completed (same : SameEncoding p dp)
    (parts : tx.completed = some whole) (node : PoolNode) :
    tx.addLocal p dp signer node = .ok () ↔
      node.pool.get (p.txHash whole) = none ∧
        ValidTx p signer node.reader whole := by
  rw [← UtxoTxValidator.validate_ok_iff, ← validate_completed same parts,
    addLocal, same.txHash tx whole parts]
  cases known : node.pool.get (p.txHash whole) with
  | some other => simp
  | none =>
      cases tx.validate p dp signer node.reader with
      | error failure => simp
      | ok passed => simp

end TxData

/-- A valid transaction with a new hash joins the queue. -/
theorem PoolNode.queue_addLocal {p : Primitives} {signer : EIP155Signer}
    {node : PoolNode} {tx : Transaction}
    (unknown : node.pool.get (p.txHash tx) = none)
    (valid : ValidTx p signer node.reader tx) :
    (node.addLocal p signer tx).1.pool.queue = node.pool.queue ++ [tx] := by
  obtain ⟨file, added⟩ := node.add_eq p signer (!node.config.noLocals) tx
  have accepted := (UtxoTxValidator.validate_ok_iff p signer node.reader
    tx).mpr valid
  rw [addLocal, added]
  show (node.pool.add p signer node.reader tx).1.queue =
    node.pool.queue ++ [tx]
  simp [TxPool.add, unknown, accepted, TxPool.enqueueTx]

section Handler

variable {Json : Type} {p : Primitives} {dp : DataPrimitives}
  {signer : EIP155Signer} {decode : Json → Option TxData}

/-- How the handler answers a request with a complete transaction. -/
theorem newTx_of_completed (same : SameEncoding p dp) {tx : TxData}
    {whole : Transaction} (parts : tx.completed = some whole)
    (node : PoolNode) {body : Json} (decoded : decode body = some tx)
    (checked : checkSigs p tx.sigs = .ok ()) :
    ((newTx p dp decode signer node body).2 = .ok ↔
        node.pool.get (p.txHash whole) = none ∧
          ValidTx p signer node.reader whole) ∧
      ((newTx p dp decode signer node body).2 = .ok →
        (newTx p dp decode signer node body).1.pool.queue =
          node.pool.queue ++ [whole]) := by
  have accepts : tx.addLocal p dp signer node = .ok () ↔
      node.pool.get (p.txHash whole) = none ∧
        ValidTx p signer node.reader whole :=
    TxData.addLocal_completed same parts node
  have read : unmarshalJSON p decode body = .ok tx := by
    rw [unmarshalJSON, decoded]
    simp only [checked]
  cases outcome : tx.addLocal p dp signer node with
  | error failure =>
      rw [outcome] at accepts
      have refused : (newTx p dp decode signer node body).2 ≠ .ok := by
        simp only [newTx, read, outcome]
        split <;> simp_all
      refine ⟨iff_of_false refused ?_, fun answered => absurd answered refused⟩
      intro accepted
      cases accepts.mpr accepted
  | ok passed =>
      rw [outcome] at accepts
      obtain ⟨unknown, valid⟩ := accepts.mp rfl
      have answer : newTx p dp decode signer node body =
          ((node.addLocal p signer whole).1, .ok) := by
        simp only [newTx, read, outcome, parts]
      rw [answer]
      refine ⟨iff_of_true rfl ⟨unknown, valid⟩, ?_⟩
      intro _
      exact PoolNode.queue_addLocal unknown valid

end Handler

section Send

variable {p : Primitives} {c chainId : Int}

/-- A signature for another chain has no sender. -/
theorem recoverSlot_other_chain {hash : Hash} {sig : List UInt8}
    {address : Address} (recovers : Recovers p hash sig address)
    (nonneg : 0 ≤ c) (other : c ≠ chainId) (sighash : Hash) :
    (EIP155Signer.newEIP155Signer chainId).recoverSlot p sighash
        (protectedSig c sig) = .error .invalidChainId := by
  have small : 0 ≤ ((sigV sig).toNat : Int) ∧ ((sigV sig).toNat : Int) ≤ 1 := by
    rcases recovers.id with zero | one
    · rw [zero]
      decide
    · rw [one]
      decide
  simp only [EIP155Signer.recoverSlot, EIP155Signer.newEIP155Signer,
    protectedSig, deriveChainId_protected nonneg small, ne_eq, other,
    not_false_eq_true, if_true]

theorem exists_withSignature (signer : EIP155Signer) {sig : List UInt8}
    (length : sig.length = 65) :
    ∃ sigs, signer.withSignature sig sig = .ok sigs := by
  have plain : signatureValues sig =
      some (sigR sig, sigS sig, ((sigV sig + 27).toNat : Int)) :=
    if_neg (not_not.mpr length)
  unfold EIP155Signer.withSignature EIP155Signer.signatureValues
  rw [plain]
  by_cases zero : signer.chainId = 0
  · exact ⟨_, by simp [zero]; rfl⟩
  · exact ⟨_, by simp [zero]; rfl⟩

theorem TransferFlags.realInputs_queued (flags : TransferFlags)
    (sigs : Sig × Sig) :
    (flags.queued sigs).realInputs =
      if flags.blockNum = 0 then [] else [flags.utxoid] := by
  have null : Operator.nullInput.isNullUTXO = true := rfl
  rw [Transaction.realInputs, Transaction.getInsCopy]
  split
  · rename_i zero
    rw [realIds_cons_null _ (beq_iff_eq.mpr zero)]
    exact realIds_cons_null [] null
  · rename_i real
    rw [realIds_cons_real _ (beq_eq_false_iff_ne.mpr real)]
    exact congrArg (_ :: ·) (realIds_cons_null [] null)

theorem TransferFlags.outputs_queued (flags : TransferFlags)
    (sigs : Sig × Sig) :
    ((flags.queued sigs).getOutsCopy.map TxOut.amount).sum +
        (flags.queued sigs).fee =
      flags.amount.toNat + flags.fee.toNat := by
  simp [queued, Transaction.getOutsCopy]

/-- The transaction of a transfer is valid exactly when it pays all of an
output of the sender of its first slot. -/
theorem TransferFlags.queued_valid_iff (flags : TransferFlags)
    {signer : EIP155Signer} {reader : UtxoReader} {sigs : Sig × Sig}
    {first second : Address}
    (senders : signer.sender p (flags.queued sigs) = .ok (first, second))
    (size : p.txSize (flags.queued sigs) ≤ 32 * 1024) :
    ValidTx p signer reader (flags.queued sigs) ↔
      flags.PaysInFull reader first := by
  constructor
  · intro valid
    obtain ⟨_, recovered, owned⟩ := valid.owned
    rw [senders] at recovered
    cases recovered
    have positive : 0 < flags.fee.toNat := Int.natCast_pos.mp valid.feePositive
    have balanced := valid.balanced
    rw [flags.outputs_queued, flags.realInputs_queued] at balanced
    have real : flags.blockNum ≠ 0 := by
      intro null
      rw [if_pos null, List.map_nil, List.sum_nil] at balanced
      omega
    obtain ⟨utxo, recorded, owner⟩ := owned (_, first) List.mem_cons_self real
    have found : reader flags.utxoid = some utxo := recorded
    refine ⟨positive, real, utxo, found, owner, ?_⟩
    rwa [if_neg real, List.map_singleton, List.sum_singleton, amountAt,
      found] at balanced
  · rintro ⟨positive, real, utxo, found, owner, amount⟩
    refine ⟨size, Int.natCast_pos.mpr positive, ⟨_, senders, ?_⟩, ?_, ?_, ?_⟩
    · intro slot member nonzero
      rcases List.mem_pair.mp member with rfl | rfl
      · exact ⟨utxo, found, owner⟩
      · exact absurd rfl nonzero
    · intro same
      exact real (congrArg UTXOID.blockNum same)
    · intro out member
      rcases List.mem_pair.mp member with rfl | rfl
      · exact Int.natCast_nonneg _
      · exact le_refl 0
    · rw [flags.outputs_queued, flags.realInputs_queued, if_neg real,
        List.map_singleton, List.sum_singleton, amountAt, found]
      exact amount

/-- With both slots signed for a chain, only a node of this chain finds the
senders. -/
theorem TransferFlags.signed_valid_iff (flags : TransferFlags)
    (nonneg : 0 ≤ c) {reader : UtxoReader} {sig : List UInt8}
    {account : Address}
    (recovers : Recovers p (p.sigHash c (flags.queued (protectedSig c sig,
      protectedSig c sig))) sig account)
    (size : p.txSize (flags.queued (protectedSig c sig, protectedSig c sig)) ≤
      32 * 1024) :
    ValidTx p (EIP155Signer.newEIP155Signer chainId) reader
        (flags.queued (protectedSig c sig, protectedSig c sig)) ↔
      c = chainId ∧ flags.PaysInFull reader account := by
  by_cases same : c = chainId
  · subst same
    have senders : (EIP155Signer.newEIP155Signer c).sender p
        (flags.queued (protectedSig c sig, protectedSig c sig)) =
          .ok (account, account) := by
      rw [EIP155Signer.sender_eq]
      exact senders_protected nonneg recovers recovers
    rw [flags.queued_valid_iff senders size]
    exact (and_iff_right rfl).symm
  · refine iff_of_false ?_ fun paid => same paid.1
    intro valid
    obtain ⟨senders, recovered, _⟩ := valid.owned
    simp only [EIP155Signer.sender_eq, EIP155Signer.senders, queued,
      recoverSlot_other_chain recovers nonneg same] at recovered
    cases recovered

end Send

/-- A transfer is accepted exactly when the client and the node are configured
for the same chain, which is not zero, the flags name an unspent output of the
key's account, amount and fee make up all of it, and the pool does not know the
transaction.  Then the transaction is queued. -/
theorem transfer_accepted_iff {Key Json : Type} {p : Primitives}
    {dp : DataPrimitives} {sign : Hash → Key → Option (List UInt8)}
    {address : Key → Address} (encode : TxData → Json)
    {decode : Json → Option TxData} (chainID chainId : Int)
    (flags : TransferFlags) {key : Key} (node : PoolNode)
    (nonneg : 0 ≤ chainID) (knows : KnowsRecoveryIds p)
    (roundTrip : ∀ data, decode (encode data) = some data)
    (same : SameEncoding p dp)
    (signs : Signs p sign address (dp.sigHash chainID flags.makeTx) key)
    (size : ∀ signed, flags.makeTx.signTx dp sign
      (EIP155Signer.newEIP155Signer chainID) key (some key) = .ok signed →
        dp.txSize signed ≤ 32 * 1024) :
    ∃ body sigs, transfer dp sign encode chainID flags key = .ok body ∧
      flags.makeTx.signTx dp sign (EIP155Signer.newEIP155Signer chainID) key
          (some key) = .ok { flags.makeTx with sigs := sigs } ∧
      ((newTx p dp decode (EIP155Signer.newEIP155Signer chainId) node
          body).2 = .ok ↔
        chainID ≠ 0 ∧ chainID = chainId ∧
          node.pool.get (p.txHash (flags.queued sigs)) = none ∧
          flags.PaysInFull node.reader (address key)) ∧
      ((newTx p dp decode (EIP155Signer.newEIP155Signer chainId) node
          body).2 = .ok →
        (newTx p dp decode (EIP155Signer.newEIP155Signer chainId) node
            body).1.pool.queue =
          node.pool.queue ++ [flags.queued sigs]) := by
  obtain ⟨sig, signed, recovers⟩ := signs
  obtain ⟨sigs, filled⟩ := exists_withSignature
    (EIP155Signer.newEIP155Signer chainID) recovers.length_eq
  have signedTx : flags.makeTx.signTx dp sign
      (EIP155Signer.newEIP155Signer chainID) key (some key) =
        .ok { flags.makeTx with sigs := sigs } := by
    have slots : (EIP155Signer.newEIP155Signer chainID).signSlots sign
        (dp.sigHash chainID flags.makeTx) key (some key) = .ok sigs := by
      simp only [EIP155Signer.signSlots, signed]
      exact filled
    rw [TxData.signTx]
    exact congrArg _ slots
  have fits := size _ signedTx
  have sent : transfer dp sign encode chainID flags key =
      .ok (encode { flags.makeTx with sigs := sigs }) := by
    rw [transfer, signedTx]
    rfl
  refine ⟨_, sigs, sent, signedTx, ?_⟩
  by_cases zero : chainID = 0
  · subst zero
    have refused : (newTx p dp decode (EIP155Signer.newEIP155Signer chainId)
        node (encode { flags.makeTx with sigs := sigs })).2 ≠ .ok := by
      simp only [newTx, unmarshalJSON, roundTrip,
        checkSigs_unprotected knows recovers recovers filled]
      decide
    exact ⟨iff_of_false refused fun accepted => accepted.1 rfl,
      fun answered => absurd answered refused⟩
  · rw [withSignature_protected recovers.length_eq recovers.id
      recovers.length_eq recovers.id zero] at filled
    obtain rfl := Except.ok.inj filled
    have checked : checkSigs p (protectedSig chainID sig,
        protectedSig chainID sig) = .ok () := by
      simp only [checkSigs, checkSig_protected recovers nonneg]
    have parts : ({ flags.makeTx with sigs := (protectedSig chainID sig,
        protectedSig chainID sig) } : TxData).completed =
          some (flags.queued _) := rfl
    have plain : flags.makeTx.completed =
        some (flags.queued flags.makeTx.sigs) := rfl
    rw [same.sigHash _ _ _ plain] at recovers
    rw [same.txSize _ _ parts] at fits
    obtain ⟨answers, queues⟩ := newTx_of_completed
      same parts node (roundTrip _) checked
    refine ⟨answers.trans ?_, queues⟩
    rw [flags.signed_valid_iff nonneg recovers fits]
    constructor
    · rintro ⟨unknown, chain, pays⟩
      exact ⟨zero, chain, unknown, pays⟩
    · rintro ⟨_, chain, unknown, pays⟩
      exact ⟨unknown, chain, pays⟩

namespace Sample

/-- The depositor pays four of the five to the recipient and one as a fee. -/
def transferFlags : TransferFlags := ⟨1, 0, 0, alice, bob, 4, 1⟩

def transferHash : Hash :=
  0xbcc0446168d956f2b56f19e6754886a2ea5d76be17d3c89ce6d59896b38298af

def transferSignature : List UInt8 :=
  bigEndian 32
      0xc4b79f305f55517fb21ae215507a14988f1e5ad3b213fc20045db83935244207 ++
    bigEndian 32
      0x773b6fcda89f2d62231e306c6624ea44d1fa5dc40c535afcfcf621019b69ec75 ++ [1]

/-- The slots of the signed transfer. -/
def transferSigs : Sig × Sig :=
  (protectedSig 1 transferSignature, protectedSig 1 transferSignature)

def transferSign (hash : Hash) (_ : Unit) : Option (List UInt8) :=
  if hash = transferHash then some transferSignature else none

def transferPrimitives : Primitives :=
  { curvePrimitives with
    txHash := fun tx => lookup
      [(transferFlags.queued transferSigs,
        0x701e0bc81193073b9e835731367941213801dd68ba877535e2f594030b2d2e22)]
      (primitives.txHash tx) tx
    txSize := fun tx => lookup
      [(transferFlags.queued transferSigs, 248)] (primitives.txSize tx) tx
    keccak256 := fun input => lookup
      [(((transferFlags.queued transferSigs).encodeUnsigned 1).getD [],
        transferHash)] (primitives.keccak256 input) input
    ecrecover := fun hash r s v =>
      if hash = transferHash ∧ r = sigR transferSignature ∧
        s = sigS transferSignature ∧ v = 1 then some pubkey
      else none }

/-- The hashes and the size of the complete transaction. -/
def completedPrimitives (p : Primitives) : DataPrimitives :=
  { txHash := fun tx => tx.completed.elim 0 p.txHash
    txSize := fun tx => tx.completed.elim 0 p.txSize
    sigHash := fun chainId tx => tx.completed.elim 0 (p.sigHash chainId) }

theorem sameEncoding_completed (p : Primitives) :
    SameEncoding p (completedPrimitives p) where
  txHash tx whole parts := by
    simp [completedPrimitives, parts]
  txSize tx whole parts := by
    simp [completedPrimitives, parts]
  sigHash chainId tx whole parts := by
    simp [completedPrimitives, parts]

theorem transfer_knowsRecoveryIds : KnowsRecoveryIds transferPrimitives := by
  intro v r s accepted
  exact (of_decide_eq_true accepted).1

theorem transfer_signs :
    Signs transferPrimitives transferSign (fun _ => alice)
      ((completedPrimitives transferPrimitives).sigHash 1
        transferFlags.makeTx) () := by
  refine ⟨transferSignature, ?_, ?_, ?_, ?_, pubkey, ?_, rfl, ?_⟩
  · decide +kernel
  · decide +kernel
  · decide +kernel
  · decide +kernel
  · decide +kernel
  · decide +kernel

theorem transfer_signed :
    transferFlags.makeTx.signTx (completedPrimitives transferPrimitives)
        transferSign (EIP155Signer.newEIP155Signer 1) () (some ()) =
      .ok { transferFlags.makeTx with sigs := transferSigs } := by
  decide +kernel

end Sample

open Sample in
/-- The transfer of the deposit is queued. -/
theorem deposit_transfer_queued :
    ∃ body sigs,
      transfer (completedPrimitives transferPrimitives) transferSign id 1
          transferFlags () = .ok body ∧
        (newTx transferPrimitives (completedPrimitives transferPrimitives) some
            signer (poolNode (depositedOperator transferPrimitives))
            body).2 = .ok ∧
        (newTx transferPrimitives (completedPrimitives transferPrimitives) some
            signer (poolNode (depositedOperator transferPrimitives))
            body).1.pool.queue = [transferFlags.queued sigs] := by
  have size : ∀ signed,
      transferFlags.makeTx.signTx (completedPrimitives transferPrimitives)
        transferSign (EIP155Signer.newEIP155Signer 1) () (some ()) =
          .ok signed →
        (completedPrimitives transferPrimitives).txSize signed ≤
          32 * 1024 := by
    intro signed equal
    rw [transfer_signed] at equal
    obtain rfl := Except.ok.inj equal
    decide +kernel
  obtain ⟨body, sigs, sent, _, answers, queues⟩ := transfer_accepted_iff id 1 1
    transferFlags (poolNode (depositedOperator transferPrimitives)) (by decide)
    transfer_knowsRecoveryIds (fun _ => rfl)
    (sameEncoding_completed transferPrimitives)
    transfer_signs size
  have accepted := answers.mpr ⟨by decide, rfl, rfl, by decide, by decide,
    ⟨⟨1, 0, 0⟩, ⟨alice, 5⟩⟩, by decide +kernel, rfl, rfl⟩
  exact ⟨body, sigs, sent, accepted, queues accepted⟩

end Plasma.Core
