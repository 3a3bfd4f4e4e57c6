import Plasma.Core.Signing

/-!
# Transactions as JSON

A transaction that arrives as JSON may lack inputs, outputs, amounts, the fee
and components of its signatures: they are nil pointers.  `UnmarshalJSON` only
looks at the signatures.  The JSON codec of the plain fields and the RLP
encoding of incomplete data come from other packages.
-/

namespace Plasma.Core

open Plasma.Lib

/-- An output whose amount may be absent. -/
structure DataOut where
  owner : Address
  amount : Option Int
deriving DecidableEq, Repr

structure DataUTXO where
  utxoid : UTXOID
  txOut : DataOut
deriving DecidableEq, Repr

/-- The data of a transaction with absent parts. -/
structure TxData where
  ins : Option DataUTXO × Option DataUTXO
  outs : Option DataOut × Option DataOut
  fee : Option Int
  sigs : Sig × Sig
deriving DecidableEq, Repr

/-- Hashes and sizes of encodings with absent parts. -/
structure DataPrimitives where
  txHash : TxData → Hash
  txSize : TxData → Nat
  sigHash : Int → TxData → Hash

inductive JsonError where
  | malformed
  | invalidSig
  | nilPointer
deriving DecidableEq, Repr

section

variable (p : Primitives)

/-- `ValidateSignatureValues` compares `r` with one and, unless `r` is smaller,
`s` with one; an absent operand is dereferenced. -/
def validatePresent (v : UInt8) (r s : Option Int) : Except JsonError Bool :=
  match r, s with
  | none, _ => .error .nilPointer
  | some r, none => if r < 1 then .ok false else .error .nilPointer
  | some r, some s => .ok (p.validateSignatureValues v r s)

/-- The recovery id that `UnmarshalJSON` computes. -/
def jsonV (v : Int) : UInt8 :=
  let chainID := uint64 (deriveChainId v)
  (uint64 v - 35 - 2 * chainID).toUInt8

/-- One round of the loop over the signatures. -/
def checkSig (sig : Sig) : Except JsonError Unit :=
  match sig.v with
  | none => .error .nilPointer
  | some v =>
      match validatePresent p (jsonV v) sig.r sig.s with
      | .error failure => .error failure
      | .ok false => .error .invalidSig
      | .ok true => .ok ()

def checkSigs (sigs : Sig × Sig) : Except JsonError Unit :=
  match checkSig p sigs.1 with
  | .error failure => .error failure
  | .ok _ => checkSig p sigs.2

variable {Json : Type} (decode : Json → Option TxData)

/-- `decode` is the codec of the plain fields. -/
def unmarshalJSON (input : Json) : Except JsonError TxData :=
  match decode input with
  | none => .error .malformed
  | some dec =>
      match checkSigs p dec.sigs with
      | .error failure => .error failure
      | .ok _ => .ok dec

end

namespace TxData

variable {Key : Type} (dp : DataPrimitives) (p : Primitives)
  (sign : Hash → Key → Option (List UInt8))

/-- `SignTx` looks at the data of the transaction through its hash only. -/
def signTx (signer : EIP155Signer) (tx : TxData) (prv1 : Key)
    (prv2 : Option Key) : Except SignError TxData :=
  (signer.signSlots sign (dp.sigHash signer.chainId tx) prv1 prv2).map
    fun sigs => { tx with sigs := sigs }

def sender (signer : EIP155Signer) (tx : TxData) :
    Except SenderError (Address × Address) :=
  signer.senders p (dp.sigHash signer.chainId tx) tx.sigs

end TxData

/-- The recovery id behind a protected `V` survives the 64-bit arithmetic for
every chain id. -/
theorem jsonV_protected {c : Int} (nonneg : 0 ≤ c) {id : UInt8}
    (small : id = 0 ∨ id = 1) : jsonV (2 * c + 35 + (id.toNat : Int)) = id := by
  have bound : 0 ≤ (id.toNat : Int) ∧ (id.toNat : Int) ≤ 1 := by
    rcases small with rfl | rfl
    · decide
    · decide
  apply UInt8.toNat_inj.mp
  simp only [jsonV, deriveChainId_protected nonneg bound, UInt64.toNat_toUInt8,
    UInt64.toNat_sub, UInt64.toNat_mul, uint64_toNat]
  simp only [UInt64.reduceToNat]
  omega

/-- The unprotected `V` of chain id zero gives no recovery id. -/
theorem jsonV_unprotected {id : UInt8} (small : id = 0 ∨ id = 1) :
    jsonV ((id + 27).toNat : Int) ≠ 0 ∧ jsonV ((id + 27).toNat : Int) ≠ 1 := by
  rcases small with rfl | rfl
  · decide
  · decide

section Transport

variable {p : Primitives}

theorem checkSig_protected {hash : Hash} {sig : List UInt8}
    {address : Address} (recovers : Recovers p hash sig address) {c : Int}
    (nonneg : 0 ≤ c) : checkSig p (protectedSig c sig) = .ok () := by
  simp only [checkSig, protectedSig, jsonV_protected nonneg recovers.id,
    validatePresent, recovers.valid]

/-- On chain zero the first signature is refused. -/
theorem checkSigs_unprotected (knows : KnowsRecoveryIds p) {hash : Hash}
    {sig1 sig2 : List UInt8} {address1 address2 : Address}
    (recovers1 : Recovers p hash sig1 address1)
    (recovers2 : Recovers p hash sig2 address2) {sigs : Sig × Sig}
    (filled : (EIP155Signer.newEIP155Signer 0).withSignature sig1 sig2 =
      .ok sigs) : checkSigs p sigs = .error .invalidSig := by
  have values : ∀ {sig : List UInt8}, sig.length = 65 →
      (EIP155Signer.newEIP155Signer 0).signatureValues sig =
        some (sigR sig, sigS sig, ((sigV sig + 27).toNat : Int)) := by
    intro sig length
    have plain : signatureValues sig =
        some (sigR sig, sigS sig, ((sigV sig + 27).toNat : Int)) :=
      if_neg (not_not.mpr length)
    simp only [EIP155Signer.signatureValues, plain,
      EIP155Signer.newEIP155Signer, ne_eq, not_true_eq_false, if_false]
  simp only [EIP155Signer.withSignature, values recovers1.length_eq,
    values recovers2.length_eq] at filled
  obtain rfl := Except.ok.inj filled
  have refused : p.validateSignatureValues
      (jsonV ((sigV sig1 + 27).toNat : Int)) (sigR sig1) (sigS sig1) =
      false := by
    rw [← Bool.not_eq_true]
    intro accepted
    obtain ⟨notZero, notOne⟩ := jsonV_unprotected recovers1.id
    rcases knows _ _ _ accepted with zero | one
    · exact notZero zero
    · exact notOne one
  simp only [checkSigs, checkSig, validatePresent, refused]

end Transport

/-- Signing, sending as JSON and recovering the senders are inverse exactly on
the chains with an id other than zero. -/
theorem json_transport_inverse_iff {Key Json : Type} {p : Primitives}
    {dp : DataPrimitives} {sign : Hash → Key → Option (List UInt8)}
    {address : Key → Address} (encode : TxData → Json)
    {decode : Json → Option TxData} {c : Int} {tx : TxData} {k1 k2 : Key}
    (nonneg : 0 ≤ c) (knows : KnowsRecoveryIds p)
    (roundTrip : ∀ data, decode (encode data) = some data)
    (ignores : ∀ sigs, dp.sigHash c { tx with sigs := sigs } =
      dp.sigHash c tx)
    (signs1 : Signs p sign address (dp.sigHash c tx) k1)
    (signs2 : Signs p sign address (dp.sigHash c tx) k2) :
    (∃ signed received,
      tx.signTx dp sign (EIP155Signer.newEIP155Signer c) k1 (some k2) =
        .ok signed ∧
      unmarshalJSON p decode (encode signed) = .ok received ∧
      dp.txHash received = dp.txHash signed ∧
      received.sender dp p (EIP155Signer.newEIP155Signer c) =
        .ok (address k1, address k2)) ↔ c ≠ 0 := by
  have chain : (EIP155Signer.newEIP155Signer c).chainId = c := rfl
  constructor
  · rintro ⟨signed, received, signedTx, accepted, _⟩ rfl
    obtain ⟨sig1, signed1, recovers1⟩ := signs1
    obtain ⟨sig2, signed2, recovers2⟩ := signs2
    rw [TxData.signTx, chain, EIP155Signer.signSlots, signed1] at signedTx
    simp only [signed2] at signedTx
    cases filled : (EIP155Signer.newEIP155Signer 0).withSignature sig1
        sig2 with
    | error failure =>
        rw [filled] at signedTx
        cases signedTx
    | ok sigs =>
        rw [filled] at signedTx
        obtain rfl := Except.ok.inj signedTx
        simp only [unmarshalJSON, roundTrip, checkSigs_unprotected knows
          recovers1 recovers2 filled] at accepted
        cases accepted
  · intro other
    obtain ⟨sig1, sig2, recovers1, recovers2, slots⟩ :=
      signSlots_some other signs1 signs2
    refine ⟨{ tx with sigs := (protectedSig c sig1, protectedSig c sig2) }, _,
      ?_, ?_, rfl, ?_⟩
    · rw [TxData.signTx, chain, slots]
      rfl
    · simp only [unmarshalJSON, roundTrip, checkSigs,
        checkSig_protected recovers1 nonneg, checkSig_protected recovers2 nonneg]
    · rw [TxData.sender, chain, ignores]
      exact senders_protected nonneg recovers1 recovers2

namespace Sample

/-- The data of a transaction with all its parts. -/
def dataOf (tx : Transaction) : TxData :=
  let out (out : TxOut) : DataOut := ⟨out.owner, some out.amount⟩
  let utxo (utxo : UTXO) : DataUTXO := ⟨utxo.utxoid, out utxo.txOut⟩
  { ins := (some (utxo tx.ins.1), some (utxo tx.ins.2))
    outs := (some (out tx.outs.1), some (out tx.outs.2))
    fee := some tx.fee
    sigs := tx.sigs }

/-- The hash of the payment to be signed on chain zero. -/
def zeroHash : Hash :=
  0x2aa716ea74f85bace43aedd1ed5e9f5a9ebf542931367ec0af687f7ff7844f2c

def zeroSignature : List UInt8 :=
  bigEndian 32
      0x18c7bf7ed700825b4ecd6abc76bd23ce95a771adc56bf400e1673929ff426538 ++
    bigEndian 32
      0x34b005b95a1428a04954a69ce1345ac7288172da10df9bf72ded0b759901b1bc ++ [0]

/-- `crypto.Sign` for the payment on both chains. -/
def chainSign (hash : Hash) (key : Unit) : Option (List UInt8) :=
  if hash = zeroHash then some zeroSignature else aliceSign hash key

def curveOrder : Int :=
  0xfffffffffffffffffffffffffffffffebaaedce6af48a03bbfd25e8cd0364141

/-- The primitives with the range check of the curve. -/
def curvePrimitives : Primitives :=
  { primitives with
    validateSignatureValues := fun v r s =>
      decide ((v = 0 ∨ v = 1) ∧ 1 ≤ r ∧ r < curveOrder ∧ 1 ≤ s ∧
        s < curveOrder) }

def dataPrimitives : DataPrimitives :=
  { txHash := lookup
      [(dataOf spend,
        0x88233a830982342c31ac3e29f56e9fc2560443eef020fae272859d6cafc0e34a)] 0
    txSize := lookup [(dataOf spend, 248)] 0
    sigHash := fun chainId tx => lookup
      [((0, { tx with sigs := payment.sigs } == dataOf payment), zeroHash),
        ((1, { tx with sigs := payment.sigs } == dataOf payment), paymentHash)]
      0 (chainId, true) }

theorem curve_knowsRecoveryIds : KnowsRecoveryIds curvePrimitives := by
  intro v r s accepted
  exact (of_decide_eq_true accepted).1

theorem aliceSigns_on_curve :
    Signs curvePrimitives chainSign (fun _ => alice)
      (dataPrimitives.sigHash 1 (dataOf payment)) () := by
  refine ⟨aliceSignature, ?_, ?_, ?_, ?_, pubkey, ?_, rfl, ?_⟩
  · decide +kernel
  · decide +kernel
  · decide +kernel
  · decide +kernel
  · decide +kernel
  · decide +kernel

end Sample

open Sample in
theorem payment_survives_transport :
    ∃ signed received,
      (dataOf payment).signTx dataPrimitives chainSign
        (EIP155Signer.newEIP155Signer 1) () (some ()) = .ok signed ∧
      unmarshalJSON curvePrimitives some signed = .ok received ∧
      dataPrimitives.txHash received = dataPrimitives.txHash signed ∧
      received.sender dataPrimitives curvePrimitives
        (EIP155Signer.newEIP155Signer 1) = .ok (alice, alice) :=
  (json_transport_inverse_iff id (by decide)
    curve_knowsRecoveryIds (fun _ => rfl) (fun _ => rfl) aliceSigns_on_curve
    aliceSigns_on_curve).mpr (by decide)

open Sample in
/-- On chain zero the signed payment is refused on arrival. -/
theorem payment_on_chain_zero_refused :
    ∃ signed,
      (dataOf payment).signTx dataPrimitives chainSign
        (EIP155Signer.newEIP155Signer 0) () (some ()) = .ok signed ∧
      signed.sigs.1.v = some 27 ∧
      unmarshalJSON curvePrimitives some signed = .error .invalidSig := by
  refine ⟨{ dataOf payment with
    sigs := sigPair (27, sigR zeroSignature, sigS zeroSignature)
      (27, sigR zeroSignature, sigS zeroSignature) }, ?_, rfl, ?_⟩
  · decide +kernel
  · decide +kernel

end Plasma.Core
