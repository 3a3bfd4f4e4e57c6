import Mathlib
import Plasma.Core.TxValidator
import Plasma.Core.OperatorRun
import Plasma.Lib.Bytes

/-!
# Signing

`SignTx` fills both signature slots of a transaction, `UnmarshalJSON` checks
the signatures of a transaction that arrives, and `Sender` recovers the
signers.  The three compute the recovery id from `V` in three ways: with byte
arithmetic, with wrapping 64-bit arithmetic and with big integers.
-/

namespace Plasma.Core

open Plasma.Lib

section Arithmetic

theorem deriveChainId_eq (v : Int) :
    deriveChainId v =
      if v.natAbs < 2 ^ 64 then
        if v.natAbs = 27 ∨ v.natAbs = 28 then 0
        else (((v.natAbs + (2 ^ 64 - 35)) % 2 ^ 64 / 2 : Nat) : Int)
      else (v - 35) / 2 := by
  unfold deriveChainId bitLenAtMost
  simp only [decide_eq_true_eq]
  by_cases fits : v.natAbs < 2 ^ 64
  · have value : (uint64 v).toNat = v.natAbs := by
      rw [uint64_toNat, Nat.mod_eq_of_lt fits]
    simp only [if_pos fits, ← UInt64.toNat_inj, value]
    have reduced : ((uint64 v - 35) / 2).toNat =
        (v.natAbs + (2 ^ 64 - 35)) % 2 ^ 64 / 2 := by
      rw [UInt64.toNat_div, UInt64.toNat_sub, value]
      simp only [UInt64.reduceToNat]
      omega
    rw [reduced]
    rfl
  · rw [if_neg fits, if_neg fits]

/-- A protected `V` carries its chain id, on both sides of the 64-bit
boundary. -/
theorem deriveChainId_protected {c id : Int} (nonneg : 0 ≤ c)
    (small : 0 ≤ id ∧ id ≤ 1) : deriveChainId (2 * c + 35 + id) = c := by
  rw [deriveChainId_eq]
  split
  · rw [if_neg (by omega)]
    omega
  · omega

theorem recoveryId_toNat {vb : Int} (small : vb.natAbs < 2 ^ 8) :
    (uint64 vb - 27).toUInt8.toNat =
      (vb.natAbs + (2 ^ 64 - 27)) % 2 ^ 64 % 2 ^ 8 := by
  have value : (uint64 vb).toNat = vb.natAbs := by
    rw [uint64_toNat, Nat.mod_eq_of_lt (by omega)]
  rw [UInt64.toNat_toUInt8, UInt64.toNat_sub, value]
  simp only [UInt64.reduceToNat]
  omega

theorem protected_of_recoveryId {c v : Int} (nonneg : 0 ≤ c)
    (chain : deriveChainId v = c) (small : (v - c * 2 - 8).natAbs < 2 ^ 8)
    (id : (uint64 (v - c * 2 - 8) - 27).toUInt8.toNat ≤ 1) :
    v = 2 * c + 35 + ((uint64 (v - c * 2 - 8) - 27).toUInt8.toNat : Int) := by
  rw [recoveryId_toNat small] at id ⊢
  rw [deriveChainId_eq] at chain
  have reduced : (v - c * 2 - 8).natAbs = 27 ∨ (v - c * 2 - 8).natAbs = 28 := by
    omega
  split at chain
  · split at chain <;> omega
  · omega

end Arithmetic

section Recovery

variable (p : Primitives)

/-- The arguments of a call of `Ecrecover`. -/
structure EcrecoverCall where
  sighash : Hash
  r : Int
  s : Int
  v : UInt8
deriving DecidableEq

/-- What a slot does before its signature is handed to `Ecrecover`. -/
def EIP155Signer.slotCall (signer : EIP155Signer) (sighash : Hash)
    (sig : Sig) : Except SenderError EcrecoverCall :=
  match sig.v with
  | none => .error .nilPointer
  | some v =>
      let vb := v - signer.chainIdMul - 8
      if deriveChainId v ≠ signer.chainId then .error .invalidChainId
      else if ¬ bitLenAtMost vb 8 then .error .invalidSig
      else
        match sig.r, sig.s with
        | some r, some s =>
            if ¬ p.validateSignatureValues (uint64 vb - 27).toUInt8 r s then
              .error .invalidSig
            else .ok ⟨sighash, r, s, (uint64 vb - 27).toUInt8⟩
        | _, _ => .error .nilPointer

/-- What a slot makes of the answer of `Ecrecover`. -/
def EcrecoverCall.answer (call : EcrecoverCall) : Except SenderError Address :=
  match p.ecrecover call.sighash call.r call.s call.v with
  | none => .error .unrecoverable
  | some pub =>
      if pub.head? = some 4 then .ok (pubkeyAddress p pub)
      else .error .invalidPublicKey

theorem EIP155Signer.recoverSlot_eq (signer : EIP155Signer) (sighash : Hash)
    (sig : Sig) :
    signer.recoverSlot p sighash sig =
      (signer.slotCall p sighash sig).bind (EcrecoverCall.answer p) := by
  obtain ⟨v, r, s⟩ := sig
  cases v with
  | none => rfl
  | some v =>
      unfold recoverSlot slotCall recoverPlain
      dsimp only
      split
      · rfl
      · cases r with
        | none =>
            cases s with
            | none => dsimp only; split <;> rfl
            | some s => dsimp only; split <;> rfl
        | some r =>
            cases s with
            | none => dsimp only; split <;> rfl
            | some s =>
                dsimp only
                split
                · rfl
                · split <;> rfl

/-- `Sender` with the calls of `Ecrecover` that it makes, in order. -/
def EIP155Signer.senderCalls (signer : EIP155Signer) (tx : Transaction) :
    List EcrecoverCall × Except SenderError (Address × Address) :=
  let sighash := p.sigHash signer.chainId tx
  match signer.slotCall p sighash tx.sigs.1 with
  | .error failure => ([], .error failure)
  | .ok call =>
      match call.answer p with
      | .error failure => ([call], .error failure)
      | .ok first =>
          match signer.slotCall p sighash tx.sigs.2 with
          | .error failure => ([call], .error failure)
          | .ok other => ([call, other], (other.answer p).map (first, ·))

theorem EIP155Signer.senderCalls_result (signer : EIP155Signer)
    (tx : Transaction) :
    (signer.senderCalls p tx).2 = signer.sender p tx := by
  rw [senderCalls, sender, recoverSlot_eq, recoverSlot_eq]
  cases signer.slotCall p (p.sigHash signer.chainId tx) tx.sigs.1 with
  | error failure => rfl
  | ok call =>
      cases answered : call.answer p with
      | error failure => simp [answered, Except.bind]
      | ok first =>
          cases signer.slotCall p (p.sigHash signer.chainId tx) tx.sigs.2 with
          | error failure => simp [answered, Except.bind]
          | ok other =>
              simp only [answered, Except.bind]
              cases other.answer p <;> rfl

/-- `ValidateSignatureValues` knows the recovery ids 0 and 1 only. -/
def KnowsRecoveryIds : Prop :=
  ∀ v r s, p.validateSignatureValues v r s = true → v = 0 ∨ v = 1

variable {p}

theorem EIP155Signer.slotCall_ok {c : Int} (nonneg : 0 ≤ c)
    (knows : KnowsRecoveryIds p) {sighash : Hash} {v r s : Int}
    {call : EcrecoverCall}
    (called : (newEIP155Signer c).slotCall p sighash
      ⟨some v, some r, some s⟩ = .ok call) :
    (v = 2 * c + 35 ∨ v = 2 * c + 36) ∧ call.sighash = sighash ∧
      call.r = r ∧ call.s = s ∧ (call.v.toNat : Int) = v - 2 * c - 35 := by
  unfold slotCall newEIP155Signer at called
  dsimp only at called
  split at called
  · cases called
  · next chain =>
      split at called
      · cases called
      · next small =>
          split at called
          · cases called
          · next valid =>
              have fits : (v - c * 2 - 8).natAbs < 2 ^ 8 := by
                simpa [bitLenAtMost] using small
              have id : (uint64 (v - c * 2 - 8) - 27).toUInt8.toNat ≤ 1 := by
                rcases knows _ _ _ (not_not.mp valid) with zero | one
                · rw [zero]
                  decide
                · rw [one]
                  decide
              have value :=
                protected_of_recoveryId nonneg (not_not.mp chain) fits id
              obtain rfl := Except.ok.inj called
              refine ⟨?_, rfl, rfl, rfl, ?_⟩
              · omega
              · dsimp only
                omega

theorem EIP155Signer.slotCall_error {c : Int} (nonneg : 0 ≤ c)
    (knows : KnowsRecoveryIds p) {sighash : Hash} {v r s : Int}
    (other : v ≠ 2 * c + 35 ∧ v ≠ 2 * c + 36) :
    ∃ failure, (newEIP155Signer c).slotCall p sighash
      ⟨some v, some r, some s⟩ = .error failure := by
  cases result : (newEIP155Signer c).slotCall p sighash
      ⟨some v, some r, some s⟩ with
  | error failure => exact ⟨failure, rfl⟩
  | ok call =>
      obtain ⟨place, _⟩ := slotCall_ok nonneg knows result
      omega

theorem EIP155Signer.recoverSlot_ne_nilPointer {signer : EIP155Signer}
    {sighash : Hash} {v r s : Int} :
    signer.recoverSlot p sighash ⟨some v, some r, some s⟩ ≠
      .error .nilPointer := by
  unfold recoverSlot recoverPlain
  dsimp only
  split
  · rintro ⟨⟩
  · split
    · rintro ⟨⟩
    · split
      · rintro ⟨⟩
      · split
        · rintro ⟨⟩
        · split <;> rintro ⟨⟩

/-- A slot that fails makes `Sender` fail, and only an absent component is
dereferenced. -/
theorem EIP155Signer.sender_error {signer : EIP155Signer} {tx : Transaction}
    (fails : ∃ sig ∈ [tx.sigs.1, tx.sigs.2], ∃ failure,
      signer.recoverSlot p (p.sigHash signer.chainId tx) sig = .error failure)
    (complete : ∀ sig ∈ [tx.sigs.1, tx.sigs.2],
      signer.recoverSlot p (p.sigHash signer.chainId tx) sig ≠
        .error .nilPointer) :
    ∃ failure, signer.sender p tx = .error failure ∧
      failure ≠ .nilPointer := by
  have present := complete tx.sigs.1 (by simp)
  have presentNext := complete tx.sigs.2 (by simp)
  rw [sender]
  cases first : signer.recoverSlot p (p.sigHash signer.chainId tx)
      tx.sigs.1 with
  | error failure =>
      refine ⟨failure, rfl, ?_⟩
      rintro rfl
      exact present first
  | ok address =>
      cases second : signer.recoverSlot p (p.sigHash signer.chainId tx)
          tx.sigs.2 with
      | error failure =>
          refine ⟨failure, rfl, ?_⟩
          rintro rfl
          exact presentNext second
      | ok other =>
          obtain ⟨sig, member, failure, failed⟩ := fails
          rcases List.mem_pair.mp member with rfl | rfl
          · rw [first] at failed
            cases failed
          · rw [second] at failed
            cases failed

def sigPair (first second : Int × Int × Int) : Sig × Sig :=
  (⟨some first.1, some first.2.1, some first.2.2⟩,
    ⟨some second.1, some second.2.1, some second.2.2⟩)

/-- Only a `V` of the chain reaches `Ecrecover`, with the recovery id it was
made from, and any other `V` makes `Sender` return an error. -/
theorem EIP155Signer.signature_v_not_malleable {c : Int} (nonneg : 0 ≤ c)
    (knows : KnowsRecoveryIds p) {tx : Transaction}
    {first second : Int × Int × Int} (sigs : tx.sigs = sigPair first second) :
    ((newEIP155Signer c).senderCalls p tx).2 =
        (newEIP155Signer c).sender p tx ∧
      (∀ (i : Nat) (call : EcrecoverCall),
        ((newEIP155Signer c).senderCalls p tx).1[i]? = some call →
        ∃ v r s, [first, second][i]? = some (v, r, s) ∧
          (v = 2 * c + 35 ∨ v = 2 * c + 36) ∧
          call.sighash = p.sigHash c tx ∧ call.r = r ∧ call.s = s ∧
          (call.v.toNat : Int) = v - 2 * c - 35) ∧
      (∀ v r s : Int, (v, r, s) ∈ [first, second] →
        v ≠ 2 * c + 35 ∧ v ≠ 2 * c + 36 →
        ∃ failure, (newEIP155Signer c).sender p tx = .error failure ∧
          failure ≠ .nilPointer) := by
  obtain ⟨v, r, s⟩ := first
  obtain ⟨v', r', s'⟩ := second
  have firstSig : tx.sigs.1 = ⟨some v, some r, some s⟩ :=
    congrArg Prod.fst sigs
  have secondSig : tx.sigs.2 = ⟨some v', some r', some s'⟩ :=
    congrArg Prod.snd sigs
  refine ⟨senderCalls_result p _ tx, ?_, ?_⟩
  · intro i call
    rw [senderCalls, firstSig, secondSig]
    split
    · rintro ⟨⟩
    · next one called =>
        have opening := slotCall_ok nonneg knows called
        have single : ∀ {i : Nat}, [one][i]? = some call → i = 0 ∧
            call = one := by
          intro i found
          obtain ⟨bound, rfl⟩ := List.getElem?_eq_some_iff.mp found
          have start : i = 0 := by simpa using bound
          subst start
          exact ⟨rfl, rfl⟩
        split
        · intro found
          obtain ⟨rfl, rfl⟩ := single found
          exact ⟨v, r, s, rfl, opening⟩
        · split
          · intro found
            obtain ⟨rfl, rfl⟩ := single found
            exact ⟨v, r, s, rfl, opening⟩
          · next other calledNext =>
              have closing := slotCall_ok nonneg knows calledNext
              intro found
              cases i with
              | zero =>
                  obtain rfl := Option.some.inj found
                  exact ⟨v, r, s, rfl, opening⟩
              | succ i =>
                  cases i with
                  | zero =>
                      obtain rfl := Option.some.inj found
                      exact ⟨v', r', s', rfl, closing⟩
                  | succ i => cases found
  · intro w x y member other
    obtain ⟨failure, stopped⟩ := slotCall_error nonneg knows other
    have failed : (newEIP155Signer c).recoverSlot p (p.sigHash c tx)
        ⟨some w, some x, some y⟩ = .error failure := by
      rw [recoverSlot_eq, stopped]
      rfl
    refine sender_error ⟨_, ?_, failure, failed⟩ ?_
    · rw [firstSig, secondSig]
      rcases List.mem_pair.mp member with same | same
      · obtain ⟨rfl, rfl, rfl⟩ := same
        exact List.mem_cons_self
      · obtain ⟨rfl, rfl, rfl⟩ := same
        exact List.mem_cons_of_mem _ List.mem_cons_self
    · intro sig slot
      rw [firstSig, secondSig] at slot
      rcases List.mem_pair.mp slot with rfl | rfl
      · exact recoverSlot_ne_nilPointer
      · exact recoverSlot_ne_nilPointer

end Recovery

namespace Sample

theorem knowsRecoveryIds : KnowsRecoveryIds primitives := by
  intro v r s accepted
  have values : v = 1 ∧ some r = aliceSig.r ∧ some s = aliceSig.s :=
    of_decide_eq_true accepted
  exact .inr values.1

def aliceValues : Int × Int × Int :=
  (38, 0xe5990d6b95cbaf813f0536f3d8a95b135313385538508a9bd93f2a1cc5108ac6,
    0x15c699eccdfc4e242aef8e9f50ee09f669b12eb12e5fc8d4278fdd246799f628)

end Sample

open Sample in
/-- Both slots of the sample payment reach `Ecrecover` with recovery id 1. -/
theorem spend_v_not_malleable :
    (signer.senderCalls primitives spend).1.map EcrecoverCall.v = [1, 1] ∧
      ((EIP155Signer.newEIP155Signer 1).senderCalls primitives spend).2 =
          (EIP155Signer.newEIP155Signer 1).sender primitives spend ∧
        (∀ (i : Nat) (call : EcrecoverCall),
          ((EIP155Signer.newEIP155Signer 1).senderCalls primitives
            spend).1[i]? = some call →
          ∃ v r s, [aliceValues, aliceValues][i]? = some (v, r, s) ∧
            (v = 2 * 1 + 35 ∨ v = 2 * 1 + 36) ∧
            call.sighash = primitives.sigHash 1 spend ∧ call.r = r ∧
            call.s = s ∧ (call.v.toNat : Int) = v - 2 * 1 - 35) ∧
        (∀ v r s : Int, (v, r, s) ∈ [aliceValues, aliceValues] →
          v ≠ 2 * 1 + 35 ∧ v ≠ 2 * 1 + 36 →
          ∃ failure, (EIP155Signer.newEIP155Signer 1).sender primitives
            spend = .error failure ∧ failure ≠ .nilPointer) :=
  ⟨by decide +kernel,
    EIP155Signer.signature_v_not_malleable (by decide) knowsRecoveryIds rfl⟩

section Sign

variable {Key : Type} (p : Primitives)
  (sign : Hash → Key → Option (List UInt8))

/-- The components of a 65-byte signature. -/
def sigR (sig : List UInt8) : Int := fromBigEndian (sig.take 32)

def sigS (sig : List UInt8) : Int := fromBigEndian ((sig.drop 32).take 32)

def sigV (sig : List UInt8) : UInt8 := sig.getD 64 0

/-- `R`, `S` and `V`; a signature of another size stops the process. -/
def signatureValues (sig : List UInt8) : Option (Int × Int × Int) :=
  if sig.length ≠ 65 then none
  else some (sigR sig, sigS sig, (sigV sig + 27).toNat)

/-- The chain id zero keeps the unprotected `V`. -/
def EIP155Signer.signatureValues (signer : EIP155Signer) (sig : List UInt8) :
    Option (Int × Int × Int) :=
  match Core.signatureValues sig with
  | none => none
  | some (r, s, v) =>
      if signer.chainId ≠ 0 then
        some (r, s, (sigV sig + 35).toNat + signer.chainIdMul)
      else some (r, s, v)

inductive SignError where
  | sign
  | wrongSize
deriving DecidableEq, Repr

def emptySignature : List UInt8 := List.replicate 65 0

/-- The slots that `WithSignature` fills. -/
def EIP155Signer.withSignature (signer : EIP155Signer)
    (sig1 sig2 : List UInt8) : Except SignError (Sig × Sig) :=
  match signer.signatureValues sig1, signer.signatureValues sig2 with
  | some (r1, s1, v1), some (r2, s2, v2) =>
      .ok (⟨some v1, some r1, some s1⟩, ⟨some v2, some r2, some s2⟩)
  | _, _ => .error .wrongSize

/-- The slots that `SignTx` fills; the second key may be absent. -/
def EIP155Signer.signSlots (signer : EIP155Signer) (h : Hash) (prv1 : Key)
    (prv2 : Option Key) : Except SignError (Sig × Sig) :=
  match sign h prv1 with
  | none => .error .sign
  | some sig1 =>
      match prv2 with
      | none => signer.withSignature sig1 emptySignature
      | some prv2 =>
          match sign h prv2 with
          | none => .error .sign
          | some sig2 => signer.withSignature sig1 sig2

/-- `sign` is `crypto.Sign`. -/
def signTx (signer : EIP155Signer) (tx : Transaction) (prv1 : Key)
    (prv2 : Option Key) : Except SignError Transaction :=
  (signer.signSlots sign (p.sigHash signer.chainId tx) prv1 prv2).map
    fun sigs => { tx with sigs := sigs }

def EIP155Signer.senders (signer : EIP155Signer) (sighash : Hash)
    (sigs : Sig × Sig) : Except SenderError (Address × Address) :=
  match signer.recoverSlot p sighash sigs.1 with
  | .error failure => .error failure
  | .ok first =>
      match signer.recoverSlot p sighash sigs.2 with
      | .error failure => .error failure
      | .ok second => .ok (first, second)

theorem EIP155Signer.sender_eq (signer : EIP155Signer) (tx : Transaction) :
    signer.sender p tx =
      signer.senders p (p.sigHash signer.chainId tx) tx.sigs := rfl

/-- The slot that `SignTx` fills from a signature on a chain with an id. -/
def protectedSig (c : Int) (sig : List UInt8) : Sig :=
  ⟨some (2 * c + 35 + ((sigV sig).toNat : Int)), some (sigR sig),
    some (sigS sig)⟩

/-- The signature is valid and `Ecrecover` maps it back to the address. -/
structure Recovers (hash : Hash) (sig : List UInt8) (address : Address) :
    Prop where
  length_eq : sig.length = 65
  id : sigV sig = 0 ∨ sigV sig = 1
  valid : p.validateSignatureValues (sigV sig) (sigR sig) (sigS sig) = true
  recovered : ∃ pub, p.ecrecover hash (sigR sig) (sigS sig) (sigV sig) =
    some pub ∧ pub.head? = some 4 ∧ pubkeyAddress p pub = address

/-- What `crypto.Sign` does with a key. -/
def Signs (address : Key → Address) (hash : Hash) (key : Key) : Prop :=
  ∃ sig, sign hash key = some sig ∧ Recovers p hash sig (address key)

variable {p}

theorem protectedSig_of_values {sig : List UInt8} (length : sig.length = 65)
    (id : sigV sig = 0 ∨ sigV sig = 1) {c : Int} (other : c ≠ 0) :
    (EIP155Signer.newEIP155Signer c).signatureValues sig =
      some (sigR sig, sigS sig, 2 * c + 35 + ((sigV sig).toNat : Int)) := by
  have plain : Core.signatureValues sig =
      some (sigR sig, sigS sig, ((sigV sig + 27).toNat : Int)) :=
    if_neg (not_not.mpr length)
  have byte : ((sigV sig + 35).toNat : Int) = 35 + ((sigV sig).toNat : Int) := by
    rcases id with zero | one
    · rw [zero]
      rfl
    · rw [one]
      rfl
  simp only [EIP155Signer.signatureValues, plain, EIP155Signer.newEIP155Signer,
    if_pos other, byte]
  congr 3
  omega

theorem Recovers.recoverSlot {hash : Hash} {sig : List UInt8}
    {address : Address} (recovers : Recovers p hash sig address) {c : Int}
    (nonneg : 0 ≤ c) :
    (EIP155Signer.newEIP155Signer c).recoverSlot p hash
        (protectedSig c sig) = .ok address := by
  have small : 0 ≤ ((sigV sig).toNat : Int) ∧ ((sigV sig).toNat : Int) ≤ 1 := by
    rcases recovers.id with zero | one
    · rw [zero]
      decide
    · rw [one]
      decide
  have reduced : 2 * c + 35 + ((sigV sig).toNat : Int) - c * 2 - 8 =
      27 + ((sigV sig).toNat : Int) := by omega
  have fits : bitLenAtMost (27 + ((sigV sig).toNat : Int)) 8 = true := by
    rw [bitLenAtMost, decide_eq_true_eq]
    omega
  have id : (uint64 (27 + ((sigV sig).toNat : Int)) - 27).toUInt8 = sigV sig := by
    rcases recovers.id with zero | one
    · rw [zero]
      rfl
    · rw [one]
      rfl
  obtain ⟨pub, answered, uncompressed, owner⟩ := recovers.recovered
  simp only [EIP155Signer.recoverSlot, EIP155Signer.newEIP155Signer,
    protectedSig, deriveChainId_protected nonneg small, ne_eq,
    not_true_eq_false, if_false, reduced, recoverPlain, fits, id,
    recovers.valid, answered, uncompressed, if_true, owner]

theorem withSignature_protected {sig1 sig2 : List UInt8}
    (length1 : sig1.length = 65) (id1 : sigV sig1 = 0 ∨ sigV sig1 = 1)
    (length2 : sig2.length = 65) (id2 : sigV sig2 = 0 ∨ sigV sig2 = 1)
    {c : Int} (other : c ≠ 0) :
    (EIP155Signer.newEIP155Signer c).withSignature sig1 sig2 =
      .ok (protectedSig c sig1, protectedSig c sig2) := by
  rw [EIP155Signer.withSignature, protectedSig_of_values length1 id1 other,
    protectedSig_of_values length2 id2 other]
  rfl

section Senders

variable {sign} {address : Key → Address} {c : Int} {hash : Hash}
  {prv1 : Key}

theorem signSlots_some (other : c ≠ 0) {prv2 : Key}
    (signs1 : Signs p sign address hash prv1)
    (signs2 : Signs p sign address hash prv2) :
    ∃ sig1 sig2, Recovers p hash sig1 (address prv1) ∧
      Recovers p hash sig2 (address prv2) ∧
      (EIP155Signer.newEIP155Signer c).signSlots sign hash prv1 (some prv2) =
        .ok (protectedSig c sig1, protectedSig c sig2) := by
  obtain ⟨sig1, signed1, recovers1⟩ := signs1
  obtain ⟨sig2, signed2, recovers2⟩ := signs2
  refine ⟨sig1, sig2, recovers1, recovers2, ?_⟩
  simp only [EIP155Signer.signSlots, signed1, signed2]
  exact withSignature_protected recovers1.length_eq recovers1.id
    recovers2.length_eq recovers2.id other

/-- Without a second key the second slot holds the empty signature. -/
theorem signSlots_none (other : c ≠ 0)
    (signs1 : Signs p sign address hash prv1) :
    ∃ sig1, Recovers p hash sig1 (address prv1) ∧
      (EIP155Signer.newEIP155Signer c).signSlots sign hash prv1 none =
        .ok (protectedSig c sig1, protectedSig c emptySignature) := by
  obtain ⟨sig1, signed1, recovers1⟩ := signs1
  refine ⟨sig1, recovers1, ?_⟩
  simp only [EIP155Signer.signSlots, signed1]
  exact withSignature_protected recovers1.length_eq recovers1.id
    (by decide) (by decide) other

theorem senders_protected (nonneg : 0 ≤ c) {sig1 sig2 : List UInt8}
    {address1 address2 : Address} (recovers1 : Recovers p hash sig1 address1)
    (recovers2 : Recovers p hash sig2 address2) :
    (EIP155Signer.newEIP155Signer c).senders p hash
        (protectedSig c sig1, protectedSig c sig2) =
      .ok (address1, address2) := by
  simp only [EIP155Signer.senders, recovers1.recoverSlot nonneg,
    recovers2.recoverSlot nonneg]

theorem recoverSlot_emptySignature (nonneg : 0 ≤ c)
    (rejects : p.validateSignatureValues 0 0 0 = false) (hash : Hash) :
    (EIP155Signer.newEIP155Signer c).recoverSlot p hash
        (protectedSig c emptySignature) = .error .invalidSig := by
  have reduced : 2 * c + 35 + 0 - c * 2 - 8 = 27 := by omega
  have slot : protectedSig c emptySignature =
      ⟨some (2 * c + 35 + 0), some 0, some 0⟩ := rfl
  have id : (uint64 27 - 27).toUInt8 = 0 := rfl
  simp only [EIP155Signer.recoverSlot, EIP155Signer.newEIP155Signer, slot,
    deriveChainId_protected nonneg (by decide : (0 : Int) ≤ 0 ∧ (0 : Int) ≤ 1),
    ne_eq, not_true_eq_false, if_false, reduced, recoverPlain, id, rejects]
  rfl

end Senders

/-- A balanced transaction whose real inputs are signed by their owners is
accepted exactly when the second slot is signed as well. -/
theorem signed_transaction_accepted_iff
    {sign : Hash → Key → Option (List UInt8)} {address : Key → Address}
    {c : Int} {reader : UtxoReader} {tx : Transaction} {prv1 : Key}
    {prv2 : Option Key} (positive : 1 ≤ c)
    (rejects : p.validateSignatureValues 0 0 0 = false)
    (signs1 : Signs p sign address (p.sigHash c tx) prv1)
    (signs2 : ∀ key, prv2 = some key →
      Signs p sign address (p.sigHash c tx) key)
    (size : ∀ signed, signTx p sign (EIP155Signer.newEIP155Signer c) tx prv1
      prv2 = .ok signed → p.txSize signed ≤ 32 * 1024)
    (fee : 0 < tx.fee) (distinct : tx.ins.1.id ≠ tx.ins.2.id)
    (outs : ∀ out ∈ tx.getOutsCopy, 0 ≤ out.amount)
    (owned1 : tx.ins.1.id.blockNum ≠ 0 → ∃ utxo,
      reader tx.ins.1.id = some utxo ∧ utxo.txOut.owner = address prv1)
    (owned2 : tx.ins.2.id.blockNum ≠ 0 → ∃ utxo,
      reader tx.ins.2.id = some utxo ∧
        prv2.map address = some utxo.txOut.owner)
    (balanced : (tx.realInputs.map (amountAt reader)).sum =
      (tx.getOutsCopy.map TxOut.amount).sum + tx.fee) :
    (∃ signed, signTx p sign (EIP155Signer.newEIP155Signer c) tx prv1 prv2 =
        .ok signed ∧
      UtxoTxValidator.validate p (EIP155Signer.newEIP155Signer c) reader
        signed = .ok ()) ↔ prv2.isSome = true := by
  have other : c ≠ 0 := by omega
  have nonneg : 0 ≤ c := by omega
  have chain : (EIP155Signer.newEIP155Signer c).chainId = c := rfl
  cases prv2 with
  | none =>
      obtain ⟨sig1, recovers1, slots⟩ := signSlots_none other signs1
      refine iff_of_false ?_ Bool.false_ne_true
      rintro ⟨signed, equal, accepted⟩
      rw [signTx, chain, slots] at equal
      obtain rfl := Except.ok.inj equal
      obtain ⟨senders, recovered, _⟩ :=
        ((UtxoTxValidator.validate_ok_iff _ _ _ _).mp accepted).owned
      rw [EIP155Signer.sender_eq, chain, p.sigHash_sigs] at recovered
      simp only [EIP155Signer.senders, recovers1.recoverSlot nonneg,
        recoverSlot_emptySignature nonneg rejects] at recovered
      cases recovered
  | some prv2 =>
      obtain ⟨sig1, sig2, recovers1, recovers2, slots⟩ :=
        signSlots_some other signs1 (signs2 prv2 rfl)
      have signedTx : signTx p sign (EIP155Signer.newEIP155Signer c) tx prv1
          (some prv2) = .ok { tx with
            sigs := (protectedSig c sig1, protectedSig c sig2) } := by
        rw [signTx, chain, slots]
        rfl
      refine iff_of_true ⟨_, signedTx, ?_⟩ rfl
      have recovered : (EIP155Signer.newEIP155Signer c).sender p
          { tx with sigs := (protectedSig c sig1, protectedSig c sig2) } =
          .ok (address prv1, address prv2) := by
        rw [EIP155Signer.sender_eq, chain, p.sigHash_sigs]
        exact senders_protected nonneg recovers1 recovers2
      refine (UtxoTxValidator.validate_ok_iff _ _ _ _).mpr
        { size := size _ signedTx
          feePositive := fee
          owned := ⟨_, recovered, ?_⟩
          distinct := distinct
          outsNonneg := outs
          balanced := balanced }
      intro slot member real
      rcases List.mem_pair.mp member with rfl | rfl
      · exact owned1 real
      · obtain ⟨utxo, found, owner⟩ := owned2 real
        exact ⟨utxo, found, (Option.some.inj owner).symm⟩

end Sign

namespace Sample

def payment : Transaction :=
  Transaction.newTransaction spend.ins.1 spend.ins.2 spend.outs.1 spend.outs.2
    spend.fee

def paymentHash : Hash :=
  0x1f6a5b9b24e41ea1b1caaaceaee7fb0aaed6fe483ad092392c4813f49d170d4b

def aliceSignature : List UInt8 :=
  bigEndian 32
      0xe5990d6b95cbaf813f0536f3d8a95b135313385538508a9bd93f2a1cc5108ac6 ++
    bigEndian 32
      0x15c699eccdfc4e242aef8e9f50ee09f669b12eb12e5fc8d4278fdd246799f628 ++ [1]

def aliceSign (hash : Hash) (_ : Unit) : Option (List UInt8) :=
  if hash = paymentHash then some aliceSignature else none

def depositReader : UtxoReader := fun id =>
  if id = ⟨1, 0, 0⟩ then some ⟨id, ⟨alice, 5⟩⟩ else none

theorem sigHash_payment : primitives.sigHash 1 payment = paymentHash := by
  decide +kernel

theorem aliceSigns :
    Signs primitives aliceSign (fun _ => alice)
      (primitives.sigHash 1 payment) () := by
  rw [sigHash_payment]
  refine ⟨aliceSignature, rfl, ?_, ?_, ?_, pubkey, ?_, rfl, ?_⟩
  · decide +kernel
  · decide +kernel
  · decide +kernel
  · decide +kernel
  · decide +kernel

theorem payment_signed :
    signTx primitives aliceSign (EIP155Signer.newEIP155Signer 1)
      payment () (some ()) = .ok spend := by
  decide +kernel

end Sample

open Sample in
/-- The depositor signs both slots of the payment. -/
theorem payment_with_both_keys_accepted :
    ∃ signed, signTx primitives aliceSign
        (EIP155Signer.newEIP155Signer 1) payment () (some ()) = .ok signed ∧
      UtxoTxValidator.validate primitives
        (EIP155Signer.newEIP155Signer 1) depositReader signed = .ok () := by
  refine (signed_transaction_accepted_iff (le_refl 1)
    (by decide +kernel) aliceSigns (fun _ _ => aliceSigns) ?_ (by decide)
    (by decide) (by decide +kernel) ?_ ?_ (by decide +kernel)).mpr rfl
  · intro signed equal
    rw [payment_signed] at equal
    obtain rfl := Except.ok.inj equal
    decide +kernel
  · intro _
    exact ⟨⟨⟨1, 0, 0⟩, ⟨alice, 5⟩⟩, rfl, rfl⟩
  · intro real
    exact absurd rfl real

open Sample in
/-- The second input of the payment is null, but without a second key the
validator finds no sender. -/
theorem payment_with_one_key_rejected :
    ∃ signed, signTx primitives aliceSign
        (EIP155Signer.newEIP155Signer 1) payment () none = .ok signed ∧
      payment.ins.2.isNullUTXO = true ∧
      UtxoTxValidator.validate primitives
        (EIP155Signer.newEIP155Signer 1) depositReader signed =
          .error .invalidSender := by
  refine ⟨{ spend with sigs := (aliceSig, ⟨some 37, some 0, some 0⟩) }, ?_,
    rfl, ?_⟩
  · decide +kernel
  · decide +kernel

end Plasma.Core
