import Plasma.Core.Encoding

/-!
# Sender recovery

`EIP155Signer.Sender` recovers one address for each of the two signature slots
of a transaction.  Reading an absent signature component is a nil dereference,
which is kept apart from the errors the functions return.
-/

namespace Plasma.Core

open Plasma.Lib

inductive SenderError where
  | invalidChainId
  | invalidSig
  | unrecoverable
  | invalidPublicKey
  | nilPointer
deriving DecidableEq, Repr

/-- `big.Int.BitLen` of an integer is at most `bits`. -/
def bitLenAtMost (value : Int) (bits : Nat) : Bool :=
  value.natAbs < 2 ^ bits

/-- The chain id encoded in a signature's `V`; the subtraction wraps in the
64-bit branch. -/
def deriveChainId (v : Int) : Int :=
  if bitLenAtMost v 64 then
    let low := uint64 v
    if low = 27 ∨ low = 28 then 0
    else (((low - 35) / 2).toNat : Int)
  else (v - 35) / 2

structure EIP155Signer where
  chainId : Int
  chainIdMul : Int
deriving DecidableEq, Repr

namespace EIP155Signer

def newEIP155Signer (chainId : Int) : EIP155Signer :=
  { chainId := chainId, chainIdMul := chainId * 2 }

end EIP155Signer

section

variable (p : Primitives)

/-- The last twenty bytes of the hash of an uncompressed public key. -/
def pubkeyAddress (pub : List UInt8) : Address :=
  (p.keccak256 (pub.drop 1)).setWidth 160

def recoverPlain (sighash : Hash) (r s vb : Int) :
    Except SenderError Address :=
  if ¬ bitLenAtMost vb 8 then .error .invalidSig
  else
    let v : UInt8 := (uint64 vb - 27).toUInt8
    if ¬ p.validateSignatureValues v r s then .error .invalidSig
    else
      match p.ecrecover sighash r s v with
      | none => .error .unrecoverable
      | some pub =>
          if pub.head? = some 4 then .ok (pubkeyAddress p pub)
          else .error .invalidPublicKey

/-- Recover the address of one signature slot.  The chain id and the length of
`V` are looked at before `R` and `S` are read. -/
def EIP155Signer.recoverSlot (signer : EIP155Signer) (sighash : Hash)
    (sig : Sig) : Except SenderError Address :=
  match sig.v with
  | none => .error .nilPointer
  | some v =>
      let vb := v - signer.chainIdMul - 8
      if deriveChainId v ≠ signer.chainId then .error .invalidChainId
      else
        match sig.r, sig.s with
        | some r, some s => recoverPlain p sighash r s vb
        | _, _ =>
            if ¬ bitLenAtMost vb 8 then .error .invalidSig
            else .error .nilPointer

/-- The senders of both slots, in order; the first failing slot decides the
error. -/
def EIP155Signer.sender (signer : EIP155Signer) (tx : Transaction) :
    Except SenderError (Address × Address) :=
  let sighash := p.sigHash signer.chainId tx
  match signer.recoverSlot p sighash tx.sigs.1 with
  | .error failure => .error failure
  | .ok first =>
      match signer.recoverSlot p sighash tx.sigs.2 with
      | .error failure => .error failure
      | .ok second => .ok (first, second)

end

end Plasma.Core
