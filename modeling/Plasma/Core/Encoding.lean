import Plasma.Core.Types
import Plasma.Lib.Rlp

/-!
# Encoded transactions and blocks

`EncodeRLP` writes the fields of a structure in their order.  Pointers, arrays
and embedded structures become lists of their own, and a negative number cannot
be encoded.
-/

namespace Plasma.Core

open Plasma.Lib Plasma.Lib.Rlp

def encodeBigInt (value : Int) : Option (List UInt8) :=
  if value < 0 then none else some (encodeNat value.toNat)

/-- A missing number is encoded as zero. -/
def encodeBigIntPtr : Option Int → Option (List UInt8)
  | none => some (encodeNat 0)
  | some value => encodeBigInt value

def UTXOID.encodeRLP (id : UTXOID) : List UInt8 :=
  encodeList [encodeNat id.blockNum.toNat, encodeNat id.txIndex.toNat,
    encodeNat id.outIndex.toNat]

def TxOut.encodeRLP (out : TxOut) : Option (List UInt8) := do
  let amount ← encodeBigInt out.amount
  return encodeList [encodeString (bigEndian 20 out.owner.toNat), amount]

def UTXO.encodeRLP (utxo : UTXO) : Option (List UInt8) := do
  let txOut ← utxo.txOut.encodeRLP
  return encodeList [utxo.utxoid.encodeRLP, txOut]

def Sig.encodeRLP (sig : Sig) : Option (List UInt8) := do
  let v ← encodeBigIntPtr sig.v
  let r ← encodeBigIntPtr sig.r
  let s ← encodeBigIntPtr sig.s
  return encodeList [v, r, s]

namespace Transaction

/-- The four fields of `txdata`. -/
def encodedFields (tx : Transaction) : Option (List (List UInt8)) := do
  let in1 ← tx.ins.1.encodeRLP
  let in2 ← tx.ins.2.encodeRLP
  let out1 ← tx.outs.1.encodeRLP
  let out2 ← tx.outs.2.encodeRLP
  let fee ← encodeBigInt tx.fee
  let sig1 ← tx.sigs.1.encodeRLP
  let sig2 ← tx.sigs.2.encodeRLP
  return [encodeList [in1, in2], encodeList [out1, out2], fee,
    encodeList [sig1, sig2]]

def encodeRLP (tx : Transaction) : Option (List UInt8) :=
  tx.encodedFields.map encodeList

/-- An encoded transaction is a list of three lists and a number. -/
theorem encodedFields_shape {tx : Transaction} {items : List (List UInt8)}
    (encoded : tx.encodedFields = some items) :
    ∃ ins outs fee sigs, items =
      [encodeList ins, encodeList outs, encodeString fee,
        encodeList sigs] := by
  simp only [encodedFields, Option.bind_eq_bind, Option.bind_eq_some_iff,
    Option.pure_def, Option.some.injEq] at encoded
  obtain ⟨_, _, _, _, _, _, _, _, fee, feeRead, _, _, _, _, rfl⟩ := encoded
  rw [encodeBigInt] at feeRead
  split at feeRead
  · cases feeRead
  · cases feeRead
    exact ⟨_, _, _, _, rfl⟩

def encodes (tx : Transaction) : Bool := tx.encodeRLP.isSome

/-- What is signed: the transaction without its signatures, the chain id and
two zeros. -/
def encodeUnsigned (chainId : Int) (tx : Transaction) :
    Option (List UInt8) := do
  let in1 ← tx.ins.1.encodeRLP
  let in2 ← tx.ins.2.encodeRLP
  let out1 ← tx.outs.1.encodeRLP
  let out2 ← tx.outs.2.encodeRLP
  let fee ← encodeBigInt tx.fee
  let id ← encodeBigInt chainId
  return encodeList [encodeList [in1, in2], encodeList [out1, out2], fee, id,
    encodeNat 0, encodeNat 0]

end Transaction

/-- `EIP155Signer.Hash`.  The encoder writes nothing when it fails. -/
def Primitives.sigHash (p : Primitives) (chainId : Int) (tx : Transaction) :
    Hash :=
  p.keccak256 ((tx.encodeUnsigned chainId).getD [])

theorem Primitives.sigHash_sigs (p : Primitives) (chainId : Int)
    (tx : Transaction) (sigs : Sig × Sig) :
    p.sigHash chainId { tx with sigs := sigs } = p.sigHash chainId tx := rfl

def encodeTransactions (txs : List Transaction) : Option (List UInt8) :=
  (txs.mapM Transaction.encodeRLP).map encodeList

/-- The encoding of a `Body`, a structure with one field. -/
def encodeBody (txs : List Transaction) : Option (List UInt8) :=
  (encodeTransactions txs).map fun transactions => encodeList [transactions]

def Header.encodeRLP (header : Header) : Option (List UInt8) := do
  let number ← encodeBigInt header.number
  let time ← encodeBigInt header.time
  return encodeList [encodeString (bigEndian 32 header.parentHash.toNat),
    encodeString (bigEndian 20 header.coinbase.toNat),
    encodeString (bigEndian 32 header.txHash.toNat), number, time,
    encodeString header.extra]

def Block.encodeRLP (block : Block) : Option (List UInt8) := do
  let header ← block.header.encodeRLP
  let transactions ← encodeTransactions block.transactions
  return encodeList [header, transactions]

def Header.encodes (header : Header) : Bool := header.encodeRLP.isSome

def bodyEncodes (txs : List Transaction) : Bool := (encodeBody txs).isSome

def Block.encodes (block : Block) : Bool := block.encodeRLP.isSome

theorem isSome_encodeBigInt (value : Int) :
    (encodeBigInt value).isSome = decide (0 ≤ value) := by
  rw [encodeBigInt]
  split
  · simpa
  · simpa using Int.not_lt.mp (by assumption)

theorem isSome_mapM {α β : Type} (encode : α → Option β) (items : List α) :
    (items.mapM encode).isSome = items.all fun item =>
      (encode item).isSome := by
  induction items with
  | nil => rfl
  | cons item items induction =>
      rw [List.mapM_cons, List.all_cons, ← induction]
      cases encode item with
      | none => rfl
      | some code => cases items.mapM encode <;> rfl

theorem bodyEncodes_eq (txs : List Transaction) :
    bodyEncodes txs = txs.all Transaction.encodes := by
  simp only [bodyEncodes, encodeBody, encodeTransactions, Option.isSome_map,
    isSome_mapM]
  rfl

theorem Header.encodes_eq (header : Header) :
    header.encodes = (decide (0 ≤ header.number) &&
      decide (0 ≤ header.time)) := by
  rw [← isSome_encodeBigInt, ← isSome_encodeBigInt, Header.encodes,
    Header.encodeRLP]
  cases encodeBigInt header.number <;> cases encodeBigInt header.time <;> rfl

theorem Block.encodes_eq (block : Block) :
    block.encodes =
      (block.header.encodes && bodyEncodes block.transactions) := by
  rw [Block.encodes, Block.encodeRLP, Header.encodes, bodyEncodes, encodeBody]
  cases block.header.encodeRLP <;>
    cases encodeTransactions block.transactions <;> rfl

theorem Block.encodes_header {block : Block} (encodes : block.encodes = true) :
    block.header.encodes = true := by
  rw [Block.encodes_eq, Bool.and_eq_true] at encodes
  exact encodes.1

theorem Block.encodes_body {block : Block} (encodes : block.encodes = true) :
    bodyEncodes block.transactions = true := by
  rw [Block.encodes_eq, Bool.and_eq_true] at encodes
  exact encodes.2

end Plasma.Core
