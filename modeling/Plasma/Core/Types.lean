import Plasma.Lib.BigInt

/-!
# Transactions, headers and blocks

The data of `core/types`.  Inputs, outputs, amounts and the fee of a
transaction are present; the components of a signature stay optional, because
a deposit transaction is built without signatures.  Serialisation, hashing and
curve arithmetic come from other packages and are collected in `Primitives`.
-/

namespace Plasma.Core

open Plasma.Lib

abbrev Hash := BitVec 256

abbrev Address := BitVec 160

/-- The identity of an output: block number, position of the transaction in
the block, position of the output in the transaction. -/
structure UTXOID where
  blockNum : UInt64
  txIndex : UInt32
  outIndex : UInt8
deriving DecidableEq, Repr

structure TxOut where
  owner : Address
  amount : Int
deriving DecidableEq, Repr

structure UTXO where
  utxoid : UTXOID
  txOut : TxOut
deriving DecidableEq, Repr

structure Sig where
  v : Option Int
  r : Option Int
  s : Option Int
deriving DecidableEq, Repr

structure Transaction where
  ins : UTXO × UTXO
  outs : TxOut × TxOut
  fee : Int
  sigs : Sig × Sig
deriving DecidableEq, Repr

structure Header where
  parentHash : Hash
  coinbase : Address
  txHash : Hash
  number : Int
  time : Int
  extra : List UInt8
deriving DecidableEq, Repr

structure Block where
  header : Header
  transactions : List Transaction
deriving DecidableEq, Repr

/-- What the node takes from other packages: RLP sizes, Keccak hashes over RLP
encodings, the transaction trie and the curve operations. -/
structure Primitives where
  headerHash : Header → Hash
  txHash : Transaction → Hash
  txSize : Transaction → Nat
  deriveSha : List Transaction → Hash
  validateSignatureValues : UInt8 → Int → Int → Bool
  ecrecover : Hash → Int → Int → UInt8 → Option (List UInt8)
  keccak256 : List UInt8 → Hash

namespace UTXOID

/-- Two identities are equal when all three components are. -/
def equals (id other : UTXOID) : Bool :=
  id.blockNum == other.blockNum && id.txIndex == other.txIndex &&
    id.outIndex == other.outIndex

theorem equals_iff (id other : UTXOID) :
    id.equals other = true ↔ id = other := by
  cases id
  cases other
  simp [equals, and_assoc]

end UTXOID

namespace UTXO

def id (utxo : UTXO) : UTXOID := utxo.utxoid

def equals (utxo other : UTXO) : Bool :=
  utxo.utxoid.equals other.utxoid

def isNullUTXO (utxo : UTXO) : Bool :=
  utxo.utxoid.blockNum == 0

end UTXO

namespace Transaction

def newTransaction (in1 in2 : UTXO) (out1 out2 : TxOut) (fee : Int) :
    Transaction :=
  { ins := (in1, in2)
    outs := (out1, out2)
    fee := fee
    sigs := (⟨none, none, none⟩, ⟨none, none, none⟩) }

def getInsCopy (tx : Transaction) : List UTXO :=
  [tx.ins.1, tx.ins.2]

def getOutsCopy (tx : Transaction) : List TxOut :=
  [tx.outs.1, tx.outs.2]

end Transaction

namespace Block

variable (p : Primitives)

def number (block : Block) : Int := block.header.number

def numberU64 (block : Block) : UInt64 := uint64 block.header.number

def hash (block : Block) : Hash := p.headerHash block.header

/-- The root of an empty transaction list. -/
def emptyRootHash : Hash := p.deriveSha []

/-- The transaction root in the given header is replaced by the one of the
transactions. -/
def newBlock (header : Header) (txs : List Transaction) : Block :=
  match txs with
  | [] =>
      { header := { header with txHash := emptyRootHash p }
        transactions := [] }
  | tx :: rest =>
      { header := { header with txHash := p.deriveSha (tx :: rest) }
        transactions := tx :: rest }

theorem newBlock_eq (header : Header) (txs : List Transaction) :
    newBlock p header txs =
      { header := { header with txHash := p.deriveSha txs }
        transactions := txs } := by
  cases txs <;> rfl

@[simp] theorem newBlock_transactions (header : Header)
    (txs : List Transaction) :
    (newBlock p header txs).transactions = txs := by
  rw [newBlock_eq]

@[simp] theorem newBlock_header (header : Header) (txs : List Transaction) :
    (newBlock p header txs).header =
      { header with txHash := p.deriveSha txs } := by
  rw [newBlock_eq]

end Block

end Plasma.Core
