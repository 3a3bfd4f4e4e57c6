import Plasma.Core.Encoding
import Plasma.Store.Database

/-!
# Typed database accessors

The accessors of `core/rawdb` over the logical keys of the schema.  A stored
output keeps the owner and the magnitude of the amount, which is what the byte
encoding of `WriteUTXO` retains.  `WriteBody` and `WriteHeader` only log the
error of a value without an encoding and store empty data, which no reader
accepts.
-/

namespace Plasma.Core

open Plasma.Lib Plasma.Store

/-- The logical keys of the schema. -/
inductive DbKey where
  | canonicalHash (number : UInt64)
  | headerNumber (hash : Hash)
  | header (number : UInt64) (hash : Hash)
  | body (number : UInt64) (hash : Hash)
  | utxo (id : UTXOID)
  | headHeader
  | headBlock
  | headFastBlock
  | fromBlock
  | eventMarker (md5 : BitVec 128)
deriving DecidableEq, Repr

structure StoredOut where
  owner : Address
  amount : Nat
deriving DecidableEq, Repr

/-- `noData` is the empty entry a failed encoding leaves. -/
inductive DbValue where
  | hash (value : Hash)
  | number (value : UInt64)
  | header (value : Header)
  | body (transactions : List Transaction)
  | utxo (out : StoredOut)
  | fromBlock (value : Nat)
  | event (json : List UInt8)
  | noData

abbrev Database := LDBDatabase DbKey DbValue

abbrev Contents := DbKey → Option DbValue

namespace Rawdb

/-- Read an entry that holds a hash; an absent entry reads as the zero
hash. -/
def readHash (d : Database) (key : DbKey) : Hash :=
  match d.get key with
  | some (.hash value) => value
  | _ => 0

def readCanonicalHash (d : Database) (number : UInt64) : Hash :=
  readHash d (.canonicalHash number)

def readHeadHeaderHash (d : Database) : Hash := readHash d .headHeader

def readHeadBlockHash (d : Database) : Hash := readHash d .headBlock

def readHeadFastBlockHash (d : Database) : Hash := readHash d .headFastBlock

def readHeaderNumber (d : Database) (hash : Hash) : Option UInt64 :=
  match d.get (.headerNumber hash) with
  | some (.number value) => some value
  | _ => none

def readHeader (d : Database) (hash : Hash) (number : UInt64) :
    Option Header :=
  match d.get (.header number hash) with
  | some (.header value) => some value
  | _ => none

def readBody (d : Database) (hash : Hash) (number : UInt64) :
    Option (List Transaction) :=
  match d.get (.body number hash) with
  | some (.body transactions) => some transactions
  | _ => none

def readBlock (d : Database) (hash : Hash) (number : UInt64) :
    Option Block :=
  match readHeader d hash number with
  | none => none
  | some header =>
      match readBody d hash number with
      | none => none
      | some transactions => some ⟨header, transactions⟩

/-- The outputs recorded in committed contents. -/
def utxos (contents : Contents) (id : UTXOID) : Option StoredOut :=
  match contents (.utxo id) with
  | some (.utxo out) => some out
  | _ => none

def readUTXO (d : Database) (id : UTXOID) : Option UTXO :=
  (utxos d.db id).map fun out => ⟨id, ⟨out.owner, out.amount⟩⟩

def bodyData (transactions : List Transaction) : DbValue :=
  if bodyEncodes transactions then .body transactions else .noData

def headerData (header : Header) : DbValue :=
  if header.encodes then .header header else .noData

theorem bodyData_of_encodes {transactions : List Transaction}
    (encodes : bodyEncodes transactions = true) :
    bodyData transactions = .body transactions :=
  if_pos encodes

theorem headerData_of_encodes {header : Header}
    (encodes : header.encodes = true) : headerData header = .header header :=
  if_pos encodes

section Writers

variable (disk : Bool)

def writeCanonicalHash (hash : Hash) (number : UInt64) (d : Database) :
    Database :=
  (d.put disk (.canonicalHash number) (.hash hash)).1

def writeHeadHeaderHash (hash : Hash) (d : Database) : Database :=
  (d.put disk .headHeader (.hash hash)).1

def writeHeadBlockHash (hash : Hash) (d : Database) : Database :=
  (d.put disk .headBlock (.hash hash)).1

def writeHeadFastBlockHash (hash : Hash) (d : Database) : Database :=
  (d.put disk .headFastBlock (.hash hash)).1

def writeBody (hash : Hash) (number : UInt64)
    (transactions : List Transaction) (d : Database) : Database :=
  (d.put disk (.body number hash) (bodyData transactions)).1

def writeHeader (p : Primitives) (header : Header) (d : Database) :
    Database :=
  let hash := p.headerHash header
  let number := uint64 header.number
  let d := (d.put disk (.headerNumber hash) (.number number)).1
  (d.put disk (.header number hash) (headerData header)).1

def writeBlock (p : Primitives) (block : Block) (d : Database) : Database :=
  writeHeader disk p block.header
    (writeBody disk (block.hash p) block.numberU64 block.transactions d)

def writeUTXO (utxo : UTXO) (d : Database) :
    Database × Except DbError Unit :=
  d.put disk (.utxo utxo.id)
    (.utxo ⟨utxo.txOut.owner, utxo.txOut.amount.natAbs⟩)

def deleteUTXO (id : UTXOID) (d : Database) :
    Database × Except DbError Unit :=
  d.delete disk (.utxo id)

end Writers

/-- The changes `writeBlock` issues. -/
def blockChanges (p : Primitives) (block : Block) :
    List (Change DbKey DbValue) :=
  [.put (.body block.numberU64 (block.hash p)) (bodyData block.transactions),
    .put (.headerNumber (block.hash p)) (.number block.numberU64),
    .put (.header block.numberU64 (block.hash p)) (headerData block.header)]

theorem writeBlock_inBatch (disk : Bool) (p : Primitives) (block : Block)
    (contents : Contents) (batch : List (Change DbKey DbValue)) :
    writeBlock disk p block ⟨contents, true, batch⟩ =
      ⟨contents, true, batch ++ blockChanges p block⟩ := by
  simp [writeBlock, writeBody, writeHeader, blockChanges, Block.hash,
    Block.numberU64]

/-- The part of a batch that concerns outputs. -/
def utxoChanges :
    List (Change DbKey DbValue) → List (Change UTXOID StoredOut)
  | [] => []
  | .put (.utxo id) (.utxo out) :: batch => .put id out :: utxoChanges batch
  | .put (.utxo id) _ :: batch => .delete id :: utxoChanges batch
  | .delete (.utxo id) :: batch => .delete id :: utxoChanges batch
  | _ :: batch => utxoChanges batch

private theorem utxos_apply_of_utxo (change : Change DbKey DbValue)
    (contents : Contents) {id : UTXOID} (key : change.key = .utxo id) :
    utxos (change.apply contents) =
      Function.update (utxos contents) id
        (match change.outcome with
          | some (.utxo out) => some out
          | _ => none) := by
  funext other
  by_cases same : other = id
  · subst same
    simp [utxos, Change.apply, key]
  · have different : DbKey.utxo other ≠ change.key := by
      rw [key]
      intro equality
      exact same (DbKey.utxo.inj equality)
    simp [utxos, Change.apply_of_ne different, same]

private theorem utxos_apply_of_other (change : Change DbKey DbValue)
    (contents : Contents) (other : ∀ id, change.key ≠ .utxo id) :
    utxos (change.apply contents) = utxos contents := by
  funext id
  simp [utxos, Change.apply_of_ne (other id).symm]

/-- Committing a batch changes the recorded outputs by its output part. -/
theorem utxos_applyAll (batch : List (Change DbKey DbValue))
    (contents : Contents) :
    utxos (applyAll batch contents) =
      applyAll (utxoChanges batch) (utxos contents) := by
  induction batch generalizing contents with
  | nil => rfl
  | cons change batch induction =>
      rw [applyAll_cons, induction]
      cases change with
      | delete key =>
          cases key with
          | utxo id =>
              rw [utxos_apply_of_utxo _ _ (show _ = DbKey.utxo id from rfl)]
              rfl
          | _ =>
              rw [utxos_apply_of_other _ _ (by simp [Change.key])]
              rfl
      | put key value =>
          cases key with
          | utxo id =>
              rw [utxos_apply_of_utxo _ _ (show _ = DbKey.utxo id from rfl)]
              cases value <;> rfl
          | _ =>
              rw [utxos_apply_of_other _ _ (by simp [Change.key])]
              rfl

theorem utxoChanges_append (first second : List (Change DbKey DbValue)) :
    utxoChanges (first ++ second) =
      utxoChanges first ++ utxoChanges second := by
  induction first with
  | nil => rfl
  | cons change batch induction =>
      cases change with
      | delete key => cases key <;> simp [utxoChanges, induction]
      | put key value =>
          cases key with
          | utxo id => cases value <;> simp [utxoChanges, induction]
          | _ => simp [utxoChanges, induction]

@[simp] theorem utxoChanges_blockChanges (p : Primitives) (block : Block) :
    utxoChanges (blockChanges p block) = [] := rfl

end Rawdb

end Plasma.Core
