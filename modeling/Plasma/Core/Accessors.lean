import Plasma.Core.Rawdb
import Plasma.Lib.Rlp

/-!
# The byte database behind the typed accessors

`core/rawdb` keeps every table in one flat space of byte keys.  The key
builders, writers, deleters and readers are given here over byte strings, and
the typed accessors of `Plasma.Core.Rawdb` are shown to be what they compute.
-/

namespace Plasma.Core.Accessors

open Plasma.Lib Plasma.Store

section Schema

def ascii (text : List Char) : List UInt8 :=
  text.map fun char => UInt8.ofNat char.toNat

def headHeaderKey : List UInt8 :=
  ascii ['L', 'a', 's', 't', 'H', 'e', 'a', 'd', 'e', 'r']

def headBlockKey : List UInt8 :=
  ascii ['L', 'a', 's', 't', 'B', 'l', 'o', 'c', 'k']

def headFastBlockKey : List UInt8 :=
  ascii ['L', 'a', 's', 't', 'F', 'a', 's', 't']

def fromBlockKey : List UInt8 :=
  ascii ['R', 'o', 'o', 't', 'C', 'h', 'a', 'i', 'n', '.', 'F', 'r', 'o', 'm',
    'B', 'l', 'o', 'c', 'k']

def headerPrefix : List UInt8 := ascii ['h']

def headerTDSuffix : List UInt8 := ascii ['t']

def headerHashSuffix : List UInt8 := ascii ['n']

def headerNumberPrefix : List UInt8 := ascii ['H']

def blockBodyPrefix : List UInt8 := ascii ['b']

def blockReceiptsPrefix : List UInt8 := ascii ['r']

def utxoPrefix : List UInt8 := ascii ['c']

def hashBytes (hash : Hash) : List UInt8 := bigEndian 32 hash.toNat

def encodeBlockNumber (number : UInt64) : List UInt8 :=
  bigEndian 8 number.toNat

def headerKey (number : UInt64) (hash : Hash) : List UInt8 :=
  headerPrefix ++ encodeBlockNumber number ++ hashBytes hash

def headerTDKey (number : UInt64) (hash : Hash) : List UInt8 :=
  headerKey number hash ++ headerTDSuffix

def headerHashKey (number : UInt64) : List UInt8 :=
  headerPrefix ++ encodeBlockNumber number ++ headerHashSuffix

def headerNumberKey (hash : Hash) : List UInt8 :=
  headerNumberPrefix ++ hashBytes hash

def blockBodyKey (number : UInt64) (hash : Hash) : List UInt8 :=
  blockBodyPrefix ++ encodeBlockNumber number ++ hashBytes hash

def blockReceiptsKey (number : UInt64) (hash : Hash) : List UInt8 :=
  blockReceiptsPrefix ++ encodeBlockNumber number ++ hashBytes hash

def utxoKey (id : UTXOID) : List UInt8 :=
  utxoPrefix ++ bigEndian 8 id.blockNum.toNat ++
    bigEndian 4 id.txIndex.toNat ++ [id.outIndex]

/-- A marker is stored under the md5 sum itself. -/
def markerKey (md5 : BitVec 128) : List UInt8 := bigEndian 16 md5.toNat

end Schema

/-- The logical keys of all tables, those the typed accessors leave out
included. -/
inductive LogicalKey where
  | entry (key : DbKey)
  | td (number : UInt64) (hash : Hash)
  | receipts (number : UInt64) (hash : Hash)
deriving DecidableEq

namespace LogicalKey

def bytes : LogicalKey → List UInt8
  | .entry (.canonicalHash number) => headerHashKey number
  | .entry (.headerNumber hash) => headerNumberKey hash
  | .entry (.header number hash) => headerKey number hash
  | .entry (.body number hash) => blockBodyKey number hash
  | .entry (.utxo id) => utxoKey id
  | .entry .headHeader => headHeaderKey
  | .entry .headBlock => headBlockKey
  | .entry .headFastBlock => headFastBlockKey
  | .entry .fromBlock => fromBlockKey
  | .entry (.eventMarker md5) => markerKey md5
  | .td number hash => headerTDKey number hash
  | .receipts number hash => blockReceiptsKey number hash

end LogicalKey

section Parsing

def parseHash (data : List UInt8) : Hash :=
  BitVec.ofNat 256 (fromBigEndian data)

def parseNumber (data : List UInt8) : UInt64 :=
  UInt64.ofNat (fromBigEndian data)

@[simp] theorem parseHash_hashBytes (hash : Hash) :
    parseHash (hashBytes hash) = hash := by
  rw [parseHash, hashBytes, fromBigEndian_bigEndian hash.isLt,
    BitVec.ofNat_toNat, BitVec.setWidth_eq]

@[simp] theorem parseNumber_encodeBlockNumber (number : UInt64) :
    parseNumber (encodeBlockNumber number) = number := by
  rw [parseNumber, encodeBlockNumber,
    fromBigEndian_bigEndian number.toNat_lt, UInt64.ofNat_toNat]

@[simp] theorem length_hashBytes (hash : Hash) :
    (hashBytes hash).length = 32 :=
  length_bigEndian _ _

@[simp] theorem length_encodeBlockNumber (number : UInt64) :
    (encodeBlockNumber number).length = 8 :=
  length_bigEndian _ _

@[simp] theorem take_hashBytes (hash : Hash) :
    (hashBytes hash).take 32 = hashBytes hash :=
  List.take_of_length_le (length_hashBytes hash).le

/-- The number and hash behind a one-byte tag. -/
def parseLocation (data : List UInt8) : UInt64 × Hash :=
  (parseNumber ((data.drop 1).take 8), parseHash ((data.drop 9).take 32))

def parseUTXOID (data : List UInt8) : UTXOID where
  blockNum := parseNumber ((data.drop 1).take 8)
  txIndex := UInt32.ofNat (fromBigEndian ((data.drop 9).take 4))
  outIndex := data.getD 13 0

theorem parseUTXOID_utxoKey (id : UTXOID) :
    parseUTXOID (utxoKey id) = id := by
  have block := parseNumber_encodeBlockNumber id.blockNum
  have tx : UInt32.ofNat (fromBigEndian (bigEndian 4 id.txIndex.toNat)) =
      id.txIndex := by
    rw [fromBigEndian_bigEndian id.txIndex.toNat_lt, UInt32.ofNat_toNat]
  rw [encodeBlockNumber] at block
  simp [parseUTXOID, utxoKey, utxoPrefix, ascii, block, tx]

/-- The logical key a stored key belongs to.  The families have different
lengths, except that head hash entries share ten bytes with one table, and
three tables of forty-one bytes differ in their tag. -/
def parseKey (data : List UInt8) : LogicalKey :=
  let location := parseLocation data
  if data.length = 8 then .entry .headFastBlock
  else if data.length = 9 then .entry .headBlock
  else if data.length = 10 then
    if data.take 1 = headerPrefix then .entry (.canonicalHash location.1)
    else .entry .headHeader
  else if data.length = 14 then .entry (.utxo (parseUTXOID data))
  else if data.length = 16 then
    .entry (.eventMarker (BitVec.ofNat 128 (fromBigEndian data)))
  else if data.length = 19 then .entry .fromBlock
  else if data.length = 33 then
    .entry (.headerNumber (parseHash (data.drop 1)))
  else if data.length = 42 then .td location.1 location.2
  else if data.take 1 = headerPrefix then
    .entry (.header location.1 location.2)
  else if data.take 1 = blockBodyPrefix then
    .entry (.body location.1 location.2)
  else .receipts location.1 location.2

theorem parseKey_bytes (key : LogicalKey) : parseKey key.bytes = key := by
  cases key with
  | td number hash =>
      simp [parseKey, LogicalKey.bytes, headerTDKey, headerKey, headerPrefix,
        headerTDSuffix, ascii, parseLocation]
  | receipts number hash =>
      simp [parseKey, LogicalKey.bytes, blockReceiptsKey, headerPrefix,
        blockReceiptsPrefix, blockBodyPrefix, ascii, parseLocation]
  | entry key =>
      cases key with
      | headHeader => rfl
      | headBlock => rfl
      | headFastBlock => rfl
      | fromBlock => rfl
      | canonicalHash number =>
          simp [parseKey, LogicalKey.bytes, headerHashKey, headerPrefix,
            headerHashSuffix, ascii, parseLocation]
      | headerNumber hash =>
          simp [parseKey, LogicalKey.bytes, headerNumberKey,
            headerNumberPrefix, ascii]
      | header number hash =>
          simp [parseKey, LogicalKey.bytes, headerKey, headerPrefix, ascii,
            parseLocation]
      | body number hash =>
          simp [parseKey, LogicalKey.bytes, blockBodyKey, headerPrefix,
            blockBodyPrefix, ascii, parseLocation]
      | utxo id =>
          have length : (utxoKey id).length = 14 := by
            simp [utxoKey, utxoPrefix, ascii]
          simp [parseKey, LogicalKey.bytes, length, parseUTXOID_utxoKey]
      | eventMarker md5 =>
          have sum : fromBigEndian (bigEndian 16 md5.toNat) = md5.toNat :=
            fromBigEndian_bigEndian md5.isLt
          simp [parseKey, LogicalKey.bytes, markerKey, sum]

end Parsing

/-- No two logical keys share a stored key. -/
theorem LogicalKey.bytes_injective : Function.Injective LogicalKey.bytes :=
  Function.LeftInverse.injective parseKey_bytes

/-- RLP encoding and decoding of one type; either can fail. -/
structure RlpCodec (Value : Type) where
  encode : Value → Option (List UInt8)
  decode : List UInt8 → Option Value

namespace RlpCodec

variable {Value : Type} (codec : RlpCodec Value)

/-- Decoding inverts encoding, and no encoding is empty. -/
def Inverts : Prop :=
  ∀ value data, codec.encode value = some data →
    data ≠ [] ∧ codec.decode data = some value

/-- A failed encoding is logged and leaves no data. -/
def encodeToBytes (value : Value) : List UInt8 :=
  (codec.encode value).getD []

def encodes (value : Value) : Bool := (codec.encode value).isSome

def read (data : List UInt8) : Option Value :=
  if data.length = 0 then none else codec.decode data

@[simp] theorem read_nil : codec.read [] = none := rfl

variable {codec}

theorem Inverts.read_encodeToBytes (inverts : codec.Inverts) (value : Value) :
    codec.read (codec.encodeToBytes value) =
      if codec.encodes value then some value else none := by
  cases encoded : codec.encode value with
  | none => simp [encodeToBytes, encodes, encoded]
  | some data =>
      obtain ⟨nonempty, decoded⟩ := inverts value data encoded
      simp [encodeToBytes, encodes, encoded, read, nonempty, decoded]

end RlpCodec

/-- The encodings of the stored types. -/
structure Codecs where
  header : RlpCodec Header
  body : RlpCodec (List Transaction)
  td : RlpCodec Int

structure Codecs.Invert (codecs : Codecs) : Prop where
  header : codecs.header.Inverts
  body : codecs.body.Inverts
  td : codecs.td.Inverts

abbrev ByteDatabase := LDBDatabase (List UInt8) (List UInt8)

section Readers

variable (codecs : Codecs) (d : ByteDatabase)

/-- The errors of `Get` are dropped, so an absent entry reads as no data. -/
def readData (key : List UInt8) : List UInt8 := (d.get key).getD []

def readHash (key : List UInt8) : Hash :=
  let data := readData d key
  if data.length = 0 then 0 else parseHash data

def readCanonicalHash (number : UInt64) : Hash :=
  readHash d (headerHashKey number)

def readHeadHeaderHash : Hash := readHash d headHeaderKey

def readHeadBlockHash : Hash := readHash d headBlockKey

def readHeadFastBlockHash : Hash := readHash d headFastBlockKey

def readHeaderNumber (hash : Hash) : Option UInt64 :=
  let data := readData d (headerNumberKey hash)
  if data.length ≠ 8 then none else some (parseNumber data)

def readHeader (hash : Hash) (number : UInt64) : Option Header :=
  codecs.header.read (readData d (headerKey number hash))

def readBody (hash : Hash) (number : UInt64) : Option (List Transaction) :=
  codecs.body.read (readData d (blockBodyKey number hash))

def readTd (hash : Hash) (number : UInt64) : Option Int :=
  codecs.td.read (readData d (headerTDKey number hash))

def readBlock (hash : Hash) (number : UInt64) : Option Block :=
  match readHeader codecs d hash number with
  | none => none
  | some header =>
      match readBody codecs d hash number with
      | none => none
      | some transactions => some ⟨header, transactions⟩

/-- The owner is the first twenty bytes and the amount is the rest.  No
shorter record is ever stored. -/
def readUTXO (id : UTXOID) : Option UTXO :=
  let data := readData d (utxoKey id)
  if data.length = 0 then none
  else
    some ⟨id, ⟨BitVec.ofNat 160 (fromBigEndian (data.take 20)),
      fromBigEndian (data.drop 20)⟩⟩

def hasMarker (md5 : BitVec 128) : Bool := d.has (markerKey md5)

/-- The scan starts at the configured block until one is stored. -/
def getFromBlock (configured : Int) : Int :=
  match d.get fromBlockKey with
  | some data => fromBigEndian data
  | none => configured

end Readers

section Writers

variable (disk : Bool) (p : Primitives) (codecs : Codecs) (d : ByteDatabase)

def writeCanonicalHash (hash : Hash) (number : UInt64) : ByteDatabase :=
  (d.put disk (headerHashKey number) (hashBytes hash)).1

def deleteCanonicalHash (number : UInt64) : ByteDatabase :=
  (d.delete disk (headerHashKey number)).1

def writeHeadHeaderHash (hash : Hash) : ByteDatabase :=
  (d.put disk headHeaderKey (hashBytes hash)).1

def writeHeadBlockHash (hash : Hash) : ByteDatabase :=
  (d.put disk headBlockKey (hashBytes hash)).1

def writeHeadFastBlockHash (hash : Hash) : ByteDatabase :=
  (d.put disk headFastBlockKey (hashBytes hash)).1

def writeHeader (header : Header) : ByteDatabase :=
  let hash := p.headerHash header
  let number := uint64 header.number
  let d := (d.put disk (headerNumberKey hash) (encodeBlockNumber number)).1
  (d.put disk (headerKey number hash)
    (codecs.header.encodeToBytes header)).1

def deleteHeader (hash : Hash) (number : UInt64) : ByteDatabase :=
  let d := (d.delete disk (headerKey number hash)).1
  (d.delete disk (headerNumberKey hash)).1

def writeBodyRLP (hash : Hash) (number : UInt64) (rlp : List UInt8) :
    ByteDatabase :=
  (d.put disk (blockBodyKey number hash) rlp).1

def writeBody (hash : Hash) (number : UInt64)
    (transactions : List Transaction) : ByteDatabase :=
  writeBodyRLP disk d hash number (codecs.body.encodeToBytes transactions)

def deleteBody (hash : Hash) (number : UInt64) : ByteDatabase :=
  (d.delete disk (blockBodyKey number hash)).1

def writeTd (hash : Hash) (number : UInt64) (td : Int) : ByteDatabase :=
  (d.put disk (headerTDKey number hash) (codecs.td.encodeToBytes td)).1

def deleteTd (hash : Hash) (number : UInt64) : ByteDatabase :=
  (d.delete disk (headerTDKey number hash)).1

def deleteReceipts (hash : Hash) (number : UInt64) : ByteDatabase :=
  (d.delete disk (blockReceiptsKey number hash)).1

def writeBlock (block : Block) : ByteDatabase :=
  writeHeader disk p codecs
    (writeBody disk codecs d (block.hash p) block.numberU64
      block.transactions) block.header

def deleteBlock (hash : Hash) (number : UInt64) : ByteDatabase :=
  let d := deleteReceipts disk d hash number
  let d := deleteHeader disk d hash number
  let d := deleteBody disk d hash number
  deleteTd disk d hash number

def writeUTXO (utxo : UTXO) : ByteDatabase :=
  (d.put disk (utxoKey utxo.id)
    (bigEndian 20 utxo.txOut.owner.toNat ++
      Rlp.minimalBytes utxo.txOut.amount.natAbs)).1

def deleteUTXO (id : UTXOID) : ByteDatabase :=
  (d.delete disk (utxoKey id)).1

def putMarker (md5 : BitVec 128) (json : List UInt8) : ByteDatabase :=
  (d.put disk (markerKey md5) json).1

def deleteMarker (md5 : BitVec 128) : ByteDatabase :=
  (d.delete disk (markerKey md5)).1

def putFromBlock (fromBlock : Int) : ByteDatabase :=
  (d.put disk fromBlockKey (Rlp.minimalBytes fromBlock.natAbs)).1

end Writers

end Plasma.Core.Accessors
