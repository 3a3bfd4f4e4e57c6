import Plasma.Core.Accessors

/-!
# The byte database refines typed tables

Every writer and deleter is given its effect on the logical keys.  After any
sequence of calls a reader of the byte database returns what the last effect
on the logical key it asks for determines.
-/

namespace Plasma.Core.Accessors

open Plasma.Lib Plasma.Store

inductive RawdbCall where
  | writeCanonicalHash (hash : Hash) (number : UInt64)
  | deleteCanonicalHash (number : UInt64)
  | writeHeadHeaderHash (hash : Hash)
  | writeHeadBlockHash (hash : Hash)
  | writeHeadFastBlockHash (hash : Hash)
  | writeHeader (header : Header)
  | deleteHeader (hash : Hash) (number : UInt64)
  | writeBodyRLP (hash : Hash) (number : UInt64) (rlp : List UInt8)
  | writeBody (hash : Hash) (number : UInt64)
      (transactions : List Transaction)
  | deleteBody (hash : Hash) (number : UInt64)
  | writeTd (hash : Hash) (number : UInt64) (td : Int)
  | deleteTd (hash : Hash) (number : UInt64)
  | deleteReceipts (hash : Hash) (number : UInt64)
  | writeBlock (block : Block)
  | deleteBlock (hash : Hash) (number : UInt64)
  | writeUTXO (utxo : UTXO)
  | deleteUTXO (id : UTXOID)
  | putMarker (md5 : BitVec 128) (json : List UInt8)
  | deleteMarker (md5 : BitVec 128)
  | putFromBlock (fromBlock : Int)

/-- A value under a logical key, as it was handed to a writer. -/
inductive LogicalValue where
  | entry (value : DbValue)
  | bodyRLP (data : List UInt8)
  | td (value : Int)

namespace RawdbCall

/-- The call on the byte database. -/
def perform (disk : Bool) (p : Primitives) (codecs : Codecs)
    (d : ByteDatabase) : RawdbCall → ByteDatabase
  | .writeCanonicalHash hash number =>
      Accessors.writeCanonicalHash disk d hash number
  | .deleteCanonicalHash number => Accessors.deleteCanonicalHash disk d number
  | .writeHeadHeaderHash hash => Accessors.writeHeadHeaderHash disk d hash
  | .writeHeadBlockHash hash => Accessors.writeHeadBlockHash disk d hash
  | .writeHeadFastBlockHash hash =>
      Accessors.writeHeadFastBlockHash disk d hash
  | .writeHeader header => Accessors.writeHeader disk p codecs d header
  | .deleteHeader hash number => Accessors.deleteHeader disk d hash number
  | .writeBodyRLP hash number rlp =>
      Accessors.writeBodyRLP disk d hash number rlp
  | .writeBody hash number transactions =>
      Accessors.writeBody disk codecs d hash number transactions
  | .deleteBody hash number => Accessors.deleteBody disk d hash number
  | .writeTd hash number td => Accessors.writeTd disk codecs d hash number td
  | .deleteTd hash number => Accessors.deleteTd disk d hash number
  | .deleteReceipts hash number => Accessors.deleteReceipts disk d hash number
  | .writeBlock block => Accessors.writeBlock disk p codecs d block
  | .deleteBlock hash number => Accessors.deleteBlock disk d hash number
  | .writeUTXO utxo => Accessors.writeUTXO disk d utxo
  | .deleteUTXO id => Accessors.deleteUTXO disk d id
  | .putMarker md5 json => Accessors.putMarker disk d md5 json
  | .deleteMarker md5 => Accessors.deleteMarker disk d md5
  | .putFromBlock fromBlock => Accessors.putFromBlock disk d fromBlock

/-- The call on the logical keys. -/
def effects (p : Primitives) :
    RawdbCall → List (Change LogicalKey LogicalValue)
  | .writeCanonicalHash hash number =>
      [.put (.entry (.canonicalHash number)) (.entry (.hash hash))]
  | .deleteCanonicalHash number => [.delete (.entry (.canonicalHash number))]
  | .writeHeadHeaderHash hash =>
      [.put (.entry .headHeader) (.entry (.hash hash))]
  | .writeHeadBlockHash hash =>
      [.put (.entry .headBlock) (.entry (.hash hash))]
  | .writeHeadFastBlockHash hash =>
      [.put (.entry .headFastBlock) (.entry (.hash hash))]
  | .writeHeader header =>
      [.put (.entry (.headerNumber (p.headerHash header)))
          (.entry (.number (uint64 header.number))),
        .put (.entry (.header (uint64 header.number) (p.headerHash header)))
          (.entry (.header header))]
  | .deleteHeader hash number =>
      [.delete (.entry (.header number hash)),
        .delete (.entry (.headerNumber hash))]
  | .writeBodyRLP hash number rlp =>
      [.put (.entry (.body number hash)) (.bodyRLP rlp)]
  | .writeBody hash number transactions =>
      [.put (.entry (.body number hash)) (.entry (.body transactions))]
  | .deleteBody hash number => [.delete (.entry (.body number hash))]
  | .writeTd hash number td => [.put (.td number hash) (.td td)]
  | .deleteTd hash number => [.delete (.td number hash)]
  | .deleteReceipts hash number => [.delete (.receipts number hash)]
  | .writeBlock block =>
      [.put (.entry (.body block.numberU64 (block.hash p)))
          (.entry (.body block.transactions)),
        .put (.entry (.headerNumber (block.hash p)))
          (.entry (.number block.numberU64)),
        .put (.entry (.header block.numberU64 (block.hash p)))
          (.entry (.header block.header))]
  | .deleteBlock hash number =>
      [.delete (.receipts number hash), .delete (.entry (.header number hash)),
        .delete (.entry (.headerNumber hash)),
        .delete (.entry (.body number hash)), .delete (.td number hash)]
  | .writeUTXO utxo =>
      [.put (.entry (.utxo utxo.id))
        (.entry (.utxo ⟨utxo.txOut.owner, utxo.txOut.amount.natAbs⟩))]
  | .deleteUTXO id => [.delete (.entry (.utxo id))]
  | .putMarker md5 json => [.put (.entry (.eventMarker md5))
      (.entry (.event json))]
  | .deleteMarker md5 => [.delete (.entry (.eventMarker md5))]
  | .putFromBlock fromBlock =>
      [.put (.entry .fromBlock) (.entry (.fromBlock fromBlock.natAbs))]

end RawdbCall

namespace LogicalValue

variable (codecs : Codecs)

/-- The data a writer stores for a value. -/
def bytes : LogicalValue → List UInt8
  | .entry (.hash value) => hashBytes value
  | .entry (.number value) => encodeBlockNumber value
  | .entry (.header value) => codecs.header.encodeToBytes value
  | .entry (.body transactions) => codecs.body.encodeToBytes transactions
  | .entry (.utxo out) =>
      bigEndian 20 out.owner.toNat ++ Rlp.minimalBytes out.amount
  | .entry (.fromBlock value) => Rlp.minimalBytes value
  | .entry (.event json) => json
  | .entry .noData => []
  | .bodyRLP data => data
  | .td value => codecs.td.encodeToBytes value

/-- What a typed table shows of a value.  A value without an encoding leaves
an entry without data. -/
def shown : LogicalValue → Option DbValue
  | .entry (.hash value) => some (.hash value)
  | .entry (.number value) => some (.number value)
  | .entry (.header value) =>
      if codecs.header.encodes value then some (.header value)
      else some .noData
  | .entry (.body transactions) =>
      if codecs.body.encodes transactions then some (.body transactions)
      else some .noData
  | .entry (.utxo out) => some (.utxo out)
  | .entry (.fromBlock value) => some (.fromBlock value)
  | .entry (.event json) => some (.event json)
  | .entry .noData => some .noData
  | .bodyRLP data => (codecs.body.read data).map .body
  | .td _ => none

def shownTd : LogicalValue → Option Int
  | .td value => if codecs.td.encodes value then some value else none
  | .entry _ => none
  | .bodyRLP _ => none

end LogicalValue

abbrev LogicalContents := LogicalKey → Option LogicalValue

/-- The typed tables of a logical store. -/
def tables (codecs : Codecs) (contents : LogicalContents) : Database where
  db := fun key => (contents (.entry key)).bind (LogicalValue.shown codecs)
  inBatch := false
  defaultBatch := []

@[simp] theorem tables_get (codecs : Codecs) (contents : LogicalContents)
    (key : DbKey) :
    (tables codecs contents).get key =
      (contents (.entry key)).bind (LogicalValue.shown codecs) := rfl

/-- The scan position the typed tables give. -/
def tableFromBlock (d : Database) (configured : Int) : Int :=
  match d.get .fromBlock with
  | some (.fromBlock number) => number
  | _ => configured

def emptyDatabase : ByteDatabase := ⟨fun _ => none, false, []⟩

def performAll (p : Primitives) (codecs : Codecs) (calls : List RawdbCall) :
    ByteDatabase :=
  calls.foldl (RawdbCall.perform true p codecs) emptyDatabase

/-- What the last write or delete of a logical key left there. -/
def written (p : Primitives) (calls : List RawdbCall) : LogicalContents :=
  fun key => (lastEffect (calls.flatMap (RawdbCall.effects p)) key).getD none

section TypedWriters

variable (codecs : Codecs) (contents : LogicalContents)

/-- The codecs fail exactly where the encodings of the node do. -/
structure Codecs.Agree : Prop where
  header : ∀ header, codecs.header.encodes header = header.encodes
  body : ∀ transactions,
    codecs.body.encodes transactions = bodyEncodes transactions

variable {codecs} in
theorem Codecs.Agree.shown_header (agree : codecs.Agree) (header : Header) :
    LogicalValue.shown codecs (.entry (.header header)) =
      some (Rawdb.headerData header) := by
  rw [LogicalValue.shown, agree.header, Rawdb.headerData, apply_ite some]

variable {codecs} in
theorem Codecs.Agree.shown_body (agree : codecs.Agree)
    (transactions : List Transaction) :
    LogicalValue.shown codecs (.entry (.body transactions)) =
      some (Rawdb.bodyData transactions) := by
  rw [LogicalValue.shown, agree.body, Rawdb.bodyData, apply_ite some]

theorem tables_put {value : LogicalValue} {stored : DbValue} (key : DbKey)
    (shown : value.shown codecs = some stored) :
    tables codecs ((Change.put (.entry key) value).apply contents) =
      ((tables codecs contents).put true key stored).1 := by
  have same : (tables codecs ((Change.put (.entry key) value).apply
      contents)).db =
        (Change.put key stored).apply (tables codecs contents).db := by
    funext other
    by_cases here : other = key
    · subst here
      simp [tables, Change.apply, Change.outcome, shown]
    · simp [tables, Change.apply, here]
  exact congrArg (fun db => (⟨db, false, []⟩ : Database)) same

theorem tables_delete (key : DbKey) :
    tables codecs ((Change.delete (.entry key)).apply contents) =
      ((tables codecs contents).delete true key).1 := by
  have same : (tables codecs ((Change.delete (.entry key)).apply
      contents)).db =
        (Change.delete key).apply (tables codecs contents).db := by
    funext other
    by_cases here : other = key
    · subst here
      simp [tables, Change.apply, Change.outcome]
    · simp [tables, Change.apply, here]
  exact congrArg (fun db => (⟨db, false, []⟩ : Database)) same

/-- The typed writer of a call, for the calls the typed model has. -/
def RawdbCall.typed (p : Primitives) : RawdbCall → Option (Database → Database)
  | .writeCanonicalHash hash number =>
      some (Rawdb.writeCanonicalHash true hash number)
  | .writeHeadHeaderHash hash => some (Rawdb.writeHeadHeaderHash true hash)
  | .writeHeadBlockHash hash => some (Rawdb.writeHeadBlockHash true hash)
  | .writeHeadFastBlockHash hash =>
      some (Rawdb.writeHeadFastBlockHash true hash)
  | .writeHeader header => some (Rawdb.writeHeader true p header)
  | .writeBody hash number transactions =>
      some (Rawdb.writeBody true hash number transactions)
  | .writeBlock block => some (Rawdb.writeBlock true p block)
  | .writeUTXO utxo => some fun d => (Rawdb.writeUTXO true utxo d).1
  | .deleteUTXO id => some fun d => (Rawdb.deleteUTXO true id d).1
  | .putMarker md5 json =>
      some fun d => (d.put true (.eventMarker md5) (.event json)).1
  | .deleteMarker md5 => some fun d => (d.delete true (.eventMarker md5)).1
  | .putFromBlock fromBlock =>
      some fun d => (d.put true .fromBlock (.fromBlock fromBlock.natAbs)).1
  | .deleteCanonicalHash _ => none
  | .deleteHeader _ _ => none
  | .writeBodyRLP _ _ _ => none
  | .deleteBody _ _ => none
  | .writeTd _ _ _ => none
  | .deleteTd _ _ => none
  | .deleteReceipts _ _ => none
  | .deleteBlock _ _ => none

/-- The typed writers are the effects of the calls on the typed tables. -/
theorem tables_effects (p : Primitives) {call : RawdbCall}
    {write : Database → Database} (typed : call.typed p = some write)
    (agree : codecs.Agree) :
    tables codecs (applyAll (call.effects p) contents) =
      write (tables codecs contents) := by
  cases call <;> cases typed <;> simp only [RawdbCall.effects, applyAll_cons,
    applyAll_nil]
  case writeHeader header =>
      rw [tables_put codecs _ _ (agree.shown_header header),
        tables_put codecs _ _ rfl]
      rfl
  case writeBody hash number transactions =>
      exact tables_put codecs contents _ (agree.shown_body transactions)
  case writeBlock block =>
      rw [tables_put codecs _ _ (agree.shown_header block.header),
        tables_put codecs _ _ rfl,
        tables_put codecs _ _ (agree.shown_body block.transactions)]
      rfl
  case deleteUTXO id => exact tables_delete codecs contents _
  case deleteMarker md5 => exact tables_delete codecs contents _
  all_goals exact tables_put codecs contents _ rfl

end TypedWriters

/-- A call on the database is its effects with keys and values encoded. -/
theorem RawdbCall.perform_direct (p : Primitives) (codecs : Codecs)
    (contents : List UInt8 → Option (List UInt8))
    (batch : List (Change (List UInt8) (List UInt8))) (call : RawdbCall) :
    call.perform true p codecs ⟨contents, false, batch⟩ =
      ⟨applyAll ((call.effects p).map
          (Change.map LogicalKey.bytes (LogicalValue.bytes codecs))) contents,
        false, batch⟩ := by
  cases call <;> rfl

theorem performAll_eq (p : Primitives) (codecs : Codecs)
    (calls : List RawdbCall) :
    performAll p codecs calls =
      ⟨applyAll ((calls.flatMap (RawdbCall.effects p)).map
          (Change.map LogicalKey.bytes (LogicalValue.bytes codecs)))
          (fun _ => none), false, []⟩ := by
  rw [performAll, emptyDatabase]
  generalize (fun _ => none : List UInt8 → Option (List UInt8)) = contents
  induction calls generalizing contents with
  | nil => rfl
  | cons call calls induction =>
      rw [List.foldl_cons, RawdbCall.perform_direct, induction,
        List.flatMap_cons, List.map_append, applyAll_append]

theorem written_eq_applyAll (p : Primitives) (calls : List RawdbCall) :
    written p calls =
      applyAll (calls.flatMap (RawdbCall.effects p)) (fun _ => none) := by
  funext key
  rw [applyAll_eq_lastEffect, written]

/-- The kind of value a table holds. -/
def LogicalKey.Fits (key : LogicalKey) (value : LogicalValue) : Prop :=
  match key with
  | .entry (.canonicalHash _) => ∃ hash, value = .entry (.hash hash)
  | .entry (.headerNumber _) => ∃ number, value = .entry (.number number)
  | .entry (.header _ _) => ∃ header, value = .entry (.header header)
  | .entry (.body _ _) =>
      (∃ transactions, value = .entry (.body transactions)) ∨
        ∃ data, value = .bodyRLP data
  | .entry (.utxo _) => ∃ out, value = .entry (.utxo out)
  | .entry .headHeader => ∃ hash, value = .entry (.hash hash)
  | .entry .headBlock => ∃ hash, value = .entry (.hash hash)
  | .entry .headFastBlock => ∃ hash, value = .entry (.hash hash)
  | .entry .fromBlock => ∃ number, value = .entry (.fromBlock number)
  | .entry (.eventMarker _) => ∃ json, value = .entry (.event json)
  | .td _ _ => ∃ td, value = .td td
  | .receipts _ _ => False

def FittingChange : Change LogicalKey LogicalValue → Prop
  | .delete _ => True
  | .put key value => key.Fits value

theorem RawdbCall.effects_fit (p : Primitives) (call : RawdbCall) :
    ∀ change ∈ call.effects p, FittingChange change := by
  cases call <;> simp [RawdbCall.effects, FittingChange, LogicalKey.Fits]

/-- The database holds the encoding of the logical contents, each table with
values of its own kind. -/
structure Represents (codecs : Codecs) (d : ByteDatabase)
    (contents : LogicalContents) : Prop where
  holds : ∀ key : LogicalKey,
    d.get key.bytes = (contents key).map (LogicalValue.bytes codecs)
  fits : ∀ key value, contents key = some value → key.Fits value

theorem represents_performAll (p : Primitives) (codecs : Codecs)
    (calls : List RawdbCall) :
    Represents codecs (performAll p codecs calls) (written p calls) := by
  constructor
  · intro key
    rw [performAll_eq, written_eq_applyAll]
    exact applyAll_map LogicalKey.bytes_injective _ _ (fun _ => rfl) key
  · intro key value present
    rw [written_eq_applyAll] at present
    rcases put_of_applyAll _ _ present with initial | put
    · cases initial
    · obtain ⟨call, _, effect⟩ := List.mem_flatMap.mp put
      exact call.effects_fit p _ effect

/-- Every reader of the byte database returns what the logical contents
determine. -/
structure ReadsTables (codecs : Codecs) (d : ByteDatabase)
    (contents : LogicalContents) : Prop where
  canonicalHash : ∀ number, readCanonicalHash d number =
    Rawdb.readCanonicalHash (tables codecs contents) number
  headHeaderHash : readHeadHeaderHash d =
    Rawdb.readHeadHeaderHash (tables codecs contents)
  headBlockHash : readHeadBlockHash d =
    Rawdb.readHeadBlockHash (tables codecs contents)
  headFastBlockHash : readHeadFastBlockHash d =
    Rawdb.readHeadFastBlockHash (tables codecs contents)
  headerNumber : ∀ hash, readHeaderNumber d hash =
    Rawdb.readHeaderNumber (tables codecs contents) hash
  header : ∀ hash number, readHeader codecs d hash number =
    Rawdb.readHeader (tables codecs contents) hash number
  body : ∀ hash number, readBody codecs d hash number =
    Rawdb.readBody (tables codecs contents) hash number
  block : ∀ hash number, readBlock codecs d hash number =
    Rawdb.readBlock (tables codecs contents) hash number
  td : ∀ hash number, readTd codecs d hash number =
    (contents (.td number hash)).bind (LogicalValue.shownTd codecs)
  utxo : ∀ id, readUTXO d id = Rawdb.readUTXO (tables codecs contents) id
  marker : ∀ md5, hasMarker d md5 =
    (tables codecs contents).has (.eventMarker md5)
  fromBlock : ∀ configured, getFromBlock d configured =
    tableFromBlock (tables codecs contents) configured

namespace Represents

variable {codecs : Codecs} {d : ByteDatabase} {contents : LogicalContents}

theorem readData_of_absent (represents : Represents codecs d contents)
    {key : LogicalKey} (absent : contents key = none) :
    readData d key.bytes = [] := by
  rw [readData, represents.holds, absent, Option.map_none, Option.getD_none]

theorem readData_of_present (represents : Represents codecs d contents)
    {key : LogicalKey} {value : LogicalValue}
    (present : contents key = some value) :
    readData d key.bytes = value.bytes codecs := by
  rw [readData, represents.holds, present, Option.map_some, Option.getD_some]

theorem readHash_eq (represents : Represents codecs d contents) (key : DbKey)
    (hashes : ∀ value, (LogicalKey.entry key).Fits value →
      ∃ hash, value = .entry (.hash hash)) :
    readHash d (LogicalKey.entry key).bytes =
      Rawdb.readHash (tables codecs contents) key := by
  cases present : contents (.entry key) with
  | none =>
      have data := represents.readData_of_absent present
      simp [readHash, data, Rawdb.readHash, present]
  | some value =>
      obtain ⟨hash, rfl⟩ := hashes value (represents.fits _ _ present)
      have data := represents.readData_of_present present
      simp [readHash, data, Rawdb.readHash, present, LogicalValue.bytes,
        LogicalValue.shown]

theorem readHeaderNumber_eq (represents : Represents codecs d contents)
    (hash : Hash) :
    readHeaderNumber d hash =
      Rawdb.readHeaderNumber (tables codecs contents) hash := by
  cases present : contents (.entry (.headerNumber hash)) with
  | none =>
      have data : readData d (headerNumberKey hash) = [] :=
        represents.readData_of_absent present
      simp [readHeaderNumber, data, Rawdb.readHeaderNumber, present]
  | some value =>
      obtain ⟨number, rfl⟩ := represents.fits _ _ present
      have data : readData d (headerNumberKey hash) = encodeBlockNumber number :=
        represents.readData_of_present present
      simp [readHeaderNumber, data, Rawdb.readHeaderNumber, present,
        LogicalValue.shown]

theorem readHeader_eq (represents : Represents codecs d contents)
    (inverts : codecs.header.Inverts) (hash : Hash) (number : UInt64) :
    readHeader codecs d hash number =
      Rawdb.readHeader (tables codecs contents) hash number := by
  cases present : contents (.entry (.header number hash)) with
  | none =>
      have data : readData d (headerKey number hash) = [] :=
        represents.readData_of_absent present
      simp [readHeader, data, Rawdb.readHeader, present]
  | some value =>
      obtain ⟨header, rfl⟩ := represents.fits _ _ present
      have data : readData d (headerKey number hash) =
          codecs.header.encodeToBytes header :=
        represents.readData_of_present present
      rw [readHeader, data, inverts.read_encodeToBytes, Rawdb.readHeader,
        tables_get, present, Option.bind_some, LogicalValue.shown]
      split <;> rfl

theorem readBody_eq (represents : Represents codecs d contents)
    (inverts : codecs.body.Inverts) (hash : Hash) (number : UInt64) :
    readBody codecs d hash number =
      Rawdb.readBody (tables codecs contents) hash number := by
  cases present : contents (.entry (.body number hash)) with
  | none =>
      have data : readData d (blockBodyKey number hash) = [] :=
        represents.readData_of_absent present
      simp [readBody, data, Rawdb.readBody, present]
  | some value =>
      have data : readData d (blockBodyKey number hash) =
          value.bytes codecs :=
        represents.readData_of_present present
      rw [readBody, data, Rawdb.readBody, tables_get, present,
        Option.bind_some]
      rcases represents.fits _ _ present with ⟨transactions, rfl⟩ | ⟨raw, rfl⟩
      · rw [LogicalValue.bytes, inverts.read_encodeToBytes,
          LogicalValue.shown]
        split <;> rfl
      · rw [LogicalValue.bytes, LogicalValue.shown]
        cases codecs.body.read raw <;> rfl

theorem readBlock_eq (represents : Represents codecs d contents)
    (headers : codecs.header.Inverts) (bodies : codecs.body.Inverts)
    (hash : Hash) (number : UInt64) :
    readBlock codecs d hash number =
      Rawdb.readBlock (tables codecs contents) hash number := by
  have header := represents.readHeader_eq headers hash number
  have body := represents.readBody_eq bodies hash number
  cases stored : Rawdb.readHeader (tables codecs contents) hash number with
  | none => simp [readBlock, Rawdb.readBlock, header, stored]
  | some value =>
      cases transactions :
          Rawdb.readBody (tables codecs contents) hash number with
      | none =>
          simp [readBlock, Rawdb.readBlock, header, stored, body,
            transactions]
      | some items =>
          simp [readBlock, Rawdb.readBlock, header, stored, body,
            transactions]

theorem readTd_eq (represents : Represents codecs d contents)
    (inverts : codecs.td.Inverts) (hash : Hash) (number : UInt64) :
    readTd codecs d hash number =
      (contents (.td number hash)).bind (LogicalValue.shownTd codecs) := by
  cases present : contents (.td number hash) with
  | none =>
      have data : readData d (headerTDKey number hash) = [] :=
        represents.readData_of_absent present
      simp [readTd, data]
  | some value =>
      obtain ⟨td, rfl⟩ := represents.fits _ _ present
      have data : readData d (headerTDKey number hash) =
          codecs.td.encodeToBytes td :=
        represents.readData_of_present present
      rw [readTd, data, inverts.read_encodeToBytes, Option.bind_some,
        LogicalValue.shownTd]

theorem readUTXO_eq (represents : Represents codecs d contents)
    (id : UTXOID) :
    readUTXO d id = Rawdb.readUTXO (tables codecs contents) id := by
  cases present : contents (.entry (.utxo id)) with
  | none =>
      have data : readData d (utxoKey id) = [] :=
        represents.readData_of_absent present
      simp [readUTXO, data, Rawdb.readUTXO, Rawdb.utxos, tables, present]
  | some value =>
      obtain ⟨out, rfl⟩ := represents.fits _ _ present
      have data : readData d (utxoKey id) =
          bigEndian 20 out.owner.toNat ++ Rlp.minimalBytes out.amount :=
        represents.readData_of_present present
      have owner : fromBigEndian (bigEndian 20 out.owner.toNat) =
          out.owner.toNat :=
        fromBigEndian_bigEndian out.owner.isLt
      simp [readUTXO, data, owner, Rawdb.readUTXO, Rawdb.utxos, tables,
        present, LogicalValue.shown]

theorem hasMarker_eq (represents : Represents codecs d contents)
    (md5 : BitVec 128) :
    hasMarker d md5 = (tables codecs contents).has (.eventMarker md5) := by
  have stored : hasMarker d md5 =
      (contents (.entry (.eventMarker md5))).isSome := by
    have data : d.get (markerKey md5) = _ :=
      represents.holds (.entry (.eventMarker md5))
    rw [hasMarker, LDBDatabase.has, ← LDBDatabase.get, data,
      Option.isSome_map]
  cases present : contents (.entry (.eventMarker md5)) with
  | none => simp [stored, LDBDatabase.has, tables, present]
  | some value =>
      obtain ⟨json, rfl⟩ := represents.fits _ _ present
      simp [stored, LDBDatabase.has, tables, present, LogicalValue.shown]

theorem getFromBlock_eq (represents : Represents codecs d contents)
    (configured : Int) :
    getFromBlock d configured =
      tableFromBlock (tables codecs contents) configured := by
  have data : d.get fromBlockKey = _ := represents.holds (.entry .fromBlock)
  cases present : contents (.entry .fromBlock) with
  | none => simp [getFromBlock, data, tableFromBlock, present]
  | some value =>
      obtain ⟨number, rfl⟩ := represents.fits _ _ present
      simp [getFromBlock, data, tableFromBlock, present, LogicalValue.bytes,
        LogicalValue.shown]

theorem readsTables (represents : Represents codecs d contents)
    (invert : codecs.Invert) : ReadsTables codecs d contents where
  canonicalHash number :=
    represents.readHash_eq (.canonicalHash number) fun _ fits => fits
  headHeaderHash := represents.readHash_eq .headHeader fun _ fits => fits
  headBlockHash := represents.readHash_eq .headBlock fun _ fits => fits
  headFastBlockHash :=
    represents.readHash_eq .headFastBlock fun _ fits => fits
  headerNumber := represents.readHeaderNumber_eq
  header := represents.readHeader_eq invert.header
  body := represents.readBody_eq invert.body
  block := represents.readBlock_eq invert.header invert.body
  td := represents.readTd_eq invert.td
  utxo := represents.readUTXO_eq
  marker := represents.hasMarker_eq
  fromBlock := represents.getFromBlock_eq

end Represents

namespace Sample

/-- A codec that knows one value. -/
def codecOf {Value : Type} [DecidableEq Value] (value : Value)
    (data : List UInt8) : RlpCodec Value where
  encode := fun other => if other = value then some data else none
  decode := fun bytes => if bytes = data then some value else none

theorem codecOf_inverts {Value : Type} [DecidableEq Value] (value : Value)
    {data : List UInt8} (nonempty : data ≠ []) :
    (codecOf value data).Inverts := by
  intro other bytes encoded
  have known : other = value ∧ data = bytes := by
    simpa [codecOf, Option.ite_none_right_eq_some] using encoded
  obtain ⟨rfl, rfl⟩ := known
  exact ⟨nonempty, if_pos rfl⟩

/-- An empty first block. -/
def block : Block := ⟨⟨0, 0, 0, 1, 0, []⟩, []⟩

def blockHash : Hash :=
  0x37faed71f353e4944e19acbd94b5aab9c17f237c50db12e9b35aa9d2e651f110

def primitives : Primitives where
  headerHash := fun _ => blockHash
  txHash := fun _ => 0
  txSize := fun _ => 0
  deriveSha := fun _ => 0
  validateSignatureValues := fun _ _ _ => false
  ecrecover := fun _ _ _ _ => none
  keccak256 := fun _ => 0

def codecs : Codecs where
  header := codecOf block.header
    (Rlp.encodeList [Rlp.encodeString (bigEndian 32 0),
      Rlp.encodeString (bigEndian 20 0), Rlp.encodeString (bigEndian 32 0),
      Rlp.encodeNat 1, Rlp.encodeNat 0, Rlp.encodeString []])
  body := codecOf [] (Rlp.encodeList [Rlp.encodeList []])
  td := codecOf 7 (Rlp.encodeNat 7)

def utxo : UTXO := ⟨⟨1, 0, 1⟩, ⟨0xabc, 2 ^ 200⟩⟩

/-- The block, an output that is spent, and a marker. -/
def calls : List RawdbCall :=
  [.writeBlock block, .writeTd blockHash 1 7, .writeCanonicalHash blockHash 1,
    .writeUTXO utxo, .deleteUTXO utxo.id, .putMarker 5 [123, 125],
    .putFromBlock 10]

theorem codecs_invert : codecs.Invert where
  header := codecOf_inverts _ (by decide)
  body := codecOf_inverts _ (by decide)
  td := codecOf_inverts _ (by decide)

end Sample

/-- After any calls every reader returns what the last write or delete of the
logical key it asks for determines; a written output is read back whole. -/
theorem accessors_refine_tables (p : Primitives) (codecs : Codecs)
    (invert : codecs.Invert) (calls : List RawdbCall) :
    ReadsTables codecs (performAll p codecs calls) (written p calls) ∧
      ∀ utxo : UTXO, 0 ≤ utxo.txOut.amount →
        readUTXO (performAll p codecs (calls ++ [.writeUTXO utxo])) utxo.id =
          some utxo := by
  refine ⟨(represents_performAll p codecs calls).readsTables invert, ?_⟩
  intro utxo nonnegative
  have last : written p (calls ++ [.writeUTXO utxo]) (.entry (.utxo utxo.id)) =
      some (.entry (.utxo ⟨utxo.txOut.owner, utxo.txOut.amount.natAbs⟩)) := by
    simp [written, lastEffect_append, RawdbCall.effects, lastEffect_singleton,
      Change.outcome]
  have amount : (utxo.txOut.amount.natAbs : Int) = utxo.txOut.amount :=
    Int.natAbs_of_nonneg nonnegative
  have stored : Rawdb.utxos
      (tables codecs (written p (calls ++ [.writeUTXO utxo]))).db utxo.id =
        some ⟨utxo.txOut.owner, utxo.txOut.amount.natAbs⟩ := by
    simp [Rawdb.utxos, tables, last, LogicalValue.shown]
  rw [(represents_performAll p codecs _).readUTXO_eq, Rawdb.readUTXO, stored,
    Option.map_some, amount]
  rfl

theorem block_and_output_read_back :
    ReadsTables Sample.codecs
        (performAll Sample.primitives Sample.codecs Sample.calls)
        (written Sample.primitives Sample.calls) ∧
      readUTXO (performAll Sample.primitives Sample.codecs
          (Sample.calls ++ [.writeUTXO Sample.utxo])) Sample.utxo.id =
        some Sample.utxo ∧
      readBlock Sample.codecs
          (performAll Sample.primitives Sample.codecs Sample.calls)
          Sample.blockHash 1 =
        some Sample.block := by
  obtain ⟨reads, output⟩ := accessors_refine_tables Sample.primitives
    Sample.codecs Sample.codecs_invert Sample.calls
  exact ⟨reads, output Sample.utxo (by decide), by decide +kernel⟩

end Plasma.Core.Accessors
