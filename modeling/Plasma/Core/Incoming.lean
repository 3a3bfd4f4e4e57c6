import Plasma.Core.Json
import Plasma.Core.PoolContent

/-!
# Incomplete transactions

The way of a JSON transaction through `UnmarshalJSON`, `TxPool.AddLocal`,
`UtxoTxValidator.Validate` and `Operator.Seal`, with every pointer that may be
nil.  Reading through a nil pointer ends the way with `nilPointer`.  RLP and
the validator treat an absent amount like zero, so data with all inputs,
outputs and a fee has the encoding of a complete transaction.
-/

namespace Plasma.Core

open Plasma.Lib Plasma.Store

inductive PathError where
  | json (failure : JsonError)
  | pool (failure : PoolError)
  | write (failure : WriteError)
  | submit
  | nilPointer
deriving DecidableEq, Repr

def DataOut.completed (out : DataOut) : TxOut :=
  ⟨out.owner, out.amount.getD 0⟩

def DataUTXO.completed (utxo : DataUTXO) : UTXO :=
  ⟨utxo.utxoid, utxo.txOut.completed⟩

namespace TxData

/-- The transaction with the same encoding. -/
def completed (tx : TxData) : Option Transaction :=
  match tx.ins, tx.outs, tx.fee with
  | (some in1, some in2), (some out1, some out2), some fee =>
      some
        { ins := (in1.completed, in2.completed)
          outs := (out1.completed, out2.completed)
          fee := fee
          sigs := tx.sigs }
  | _, _, _ => none

/-- The loop of the validator over the outputs; an absent amount is skipped. -/
def totalOutAmount : List (Option DataOut) → Int → Except TxError Int
  | [], total => .ok total
  | none :: _, _ => .error .nilPointer
  | some out :: rest, total =>
      match out.amount with
      | none => totalOutAmount rest total
      | some amount =>
          if amount = 0 then totalOutAmount rest total
          else if amount ≤ 0 then .error .invalidOutputAmount
          else totalOutAmount rest (total + amount)

section

variable (p : Primitives) (dp : DataPrimitives) (signer : EIP155Signer)

/-- The checks after the loop over the inputs. -/
def checkBalance (tx : TxData) (fee totalIn : Int) : Except TxError Unit :=
  match totalOutAmount [tx.outs.1, tx.outs.2] 0 with
  | .error failure => .error failure
  | .ok totalOut =>
      if totalIn ≠ totalOut + fee then .error .txTotalAmountNotEqual
      else .ok ()

/-- The checks after the senders are known. -/
def validateParts (reader : UtxoReader) (tx : TxData) (fee : Int)
    (senders : Address × Address) : Except TxError Unit :=
  match tx.ins with
  | (some in1, some in2) =>
      if in1.utxoid.equals in2.utxoid then .error .duplicateSpent
      else
        match UtxoTxValidator.totalInAmount reader
            [(in1.completed, senders.1), (in2.completed, senders.2)] 0 with
        | .error failure => .error failure
        | .ok totalIn => tx.checkBalance fee totalIn
  | _ => .error .nilPointer

def validate (reader : UtxoReader) (tx : TxData) : Except TxError Unit :=
  if dp.txSize tx > 32 * 1024 then .error .oversizedData
  else
    match tx.fee with
    | none => .error .nilPointer
    | some fee =>
        if fee ≤ 0 then .error .notEnoughTxFee
        else
          match tx.sender dp p signer with
          | .error .nilPointer => .error .nilPointer
          | .error _ => .error .invalidSender
          | .ok senders => tx.validateParts reader fee senders

def addLocal (node : PoolNode) (tx : TxData) : Except PoolError Unit :=
  let hash := dp.txHash tx
  if (node.pool.get hash).isSome then .error (.knownTransaction hash)
  else
    match tx.validate p dp signer node.reader with
    | .error failure => .error (.invalid failure)
    | .ok _ => .ok ()

/-- The loop that writes the outputs of the transaction. -/
def putOutputs (disk : Bool) (number : UInt64) (txIdx : Nat) :
    Nat → List (Option DataOut) → Database → Database × Except PathError Unit
  | _, [], d => (d, .ok ())
  | _, none :: _, d => (d, .error .nilPointer)
  | outIdx, some out :: rest, d =>
      match out.amount with
      | none => (d, .error .nilPointer)
      | some amount =>
          match Rawdb.writeUTXO disk
              (createdUTXO number txIdx outIdx ⟨out.owner, amount⟩) d with
          | (d, .error failure) => (d, .error (.write (.db failure)))
          | (d, .ok _) => putOutputs disk number txIdx (outIdx + 1) rest d

/-- `Seal` of the transaction alone; without an input, an output or a fee the
validation of its block reads a nil pointer. -/
def sealTx (time : Int) (disk submits : Bool) (o : Operator) (tx : TxData) :
    Except PathError Unit :=
  match tx.completed with
  | none => .error .nilPointer
  | some whole =>
      let (o, block) := o.constructBlock p time [whole]
      match o.chain.db.beginTx with
      | (_, false) => .error (.write .databaseRace)
      | (db, true) =>
          match BlockChain.writeByNumber p signer disk
              { o.chain with db := db } block with
          | (_, .error failure) => .error (.write (.block failure))
          | (chain, .ok _) =>
              match Operator.removeInputs disk whole.getInsCopy
                  (chain.advanceHead p disk block).db with
              | (_, .error failure) => .error (.write (.db failure))
              | (db, .ok _) =>
                  match putOutputs disk block.numberU64 0 0
                      [tx.outs.1, tx.outs.2] db with
                  | (_, .error failure) => .error failure
                  | (db, .ok _) =>
                      match db.commitTx disk with
                      | (_, .error failure) => .error (.write (.db failure))
                      | (_, .ok _) =>
                          if submits then .ok () else .error .submit

end

end TxData

section

variable (p : Primitives) (dp : DataPrimitives) (signer : EIP155Signer)
  {Json : Type} (decode : Json → Option TxData)

/-- The whole way of a JSON transaction. -/
def incomingPath (time : Int) (disk submits : Bool) (node : PoolNode)
    (input : Json) : Except PathError Unit :=
  match unmarshalJSON p decode input with
  | .error .nilPointer => .error .nilPointer
  | .error failure => .error (.json failure)
  | .ok tx =>
      match tx.addLocal p dp signer node with
      | .error (.invalid .nilPointer) => .error .nilPointer
      | .error failure => .error (.pool failure)
      | .ok _ => tx.sealTx p signer time disk submits node.operator

end

/-!
## What has to be present
-/

/-- The parts of a signature that its check reads. -/
def SigPresent (sig : Sig) : Prop :=
  sig.v.isSome = true ∧ ∃ r, sig.r = some r ∧ (1 ≤ r → sig.s.isSome = true)

/-- The second signature is read when the first one is accepted. -/
def SigsPresent (p : Primitives) (sigs : Sig × Sig) : Prop :=
  SigPresent sigs.1 ∧ (checkSig p sigs.1 = .ok () → SigPresent sigs.2)

/-- An amount that the validator does not refuse. -/
def DataOut.Nonneg (out : DataOut) : Prop :=
  ∀ amount, out.amount = some amount → 0 ≤ amount

namespace TxData

variable (p : Primitives) (dp : DataPrimitives) (signer : EIP155Signer)
  (reader : UtxoReader)

/-- What the loops over inputs and outputs read. -/
def PartsPresent (tx : TxData) (senders : Address × Address) : Prop :=
  ∃ in1 in2, tx.ins = (some in1, some in2) ∧
    (in1.utxoid ≠ in2.utxoid →
      (∀ slot ∈ [(in1.completed, senders.1), (in2.completed, senders.2)],
        SlotOwned reader slot) →
      ∃ out1, tx.outs.1 = some out1 ∧
        (out1.Nonneg → tx.outs.2.isSome = true))

/-- What `Validate` reads before it refuses the transaction. -/
def ReadsPresent (tx : TxData) : Prop :=
  dp.txSize tx ≤ 32 * 1024 →
    ∃ fee, tx.fee = some fee ∧
      (0 < fee → ∀ senders, tx.sender dp p signer = .ok senders →
        tx.PartsPresent reader senders)

/-- A transaction that `Validate` accepts. -/
def Accepted (tx : TxData) (whole : Transaction) : Prop :=
  tx.completed = some whole ∧ dp.txSize tx ≤ 32 * 1024 ∧ 0 < whole.fee ∧
    whole.ins.1.id ≠ whole.ins.2.id ∧
    (∃ senders, tx.sender dp p signer = .ok senders ∧
      ∀ slot ∈ whole.slots senders, SlotOwned reader slot) ∧
    (∀ out ∈ whole.getOutsCopy, 0 ≤ out.amount) ∧
    (whole.realInputs.map (amountAt reader)).sum =
      (whole.getOutsCopy.map TxOut.amount).sum + whole.fee

/-- The amounts that `WriteUTXO` reads. -/
def AmountsPresent (tx : TxData) : Prop :=
  ∀ out, some out ∈ [tx.outs.1, tx.outs.2] → out.amount.isSome = true

/-- Every part is present when the way of the transaction gets to it. -/
def Present (time : Int) (node : PoolNode) (tx : TxData) : Prop :=
  SigsPresent p tx.sigs ∧
    (checkSigs p tx.sigs = .ok () →
      (node.pool.get (dp.txHash tx)).isSome = false →
      tx.ReadsPresent p dp signer node.reader ∧
      ∀ whole, tx.Accepted p dp signer node.reader whole →
        node.operator.chain.db.inBatch = false →
        node.operator.chain.verdict p signer
          (node.operator.constructBlock p time [whole]).2 = .ok () →
        tx.AmountsPresent)

end TxData

section Signatures

variable {p : Primitives}

theorem checkSig_ne_nilPointer_iff (sig : Sig) :
    checkSig p sig ≠ .error .nilPointer ↔ SigPresent sig := by
  obtain ⟨v, r, s⟩ := sig
  cases v with
  | none => simp [checkSig, SigPresent]
  | some v =>
      cases r with
      | none => simp [checkSig, validatePresent, SigPresent]
      | some r =>
          cases s with
          | none =>
              by_cases small : r < 1
              · simp [checkSig, validatePresent, SigPresent, small]
              · simp [checkSig, validatePresent, SigPresent, small]
          | some s =>
              cases accepted : p.validateSignatureValues (jsonV v) r s <;>
                simp [checkSig, validatePresent, SigPresent, accepted]

theorem checkSigs_ne_nilPointer_iff (sigs : Sig × Sig) :
    checkSigs p sigs ≠ .error .nilPointer ↔ SigsPresent p sigs := by
  rw [SigsPresent, ← @checkSig_ne_nilPointer_iff p sigs.1,
    ← @checkSig_ne_nilPointer_iff p sigs.2, checkSigs]
  cases checkSig p sigs.1 with
  | error failure => simp
  | ok passed => simp

/-- An accepted signature has all its components. -/
theorem complete_of_checkSig {sig : Sig} (passed : checkSig p sig = .ok ()) :
    ∃ v r s, sig = ⟨some v, some r, some s⟩ := by
  obtain ⟨v, r, s⟩ := sig
  cases v with
  | none => cases passed
  | some v =>
      cases r with
      | none => cases passed
      | some r =>
          cases s with
          | none =>
              by_cases small : r < 1
              · simp [checkSig, validatePresent, small] at passed
              · simp [checkSig, validatePresent, small] at passed
          | some s => exact ⟨v, r, s, rfl⟩

theorem checkSigs_ok_iff (sigs : Sig × Sig) :
    checkSigs p sigs = .ok () ↔
      checkSig p sigs.1 = .ok () ∧ checkSig p sigs.2 = .ok () := by
  rw [checkSigs]
  cases checkSig p sigs.1 with
  | error failure => simp
  | ok passed => simp

theorem senders_ne_nilPointer {signer : EIP155Signer} {hash : Hash}
    {sigs : Sig × Sig} (passed : checkSigs p sigs = .ok ()) :
    signer.senders p hash sigs ≠ .error .nilPointer := by
  obtain ⟨first, second⟩ := (checkSigs_ok_iff sigs).mp passed
  obtain ⟨v, r, s, firstSig⟩ := complete_of_checkSig first
  obtain ⟨v', r', s', secondSig⟩ := complete_of_checkSig second
  have present : signer.recoverSlot p hash sigs.1 ≠ .error .nilPointer := by
    rw [firstSig]
    exact EIP155Signer.recoverSlot_ne_nilPointer
  have presentNext :
      signer.recoverSlot p hash sigs.2 ≠ .error .nilPointer := by
    rw [secondSig]
    exact EIP155Signer.recoverSlot_ne_nilPointer
  rw [EIP155Signer.senders]
  cases one : signer.recoverSlot p hash sigs.1 with
  | error failure => simpa [one] using present
  | ok address =>
      cases two : signer.recoverSlot p hash sigs.2 with
      | error failure => simpa [two] using presentNext
      | ok other => simp

end Signatures

namespace TxData

section Validation

variable {p : Primitives} {dp : DataPrimitives} {signer : EIP155Signer}
  {reader : UtxoReader} {tx : TxData}

theorem totalOutAmount_cons (out : DataOut) (rest : List (Option DataOut))
    (total : Int) :
    totalOutAmount (some out :: rest) total =
      if 0 ≤ out.completed.amount then
        totalOutAmount rest (total + out.completed.amount)
      else .error .invalidOutputAmount := by
  obtain ⟨owner, _ | amount⟩ := out
  · simp [totalOutAmount, DataOut.completed]
  · rw [totalOutAmount]
    change (if amount = 0 then _ else if amount ≤ 0 then _ else _) =
      if 0 ≤ amount then totalOutAmount rest (total + amount) else _
    by_cases zero : amount = 0
    · simp [zero]
    · by_cases negative : amount ≤ 0
      · rw [if_neg zero, if_pos negative, if_neg (by omega)]
      · rw [if_neg zero, if_neg negative, if_pos (by omega)]

theorem nonneg_iff (out : DataOut) : out.Nonneg ↔ 0 ≤ out.completed.amount := by
  obtain ⟨owner, _ | amount⟩ := out
  · simp [DataOut.Nonneg, DataOut.completed]
  · simp [DataOut.Nonneg, DataOut.completed]

theorem totalOutAmount_ne_nilPointer_iff (out1 out2 : Option DataOut) :
    totalOutAmount [out1, out2] 0 ≠ .error .nilPointer ↔
      ∃ out, out1 = some out ∧ (out.Nonneg → out2.isSome = true) := by
  cases out1 with
  | none => simp [totalOutAmount]
  | some out =>
      rw [totalOutAmount_cons]
      simp only [Option.some.injEq, exists_eq_left', nonneg_iff]
      by_cases accepted : 0 ≤ out.completed.amount
      · cases out2 with
        | none => simp [accepted, totalOutAmount]
        | some other =>
            rw [if_pos accepted, totalOutAmount_cons]
            split <;> simp [totalOutAmount]
      · simp [accepted]

theorem totalOutAmount_ok_iff (out1 out2 : DataOut) (total : Int) :
    totalOutAmount [some out1, some out2] 0 = .ok total ↔
      (∀ out ∈ [out1.completed, out2.completed], 0 ≤ out.amount) ∧
        total = ([out1.completed, out2.completed].map TxOut.amount).sum := by
  rw [totalOutAmount_cons, totalOutAmount_cons, totalOutAmount]
  by_cases first : 0 ≤ out1.completed.amount
  · by_cases second : 0 ≤ out2.completed.amount
    · simp [first, second, eq_comm]
    · simp [first, second]
  · simp [first]

theorem totalInAmount_ne_nilPointer (slots : List (UTXO × Address))
    (total : Int) :
    UtxoTxValidator.totalInAmount reader slots total ≠
      .error .nilPointer := by
  induction slots generalizing total with
  | nil => simp [UtxoTxValidator.totalInAmount]
  | cons slot slots induction =>
      obtain ⟨input, sender⟩ := slot
      rw [UtxoTxValidator.totalInAmount]
      split
      · exact induction total
      · split
        · simp
        · split
          · simp
          · exact induction _

theorem checkBalance_ne_nilPointer_iff (fee totalIn : Int) :
    tx.checkBalance fee totalIn ≠ .error .nilPointer ↔
      ∃ out1, tx.outs.1 = some out1 ∧
        (out1.Nonneg → tx.outs.2.isSome = true) := by
  rw [← totalOutAmount_ne_nilPointer_iff, checkBalance]
  cases totalOutAmount [tx.outs.1, tx.outs.2] 0 with
  | error failure => simp
  | ok totalOut =>
      dsimp only
      split <;> simp

theorem checkBalance_ok_iff {out1 out2 : DataOut}
    (outs : tx.outs = (some out1, some out2)) (fee totalIn : Int) :
    tx.checkBalance fee totalIn = .ok () ↔
      (∀ out ∈ [out1.completed, out2.completed], 0 ≤ out.amount) ∧
        totalIn =
          ([out1.completed, out2.completed].map TxOut.amount).sum + fee := by
  have read := totalOutAmount_ok_iff out1 out2
  rw [checkBalance, outs]
  dsimp only
  cases result : totalOutAmount [some out1, some out2] 0 with
  | error failure =>
      refine iff_of_false (by simp) ?_
      rintro ⟨nonneg, _⟩
      rw [(read _).mpr ⟨nonneg, rfl⟩] at result
      cases result
  | ok total =>
      obtain ⟨nonneg, sum⟩ := (read total).mp result
      dsimp only
      rw [← sum]
      constructor
      · intro balanced
        refine ⟨nonneg, ?_⟩
        by_contra unequal
        rw [if_pos unequal] at balanced
        cases balanced
      · rintro ⟨_, equal⟩
        rw [if_neg (not_not.mpr equal)]

theorem outs_of_checkBalance {fee totalIn : Int}
    (balanced : tx.checkBalance fee totalIn = .ok ()) :
    ∃ out1 out2, tx.outs = (some out1, some out2) := by
  obtain ⟨ins, ⟨out1, out2⟩, txFee, sigs⟩ := tx
  obtain ⟨out, rfl, next⟩ :=
    (checkBalance_ne_nilPointer_iff fee totalIn).mp (by rw [balanced]; simp)
  cases out2 with
  | some other => exact ⟨out, other, rfl⟩
  | none =>
      rw [checkBalance, totalOutAmount_cons] at balanced
      by_cases accepted : 0 ≤ out.completed.amount
      · rw [if_pos accepted] at balanced
        cases balanced
      · rw [if_neg accepted] at balanced
        cases balanced

theorem validateParts_of_inputs {in1 in2 : DataUTXO}
    (ins : tx.ins = (some in1, some in2)) (fee : Int)
    (senders : Address × Address) :
    tx.validateParts reader fee senders =
      if in1.utxoid.equals in2.utxoid then .error .duplicateSpent
      else
        (UtxoTxValidator.totalInAmount reader
          [(in1.completed, senders.1), (in2.completed, senders.2)] 0).bind
            (tx.checkBalance fee) := by
  rw [validateParts, ins]
  dsimp only
  split
  · rfl
  · cases UtxoTxValidator.totalInAmount reader
      [(in1.completed, senders.1), (in2.completed, senders.2)] 0 <;> rfl

theorem validateParts_ne_nilPointer_iff (fee : Int)
    (senders : Address × Address) :
    tx.validateParts reader fee senders ≠ .error .nilPointer ↔
      tx.PartsPresent reader senders := by
  by_cases both : ∃ in1 in2, tx.ins = (some in1, some in2)
  · obtain ⟨in1, in2, ins⟩ := both
    rw [validateParts_of_inputs ins, PartsPresent, ins]
    simp only [Prod.mk.injEq, Option.some.injEq]
    by_cases same : in1.utxoid = in2.utxoid
    · rw [if_pos ((UTXOID.equals_iff _ _).mpr same)]
      refine iff_of_true (by simp) ⟨in1, in2, ⟨rfl, rfl⟩, ?_⟩
      intro other
      exact absurd same other
    · rw [if_neg (mt (UTXOID.equals_iff _ _).mp same)]
      cases inputs : UtxoTxValidator.totalInAmount reader
          [(in1.completed, senders.1), (in2.completed, senders.2)] 0 with
      | error failure =>
          have present := @totalInAmount_ne_nilPointer reader
            [(in1.completed, senders.1), (in2.completed, senders.2)] 0
          rw [inputs] at present
          refine iff_of_true (by simpa [Except.bind] using present)
            ⟨in1, in2, ⟨rfl, rfl⟩, ?_⟩
          intro _ owned
          rw [(UtxoTxValidator.totalInAmount_ok_iff _ _ _ _).mpr
            ⟨owned, rfl⟩] at inputs
          cases inputs
      | ok totalIn =>
          have owned :=
            ((UtxoTxValidator.totalInAmount_ok_iff _ _ _ _).mp inputs).1
          refine (checkBalance_ne_nilPointer_iff fee totalIn).trans ⟨?_, ?_⟩
          · intro present
            exact ⟨in1, in2, ⟨rfl, rfl⟩, fun _ _ => present⟩
          · rintro ⟨_, _, ⟨rfl, rfl⟩, present⟩
            exact present same owned
  · refine iff_of_false ?_ ?_
    · obtain ⟨⟨in1, in2⟩, outs, txFee, sigs⟩ := tx
      cases in1 <;> cases in2 <;> simp_all [validateParts]
    · rintro ⟨in1, in2, ins, _⟩
      exact both ⟨in1, in2, ins⟩

theorem validate_ne_nilPointer_iff
    (recoverable : tx.sender dp p signer ≠ .error .nilPointer) :
    tx.validate p dp signer reader ≠ .error .nilPointer ↔
      tx.ReadsPresent p dp signer reader := by
  rw [validate, ReadsPresent]
  by_cases large : dp.txSize tx > 32 * 1024
  · simp [large]
  · rw [if_neg large]
    cases feeRead : tx.fee with
    | none => simpa using large
    | some fee =>
        by_cases low : fee ≤ 0
        · simp only [if_pos low, Option.some.injEq]
          refine iff_of_true (by simp) fun _ => ⟨fee, rfl, fun high => ?_⟩
          omega
        · simp only [if_neg low, Option.some.injEq, exists_eq_left']
          have high : 0 < fee := by omega
          have fits : dp.txSize tx ≤ 32 * 1024 := by omega
          cases recovered : tx.sender dp p signer with
          | error failure =>
              have refused : failure ≠ .nilPointer := by
                rintro rfl
                exact recoverable recovered
              cases failure <;> simp_all
          | ok senders =>
              simp only [validateParts_ne_nilPointer_iff, Except.ok.injEq]
              simp [high, fits]

theorem completed_eq_some_iff (whole : Transaction) :
    tx.completed = some whole ↔
      ∃ in1 in2 out1 out2 fee, tx.ins = (some in1, some in2) ∧
        tx.outs = (some out1, some out2) ∧ tx.fee = some fee ∧
        whole = ⟨(in1.completed, in2.completed),
          (out1.completed, out2.completed), fee, tx.sigs⟩ := by
  obtain ⟨⟨in1, in2⟩, ⟨out1, out2⟩, fee, sigs⟩ := tx
  cases in1 <;> cases in2 <;> cases out1 <;> cases out2 <;> cases fee <;>
    simp [completed, eq_comm]

theorem validateParts_ok_iff {senders : Address × Address} {fee : Int}
    (feeRead : tx.fee = some fee) :
    tx.validateParts reader fee senders = .ok () ↔
      ∃ whole, tx.completed = some whole ∧
        whole.ins.1.id ≠ whole.ins.2.id ∧
        (∀ slot ∈ whole.slots senders, SlotOwned reader slot) ∧
        (∀ out ∈ whole.getOutsCopy, 0 ≤ out.amount) ∧
        (whole.realInputs.map (amountAt reader)).sum =
          (whole.getOutsCopy.map TxOut.amount).sum + whole.fee := by
  constructor
  · intro accepted
    obtain ⟨in1, in2, ins, _⟩ :=
      (@validateParts_ne_nilPointer_iff reader tx fee senders).mp
        (by rw [accepted]; simp)
    rw [validateParts_of_inputs ins] at accepted
    split at accepted
    · cases accepted
    · next different =>
        cases inputs : UtxoTxValidator.totalInAmount reader
            [(in1.completed, senders.1), (in2.completed, senders.2)] 0 with
        | error failure =>
            rw [inputs] at accepted
            cases accepted
        | ok totalIn =>
            rw [inputs] at accepted
            obtain ⟨out1, out2, outs⟩ := outs_of_checkBalance accepted
            obtain ⟨nonneg, balanced⟩ :=
              (checkBalance_ok_iff outs fee totalIn).mp accepted
            obtain ⟨owned, total⟩ :=
              (UtxoTxValidator.totalInAmount_ok_iff _ _ _ _).mp inputs
            rw [total, zero_add] at balanced
            exact ⟨_, (completed_eq_some_iff _).mpr
                ⟨in1, in2, out1, out2, fee, ins, outs, feeRead, rfl⟩,
              mt (UTXOID.equals_iff _ _).mpr different, owned, nonneg,
              balanced⟩
  · rintro ⟨whole, parts, different, owned, nonneg, balanced⟩
    obtain ⟨in1, in2, out1, out2, other, ins, outs, same, rfl⟩ :=
      (completed_eq_some_iff whole).mp parts
    obtain rfl := Option.some.inj (feeRead.symm.trans same)
    have notSame : ¬ in1.utxoid.equals in2.utxoid = true :=
      mt (UTXOID.equals_iff _ _).mp different
    have inputs := (UtxoTxValidator.totalInAmount_ok_iff reader
      [(in1.completed, senders.1), (in2.completed, senders.2)] 0 _).mpr
        ⟨owned, rfl⟩
    rw [validateParts_of_inputs ins, if_neg notSame, inputs]
    refine (checkBalance_ok_iff outs fee _).mpr ⟨nonneg, ?_⟩
    rw [zero_add]
    exact balanced

theorem validate_ok_iff :
    tx.validate p dp signer reader = .ok () ↔
      ∃ whole, tx.Accepted p dp signer reader whole := by
  constructor
  · intro accepted
    rw [validate] at accepted
    split at accepted
    · cases accepted
    · next small =>
        cases feeRead : tx.fee with
        | none =>
            rw [feeRead] at accepted
            cases accepted
        | some fee =>
            simp only [feeRead] at accepted
            split at accepted
            · cases accepted
            · next low =>
                split at accepted
                · cases accepted
                · cases accepted
                · next senders recovered =>
                    obtain ⟨whole, parts, different, owned, nonneg,
                      balanced⟩ := (validateParts_ok_iff feeRead).mp accepted
                    obtain ⟨_, _, _, _, other, _, _, same, rfl⟩ :=
                      (completed_eq_some_iff whole).mp parts
                    obtain rfl := Option.some.inj (feeRead.symm.trans same)
                    exact ⟨_, parts, not_lt.mp small, not_le.mp low,
                      different, ⟨senders, recovered, owned⟩, nonneg,
                      balanced⟩
  · rintro ⟨whole, parts, small, fee, different, ⟨senders, recovered, owned⟩,
      nonneg, balanced⟩
    obtain ⟨_, _, _, _, paid, _, _, feeRead, equal⟩ :=
      (completed_eq_some_iff whole).mp parts
    have paidFee : whole.fee = paid := congrArg Transaction.fee equal
    rw [paidFee] at fee
    rw [validate, if_neg (not_lt.mpr small), feeRead]
    simp only [if_neg (not_le.mpr fee), recovered]
    exact (validateParts_ok_iff feeRead).mpr
      ⟨whole, parts, different, owned, nonneg, balanced⟩

end Validation

section Sealing

variable {p : Primitives} {signer : EIP155Signer} {tx : TxData}

/-- Inside a transaction the loop fails only at an absent part. -/
theorem putOutputs_inBatch (disk : Bool) (number : UInt64) (txIdx outIdx : Nat)
    (outs : List (Option DataOut)) {d : Database} (batch : d.inBatch = true) :
    ((putOutputs disk number txIdx outIdx outs d).2 = .ok () ∧
        (∀ out ∈ outs, ∃ owner amount, out = some ⟨owner, some amount⟩)) ∨
      ((putOutputs disk number txIdx outIdx outs d).2 = .error .nilPointer ∧
        ¬ ∀ out ∈ outs, ∃ owner amount, out = some ⟨owner, some amount⟩) := by
  induction outs generalizing outIdx d with
  | nil => exact .inl ⟨rfl, by simp⟩
  | cons out outs induction =>
      rcases out with _ | ⟨owner, _ | amount⟩
      · exact .inr ⟨rfl, by simp⟩
      · exact .inr ⟨rfl, by simp⟩
      · obtain ⟨contents, inBatch, buffer⟩ := d
        obtain rfl : inBatch = true := batch
        have rest := induction (outIdx + 1) (d := ⟨contents, true, buffer ++
          [.put (.utxo ⟨number, UInt32.ofNat txIdx, UInt8.ofNat outIdx⟩)
            (.utxo ⟨owner, amount.natAbs⟩)]⟩) rfl
        simpa [putOutputs, Rawdb.writeUTXO, createdUTXO, UTXO.id] using rest

/-- A lookup only reads what is committed. -/
theorem hasBlock_inBatch (chain : BlockChain) (hash : Hash)
    (number : UInt64) :
    (({ chain with db := { chain.db with inBatch := true } } :
      BlockChain).hasBlock p hash number).2 =
      (chain.hasBlock p hash number).2 := by
  have read : Rawdb.readBlock { chain.db with inBatch := true } hash number =
      Rawdb.readBlock chain.db hash number := rfl
  unfold BlockChain.hasBlock BlockChain.getBlock
  dsimp only
  cases BlockCache.find chain.blockCache hash with
  | some block => rfl
  | none =>
      rw [read]
      cases Rawdb.readBlock chain.db hash number with
      | none => rfl
      | some block => rfl

theorem writeBlock_keeps_batch (disk : Bool) (block : Block) {d : Database}
    (batch : d.inBatch = true) :
    (Rawdb.writeBlock disk p block d).inBatch = true := by
  obtain ⟨contents, inBatch, buffer⟩ := d
  obtain rfl : inBatch = true := batch
  rw [Rawdb.writeBlock_inBatch]

theorem writeByNumber_inBatch (disk : Bool) (chain : BlockChain)
    (block : Block) :
    (BlockChain.writeByNumber p signer disk
        { chain with db := { chain.db with inBatch := true } } block).2 =
        chain.verdict p signer block ∧
      (BlockChain.writeByNumber p signer disk
        { chain with db := { chain.db with inBatch := true } }
          block).1.db.inBatch = true := by
  rw [BlockChain.writeByNumber, BlockChain.verdict]
  split
  · exact ⟨rfl, writeBlock_keeps_batch disk block rfl⟩
  · have reader : Rawdb.readUTXO { chain.db with inBatch := true } =
        Rawdb.readUTXO chain.db := rfl
    simp only [BlockChain.writeBlock, hasBlock_inBatch,
      BlockChain.hasBlock_db, reader]
    cases UtxoBlockValidator.validateBody p signer
        (chain.hasBlock p (block.hash p) block.numberU64).2
        (Rawdb.readUTXO chain.db) block with
    | error failure =>
        refine ⟨rfl, ?_⟩
        dsimp only
        rw [BlockChain.hasBlock_db]
    | ok accepted => exact ⟨rfl, writeBlock_keeps_batch disk block rfl⟩

theorem advanceHead_keeps_batch (p : Primitives) (disk : Bool)
    (chain : BlockChain) (block : Block) (batch : chain.db.inBatch = true) :
    (chain.advanceHead p disk block).db.inBatch = true := by
  rw [BlockChain.advanceHead]
  split
  · have buffered : chain.db =
        ⟨chain.db.db, true, chain.db.defaultBatch⟩ := by
      rw [← batch]
    rw [BlockChain.replaceHead, BlockChain.insert_inBatch p disk chain block
      buffered]
  · exact batch

theorem removeInputs_inBatch (disk : Bool) (ins : List UTXO) {d : Database}
    (batch : d.inBatch = true) :
    ∃ next, Operator.removeInputs disk ins d = (next, .ok ()) ∧
      next.inBatch = true := by
  obtain ⟨contents, inBatch, buffer⟩ := d
  obtain rfl : inBatch = true := batch
  exact ⟨_, Operator.buffersDeletions_removeInputs disk ins contents buffer,
    rfl⟩

/-- With both outputs, the amounts are all that can be absent. -/
theorem amountsPresent_iff {whole : Transaction}
    (parts : tx.completed = some whole) :
    tx.AmountsPresent ↔ ∀ out ∈ [tx.outs.1, tx.outs.2],
      ∃ owner amount, out = some ⟨owner, some amount⟩ := by
  obtain ⟨_, _, out1, out2, _, _, outs, _⟩ :=
    (completed_eq_some_iff whole).mp parts
  obtain ⟨owner1, amount1⟩ := out1
  obtain ⟨owner2, amount2⟩ := out2
  rw [AmountsPresent, outs]
  cases amount1 <;> cases amount2 <;> simp

/-- `Seal` reads an absent amount exactly when it gets to the outputs. -/
theorem sealTx_ne_nilPointer_iff (time : Int) (disk submits : Bool)
    (o : Operator) {whole : Transaction} (parts : tx.completed = some whole) :
    tx.sealTx p signer time disk submits o ≠ .error .nilPointer ↔
      (o.chain.db.inBatch = false →
        o.chain.verdict p signer (o.constructBlock p time [whole]).2 =
          .ok () → tx.AmountsPresent) := by
  have chain : (o.constructBlock p time [whole]).1.chain = o.chain := by
    simp only [Operator.constructBlock]
  rw [sealTx, parts]
  dsimp only
  rw [chain]
  generalize (o.constructBlock p time [whole]).2 = block
  cases busy : o.chain.db.inBatch with
  | true => simp [LDBDatabase.beginTx, busy]
  | false =>
      simp only [LDBDatabase.beginTx, busy, Bool.false_eq_true, if_false,
        true_imp_iff]
      obtain ⟨answer, batch⟩ :=
        @writeByNumber_inBatch p signer disk o.chain block
      generalize BlockChain.writeByNumber p signer disk
        { o.chain with db := { o.chain.db with inBatch := true } } block =
          written at answer batch ⊢
      obtain ⟨next, result⟩ := written
      rw [← answer]
      cases result with
      | error failure => simp
      | ok passed =>
          obtain ⟨removed, removal, still⟩ := removeInputs_inBatch disk
            whole.getInsCopy (advanceHead_keeps_batch p disk next block batch)
          simp only [removal, true_imp_iff, amountsPresent_iff parts]
          rcases putOutputs_inBatch disk block.numberU64 0 0
              [tx.outs.1, tx.outs.2] still with ⟨put, all⟩ | ⟨put, absent⟩
          · refine iff_of_true ?_ all
            generalize putOutputs disk block.numberU64 0 0
              [tx.outs.1, tx.outs.2] removed = outcome at put ⊢
            obtain ⟨final, result⟩ := outcome
            obtain rfl : result = .ok () := put
            dsimp only
            generalize final.commitTx disk = committed
            obtain ⟨_, committedResult⟩ := committed
            cases committedResult with
            | error failure => simp
            | ok _ => cases submits <;> simp
          · refine iff_of_false ?_ absent
            generalize putOutputs disk block.numberU64 0 0
              [tx.outs.1, tx.outs.2] removed = outcome at put ⊢
            obtain ⟨final, result⟩ := outcome
            obtain rfl : result = .error .nilPointer := put
            simp

end Sealing

end TxData

/-- A JSON transaction goes its way without a nil dereference exactly when
every part is present that the way gets to. -/
theorem incoming_never_dereferences_nil_iff (p : Primitives)
    (dp : DataPrimitives) (signer : EIP155Signer) {Json : Type}
    (decode : Json → Option TxData) (time : Int) (disk submits : Bool)
    (node : PoolNode) (input : Json) :
    incomingPath p dp signer decode time disk submits node input ≠
        .error .nilPointer ↔
      ∀ tx, decode input = some tx → tx.Present p dp signer time node := by
  rw [incomingPath, unmarshalJSON]
  cases decode input with
  | none => simp
  | some tx =>
      simp only [Option.some.injEq, forall_eq']
      rw [TxData.Present, ← checkSigs_ne_nilPointer_iff]
      cases checked : checkSigs p tx.sigs with
      | error failure =>
          cases failure <;> simp
      | ok passed =>
          have recoverable : tx.sender dp p signer ≠ .error .nilPointer :=
            senders_ne_nilPointer checked
          simp only [ne_eq, reduceCtorEq, not_false_eq_true, true_and,
            true_imp_iff]
          rw [← TxData.validate_ne_nilPointer_iff recoverable,
            TxData.addLocal]
          cases known : (node.pool.get (dp.txHash tx)).isSome with
          | true => simp
          | false =>
              simp only [Bool.false_eq_true, if_false, true_imp_iff]
              cases validated : tx.validate p dp signer node.reader with
              | error failure =>
                  have refused : ∀ whole,
                      ¬ tx.Accepted p dp signer node.reader whole := by
                    intro whole accepted
                    rw [TxData.validate_ok_iff.mpr ⟨whole, accepted⟩]
                      at validated
                    cases validated
                  cases failure <;> simp [refused]
              | ok _ =>
                  obtain ⟨whole, accepted⟩ :=
                    TxData.validate_ok_iff.mp validated
                  refine (TxData.sealTx_ne_nilPointer_iff time disk submits
                    node.operator accepted.1).trans ⟨?_, ?_⟩
                  · intro present
                    refine ⟨by simp, fun other again => ?_⟩
                    obtain rfl := Option.some.inj
                      (accepted.1.symm.trans again.1)
                    exact present
                  · rintro ⟨_, present⟩
                    exact present whole accepted

namespace Sample

def gapSig : Sig :=
  { v := some 38
    r := some
      0x727a78dc5e85d9942a83b6cc75b0c59829d94268a54a85c7f52ab2cf2197ccf8
    s := some
      0x50f5a48f3bcd250c97e412a7c66df2740de74223998005c7ee233d136d268342 }

/-- A payment out of the first deposit without the amount of its second
output. -/
def gap : TxData :=
  { ins := (some ⟨⟨1, 0, 0⟩, ⟨alice, some 5⟩⟩,
      some ⟨⟨0, 0, 0⟩, ⟨0, some 0⟩⟩)
    outs := (some ⟨bob, some 4⟩, some ⟨0, none⟩)
    fee := some 1
    sigs := (gapSig, gapSig) }

/-- The transaction with the same encoding. -/
def gapWhole : Transaction :=
  { ins := (⟨⟨1, 0, 0⟩, ⟨alice, 5⟩⟩, Operator.nullInput)
    outs := (⟨bob, 4⟩, ⟨0, 0⟩)
    fee := 1
    sigs := (gapSig, gapSig) }

def gapHash : Hash :=
  0xb01ffe99320c718fdd18459840045015d5f15becb34745ef662dd06866e7eac9

def gapRoot : Hash :=
  0xb680272b33de690ddfc0cc90756cba26f2156af86ec58c555a29ea6947920c0b

/-- The data of the empty JSON object. -/
def emptyObject : TxData :=
  { ins := (none, none)
    outs := (none, none)
    fee := none
    sigs := (⟨none, none, none⟩, ⟨none, none, none⟩) }

def gapPrimitives : Primitives :=
  { curvePrimitives with
    headerHash := fun header' => lookup
      [(header 0 gapRoot 1000,
        0x0ca6f436a5eee1af8c6cbc7d2ff80998bea7dab31e7086f0e13a9cff6b4f5ede)]
      (primitives.headerHash header') header'
    txHash := fun tx => lookup
      [(gapWhole,
        0xcf048b3c9d890bc0f39cf8aa7c4b9ca216f5602478bc63ed8b94bc223c70bf22)]
      (primitives.txHash tx) tx
    txSize := fun tx => lookup [(gapWhole, 248)] (primitives.txSize tx) tx
    deriveSha := fun txs => lookup [([gapWhole], gapRoot)]
      (primitives.deriveSha txs) txs
    keccak256 := fun input => lookup
      [((gapWhole.encodeUnsigned 1).getD [], gapHash)]
      (primitives.keccak256 input) input
    ecrecover := fun hash r s v =>
      if hash = gapHash ∧ some r = gapSig.r ∧ some s = gapSig.s ∧ v = 1 then
        some pubkey
      else primitives.ecrecover hash r s v }

def gapDataPrimitives : DataPrimitives :=
  { txHash := lookup
      [(gap,
        0xcf048b3c9d890bc0f39cf8aa7c4b9ca216f5602478bc63ed8b94bc223c70bf22)] 0
    txSize := lookup [(gap, 248)] 0
    sigHash := fun chainId tx => lookup [((1, gap), gapHash)] 0 (chainId, tx) }

end Sample

open Sample in
/-- The first absent `V` is dereferenced on arrival; a payment without the
amount of its second output is accepted into the pool and dereferenced when
its block is written. -/
theorem absent_parts_dereferenced :
    incomingPath gapPrimitives gapDataPrimitives signer some now true true
        (poolNode (depositedOperator gapPrimitives)) emptyObject =
      .error .nilPointer ∧
    gap.addLocal gapPrimitives gapDataPrimitives signer
        (poolNode (depositedOperator gapPrimitives)) = .ok () ∧
    incomingPath gapPrimitives gapDataPrimitives signer some now true true
        (poolNode (depositedOperator gapPrimitives)) gap =
      .error .nilPointer := by
  refine ⟨by decide +kernel, by decide +kernel, by decide +kernel⟩

end Plasma.Core
