import Mathlib
import Plasma.Core.Signer

/-!
# Validation of one transaction

`UtxoTxValidator.Validate` reads the unspent outputs through a reader and
checks size, fee, senders, ownership and the balance of a transaction.
`ValidTx` states what an accepted transaction satisfies.
-/

namespace Plasma.Core

inductive TxError where
  | oversizedData
  | notEnoughTxFee
  | invalidSender
  | duplicateSpent
  | alreadySpent
  | txOutNotOwned
  | invalidOutputAmount
  | txTotalAmountNotEqual
  | nilPointer
deriving DecidableEq, Repr

abbrev UtxoReader := UTXOID → Option UTXO

/-- The identities of the inputs that are not null. -/
def realIds (ins : List UTXO) : List UTXOID :=
  (ins.filter fun input => !input.isNullUTXO).map UTXO.id

@[simp] theorem realIds_nil : realIds [] = [] := rfl

theorem realIds_cons_null {input : UTXO} (ins : List UTXO)
    (null : input.isNullUTXO = true) :
    realIds (input :: ins) = realIds ins := by
  simp [realIds, null]

theorem realIds_cons_real {input : UTXO} (ins : List UTXO)
    (real : input.isNullUTXO = false) :
    realIds (input :: ins) = input.id :: realIds ins := by
  simp [realIds, real]

namespace Transaction

/-- The inputs paired with the senders of the same slots. -/
def slots (tx : Transaction) (senders : Address × Address) :
    List (UTXO × Address) :=
  [(tx.ins.1, senders.1), (tx.ins.2, senders.2)]

def realInputs (tx : Transaction) : List UTXOID :=
  realIds tx.getInsCopy

end Transaction

namespace UtxoTxValidator

/-- The loop over the inputs: null inputs are skipped, every other one has to
be unspent and owned by the sender of its slot. -/
def totalInAmount (reader : UtxoReader) :
    List (UTXO × Address) → Int → Except TxError Int
  | [], total => .ok total
  | (input, sender) :: rest, total =>
      if input.id.blockNum = 0 then totalInAmount reader rest total
      else
        match reader input.id with
        | none => .error .alreadySpent
        | some utxo =>
            if utxo.txOut.owner ≠ sender then .error .txOutNotOwned
            else totalInAmount reader rest (total + utxo.txOut.amount)

def totalOutAmount : List TxOut → Int → Except TxError Int
  | [], total => .ok total
  | out :: rest, total =>
      if out.amount = 0 then totalOutAmount rest total
      else if out.amount ≤ 0 then .error .invalidOutputAmount
      else totalOutAmount rest (total + out.amount)

def validate (p : Primitives) (signer : EIP155Signer) (reader : UtxoReader)
    (tx : Transaction) : Except TxError Unit :=
  if p.txSize tx > 32 * 1024 then .error .oversizedData
  else if tx.fee ≤ 0 then .error .notEnoughTxFee
  else
    match signer.sender p tx with
    | .error .nilPointer => .error .nilPointer
    | .error _ => .error .invalidSender
    | .ok senders =>
        if tx.ins.1.equals tx.ins.2 then .error .duplicateSpent
        else
          match totalInAmount reader (tx.slots senders) 0 with
          | .error failure => .error failure
          | .ok totalIn =>
              match totalOutAmount tx.getOutsCopy 0 with
              | .error failure => .error failure
              | .ok totalOut =>
                  if totalIn ≠ totalOut + tx.fee then
                    .error .txTotalAmountNotEqual
                  else .ok ()

end UtxoTxValidator

/-- The amount a reader finds under an identity. -/
def amountAt (reader : UtxoReader) (id : UTXOID) : Int :=
  (reader id).elim 0 fun utxo => utxo.txOut.amount

/-- The slot is null or holds an unspent output of its sender. -/
def SlotOwned (reader : UtxoReader) (slot : UTXO × Address) : Prop :=
  slot.1.id.blockNum ≠ 0 →
    ∃ utxo, reader slot.1.id = some utxo ∧ utxo.txOut.owner = slot.2

structure ValidTx (p : Primitives) (signer : EIP155Signer)
    (reader : UtxoReader) (tx : Transaction) : Prop where
  size : p.txSize tx ≤ 32 * 1024
  feePositive : 0 < tx.fee
  owned : ∃ senders, signer.sender p tx = .ok senders ∧
    ∀ slot ∈ tx.slots senders, SlotOwned reader slot
  distinct : tx.ins.1.id ≠ tx.ins.2.id
  outsNonneg : ∀ out ∈ tx.getOutsCopy, 0 ≤ out.amount
  balanced : (tx.realInputs.map (amountAt reader)).sum =
    (tx.getOutsCopy.map TxOut.amount).sum + tx.fee

namespace UtxoTxValidator

theorem totalInAmount_ok_iff (reader : UtxoReader)
    (slots : List (UTXO × Address)) (start total : Int) :
    totalInAmount reader slots start = .ok total ↔
      (∀ slot ∈ slots, SlotOwned reader slot) ∧
        total = start +
          ((realIds (slots.map Prod.fst)).map (amountAt reader)).sum := by
  induction slots generalizing start with
  | nil => simp [totalInAmount, eq_comm]
  | cons slot slots induction =>
      obtain ⟨input, sender⟩ := slot
      by_cases null : input.id.blockNum = 0
      · have skipped : input.isNullUTXO = true := by
          simpa [UTXO.isNullUTXO, UTXO.id] using null
        simp [totalInAmount, null, induction, SlotOwned,
          realIds_cons_null _ skipped]
      · have kept : input.isNullUTXO = false := by
          simpa [UTXO.isNullUTXO, UTXO.id] using null
        cases found : reader input.id with
        | none => simp [totalInAmount, null, found, SlotOwned]
        | some utxo =>
            by_cases owner : utxo.txOut.owner = sender
            · simp [totalInAmount, null, found, owner, induction, SlotOwned,
                realIds_cons_real _ kept, amountAt, Int.add_assoc]
            · simp [totalInAmount, null, found, owner, SlotOwned]

theorem totalOutAmount_ok_iff (outs : List TxOut) (start total : Int) :
    totalOutAmount outs start = .ok total ↔
      (∀ out ∈ outs, 0 ≤ out.amount) ∧
        total = start + (outs.map TxOut.amount).sum := by
  induction outs generalizing start with
  | nil => simp [totalOutAmount, eq_comm]
  | cons out outs induction =>
      by_cases zero : out.amount = 0
      · simp [totalOutAmount, zero, induction]
      · by_cases positive : out.amount ≤ 0
        · have negative : ¬ 0 ≤ out.amount := by omega
          simp [totalOutAmount, zero, positive, negative]
        · have nonneg : 0 ≤ out.amount := by omega
          simp [totalOutAmount, zero, positive, nonneg, induction,
            Int.add_assoc]

/-- `Validate` accepts exactly the valid transactions. -/
theorem validate_ok_iff (p : Primitives) (signer : EIP155Signer)
    (reader : UtxoReader) (tx : Transaction) :
    validate p signer reader tx = .ok () ↔ ValidTx p signer reader tx := by
  have inputsOf : ∀ senders,
      (tx.slots senders).map Prod.fst = tx.getInsCopy := fun _ => rfl
  constructor
  · intro accepted
    unfold validate at accepted
    split at accepted
    · cases accepted
    split at accepted
    · cases accepted
    split at accepted
    · cases accepted
    · cases accepted
    rename_i senders recovered
    split at accepted
    · cases accepted
    rename_i notSame
    split at accepted
    · cases accepted
    rename_i totalIn inputs
    split at accepted
    · cases accepted
    rename_i totalOut outputs
    split at accepted
    · cases accepted
    rename_i small paid balanced
    obtain ⟨slotsOwned, inSum⟩ :=
      (totalInAmount_ok_iff reader _ _ _).mp inputs
    obtain ⟨nonneg, outSum⟩ := (totalOutAmount_ok_iff _ _ _).mp outputs
    rw [inputsOf] at inSum
    refine
      { size := by omega
        feePositive := by omega
        owned := ⟨senders, recovered, slotsOwned⟩
        distinct := ?_
        outsNonneg := nonneg
        balanced := ?_ }
    · intro same
      exact notSame ((UTXOID.equals_iff _ _).mpr same)
    · have equality : totalIn = totalOut + tx.fee := by
        simpa using balanced
      rw [inSum, outSum] at equality
      simpa [Transaction.realInputs] using equality
  · intro valid
    obtain ⟨senders, recovered, slotsOwned⟩ := valid.owned
    have notSame : tx.ins.1.equals tx.ins.2 = false := by
      rw [Bool.eq_false_iff]
      intro same
      exact valid.distinct ((UTXOID.equals_iff _ _).mp same)
    have inputs := (totalInAmount_ok_iff reader (tx.slots senders) 0 _).mpr
      ⟨slotsOwned, rfl⟩
    have outputs := (totalOutAmount_ok_iff tx.getOutsCopy 0 _).mpr
      ⟨valid.outsNonneg, rfl⟩
    have small : ¬ p.txSize tx > 32 * 1024 := Nat.not_lt.mpr valid.size
    have paid : ¬ tx.fee ≤ 0 := Int.not_le.mpr valid.feePositive
    have balanced := valid.balanced
    rw [inputsOf] at inputs
    unfold validate
    simp only [small, paid, if_false, recovered, notSame, inputs, outputs]
    simp [← balanced, Transaction.realInputs]

end UtxoTxValidator

/-- An accepted transaction has at least one input that is not null. -/
theorem ValidTx.realInputs_ne_nil {p : Primitives} {signer : EIP155Signer}
    {reader : UtxoReader} {tx : Transaction}
    (valid : ValidTx p signer reader tx) : tx.realInputs ≠ [] := by
  intro empty
  have balanced := valid.balanced
  have first := valid.outsNonneg tx.outs.1 (by simp [Transaction.getOutsCopy])
  have second := valid.outsNonneg tx.outs.2 (by simp [Transaction.getOutsCopy])
  have fee := valid.feePositive
  simp only [empty, Transaction.getOutsCopy, List.map_cons, List.map_nil,
    List.sum_cons, List.sum_nil] at balanced
  omega

/-- The real inputs of an accepted transaction are pairwise different. -/
theorem ValidTx.realInputs_nodup {p : Primitives} {signer : EIP155Signer}
    {reader : UtxoReader} {tx : Transaction}
    (valid : ValidTx p signer reader tx) : tx.realInputs.Nodup := by
  have all : (tx.getInsCopy.map UTXO.id).Nodup := by
    simpa [Transaction.getInsCopy] using valid.distinct
  exact all.sublist (List.filter_sublist.map UTXO.id)

/-- A real input is the identity of one of the two inputs and does not refer
to block zero. -/
theorem Transaction.mem_realInputs_iff (tx : Transaction) (id : UTXOID) :
    id ∈ tx.realInputs ↔
      (id = tx.ins.1.id ∨ id = tx.ins.2.id) ∧ id.blockNum ≠ 0 := by
  simp only [realInputs, realIds, getInsCopy, List.mem_map, List.mem_filter,
    List.mem_cons, List.not_mem_nil, or_false, UTXO.isNullUTXO, UTXO.id]
  constructor
  · rintro ⟨input, ⟨rfl | rfl, real⟩, rfl⟩
    · exact ⟨.inl rfl, by simpa using real⟩
    · exact ⟨.inr rfl, by simpa using real⟩
  · rintro ⟨rfl | rfl, real⟩
    · exact ⟨tx.ins.1, ⟨.inl rfl, by simpa using real⟩, rfl⟩
    · exact ⟨tx.ins.2, ⟨.inr rfl, by simpa using real⟩, rfl⟩

end Plasma.Core
