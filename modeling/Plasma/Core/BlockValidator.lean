import Plasma.Core.TxValidator

/-!
# Validation of a block body

`UtxoBlockValidator.ValidateBody` rejects known blocks and wrong transaction
roots, validates every transaction against the same reader and keeps the
inputs already seen in a map.  Only the keys of that map are consulted.
-/

namespace Plasma.Core

inductive BlockError where
  | knownBlock
  | txRootMismatch (have' want : Hash)
  | tx (failure : TxError)
  | utxoNotExist (id : UTXOID)
deriving DecidableEq, Repr

/-- The real inputs of an accepted transaction are unspent. -/
theorem ValidTx.inputs_present {p : Primitives} {signer : EIP155Signer}
    {reader : UtxoReader} {tx : Transaction}
    (valid : ValidTx p signer reader tx) :
    ∀ id ∈ tx.realInputs, (reader id).isSome := by
  intro id member
  obtain ⟨position, notNull⟩ := (tx.mem_realInputs_iff id).mp member
  obtain ⟨senders, _, slotsOwned⟩ := valid.owned
  rcases position with rfl | rfl
  · obtain ⟨utxo, found, _⟩ := slotsOwned (tx.ins.1, senders.1)
      (by simp [Transaction.slots]) notNull
    simp [found]
  · obtain ⟨utxo, found, _⟩ := slotsOwned (tx.ins.2, senders.2)
      (by simp [Transaction.slots]) notNull
    simp [found]

namespace UtxoBlockValidator

/-- The loop over the inputs of one accepted transaction; an unspent output
that has disappeared stops the process. -/
def markSpent (reader : UtxoReader) :
    List UTXO → List UTXOID → Except BlockError (List UTXOID)
  | [], spent => .ok spent
  | input :: rest, spent =>
      if input.isNullUTXO then markSpent reader rest spent
      else if input.id ∈ spent then .error (.tx .duplicateSpent)
      else
        match reader input.id with
        | none => .error (.utxoNotExist input.id)
        | some _ => markSpent reader rest (input.id :: spent)

def validateTxFrom (p : Primitives) (signer : EIP155Signer)
    (reader : UtxoReader) :
    List Transaction → List UTXOID → Except BlockError Unit
  | [], _ => .ok ()
  | tx :: rest, spent =>
      match UtxoTxValidator.validate p signer reader tx with
      | .error failure => .error (.tx failure)
      | .ok _ =>
          match markSpent reader tx.getInsCopy spent with
          | .error failure => .error failure
          | .ok spent => validateTxFrom p signer reader rest spent

def validateTx (p : Primitives) (signer : EIP155Signer)
    (reader : UtxoReader) (txs : List Transaction) : Except BlockError Unit :=
  validateTxFrom p signer reader txs []

/-- `known` is the answer of `HasBlock` for the hash and number of the
block. -/
def validateBody (p : Primitives) (signer : EIP155Signer) (known : Bool)
    (reader : UtxoReader) (block : Block) : Except BlockError Unit :=
  if known then .error .knownBlock
  else
    let hash := p.deriveSha block.transactions
    if hash ≠ block.header.txHash then
      .error (.txRootMismatch hash block.header.txHash)
    else validateTx p signer reader block.transactions

private theorem markSpent_ok_iff (reader : UtxoReader) (ins : List UTXO)
    (spent final : List UTXOID) :
    markSpent reader ins spent = .ok final ↔
      (realIds ins).Nodup ∧
        (∀ id ∈ realIds ins, id ∉ spent ∧ (reader id).isSome) ∧
          final = (realIds ins).reverse ++ spent := by
  induction ins generalizing spent with
  | nil =>
      constructor
      · intro marked
        cases marked
        simp
      · rintro ⟨_, _, rfl⟩
        rfl
  | cons input ins induction =>
      cases null : input.isNullUTXO with
      | true =>
          rw [realIds_cons_null ins null, ← induction spent]
          simp [markSpent, null]
      | false =>
          rw [realIds_cons_real ins null]
          by_cases seen : input.id ∈ spent
          · simp [markSpent, null, seen]
          · cases found : reader input.id with
            | none => simp [markSpent, null, seen, found]
            | some utxo =>
                simp only [markSpent, null, seen, found, induction, if_false,
                  Bool.false_eq_true, List.mem_cons, not_or,
                  List.nodup_cons, List.reverse_cons, List.append_assoc,
                  List.singleton_append, forall_eq_or_imp,
                  Option.isSome_some]
                grind

private theorem validateTxFrom_ok_iff (p : Primitives)
    (signer : EIP155Signer) (reader : UtxoReader) (txs : List Transaction)
    (spent : List UTXOID) :
    validateTxFrom p signer reader txs spent = .ok () ↔
      (∀ tx ∈ txs, ValidTx p signer reader tx) ∧
        (txs.flatMap Transaction.realInputs).Nodup ∧
          ∀ id ∈ txs.flatMap Transaction.realInputs, id ∉ spent := by
  induction txs generalizing spent with
  | nil => simp [validateTxFrom]
  | cons tx txs induction =>
      cases checked : UtxoTxValidator.validate p signer reader tx with
      | error failure =>
          have invalid : ¬ ValidTx p signer reader tx := by
            intro valid
            rw [(UtxoTxValidator.validate_ok_iff _ _ _ _).mpr valid] at checked
            cases checked
          simp [validateTxFrom, checked, invalid]
      | ok accepted =>
          have valid := (UtxoTxValidator.validate_ok_iff _ _ _ _).mp checked
          have present := valid.inputs_present
          have once := valid.realInputs_nodup
          simp only [validateTxFrom, checked, List.flatMap_cons,
            List.nodup_append, List.mem_append, List.mem_cons,
            forall_eq_or_imp, valid, true_and, once]
          cases marked : markSpent reader tx.getInsCopy spent with
          | error failure =>
              have refused : ¬ ∀ id ∈ tx.realInputs, id ∉ spent := by
                intro unseen
                have accepted := (markSpent_ok_iff reader tx.getInsCopy spent
                  (tx.realInputs.reverse ++ spent)).mpr
                    ⟨once, fun id member =>
                      ⟨unseen id member, present id member⟩, rfl⟩
                rw [accepted] at marked
                cases marked
              simp only [reduceCtorEq, false_iff]
              rintro ⟨_, _, unseen⟩
              exact refused fun id member => unseen id (.inl member)
          | ok final =>
              obtain ⟨_, unseen, rfl⟩ :=
                (markSpent_ok_iff reader tx.getInsCopy spent final).mp marked
              simp only [induction, List.mem_append, List.mem_reverse, not_or]
              constructor
              · rintro ⟨allValid, restOnce, restUnseen⟩
                refine ⟨allValid, ⟨restOnce, ?_⟩, ?_⟩
                · intro id member other otherMember same
                  subst same
                  exact (restUnseen _ otherMember).1 member
                · intro id member
                  rcases member with here | later
                  · exact (unseen id here).1
                  · exact (restUnseen id later).2
              · rintro ⟨allValid, ⟨restOnce, apart⟩, allUnseen⟩
                refine ⟨allValid, restOnce, ?_⟩
                intro id member
                refine ⟨?_, allUnseen id (.inr member)⟩
                intro here
                exact apart id here id member rfl

/-- A transaction list is accepted exactly when every transaction is valid
against the reader and no real input occurs twice in the list. -/
theorem validateTx_ok_iff (p : Primitives) (signer : EIP155Signer)
    (reader : UtxoReader) (txs : List Transaction) :
    validateTx p signer reader txs = .ok () ↔
      (∀ tx ∈ txs, ValidTx p signer reader tx) ∧
        (txs.flatMap Transaction.realInputs).Nodup := by
  simp [validateTx, validateTxFrom_ok_iff]

theorem validateBody_ok_iff (p : Primitives) (signer : EIP155Signer)
    (known : Bool) (reader : UtxoReader) (block : Block) :
    validateBody p signer known reader block = .ok () ↔
      known = false ∧ p.deriveSha block.transactions = block.header.txHash ∧
        validateTx p signer reader block.transactions = .ok () := by
  unfold validateBody
  cases known with
  | true => simp
  | false =>
      by_cases root : p.deriveSha block.transactions = block.header.txHash
      · simp [root]
      · simp [root]

end UtxoBlockValidator

end Plasma.Core
