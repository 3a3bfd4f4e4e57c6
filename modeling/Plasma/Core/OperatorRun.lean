import Plasma.Core.BlockEffect
import Plasma.Core.Startup
import Plasma.Lib.Bytes
import Plasma.Lib.Trace

/-!
# Runs of the operator

A run is a serial sequence of `Seal` calls and deposit events.  The history of
a run lists what was written; a child block is recorded with the outputs that
were committed just before it.  `RunState` is what every reached state keeps:
no transaction is open, the counter is a multiple of the interval and the
numbers of recorded outputs were used by earlier blocks.
-/

namespace Plasma.Core

open Plasma.Lib Plasma.Store

inductive OperatorStep where
  | sealTxs (time : Int) (disk submits : Bool) (txs : List Transaction)
  | depositEvent (time : Int) (disk : Bool) (number : Int)
      (depositor token : Address) (amount : Int)
deriving DecidableEq, Repr

inductive Written where
  | deposit (number : Int) (depositor : Address) (amount : Int)
  | child (before : UtxoSet) (block : Block)

/-- What a call wrote, read off the blocks it committed. -/
def Operator.perform (p : Primitives) (signer : EIP155Signer) (o : Operator) :
    OperatorStep → Operator × List Written
  | .sealTxs time disk submits txs =>
      let (next, events, _) := o.sealTxs p signer time disk submits txs
      (next, (committedBlocks events).map (.child o.chain.utxoSet))
  | .depositEvent time disk number depositor token amount =>
      let (next, events, _) :=
        o.handleDepositEvent p signer time disk number depositor token amount
      (next, (committedBlocks events).map fun _ =>
        .deposit number depositor amount)

namespace OperatorStep

/-- The block a call hands to `WriteBlock`. -/
def block (p : Primitives) (o : Operator) : OperatorStep → Block
  | .sealTxs time _ _ txs => (o.constructBlock p time txs).2
  | .depositEvent time _ number depositor _ amount =>
      o.constructDepositBlock p time number
        (Operator.depositTx depositor amount)

/-- What a call records when it commits. -/
def written (p : Primitives) (o : Operator) : OperatorStep → Written
  | .sealTxs time disk submits txs =>
      .child o.chain.utxoSet
        ((OperatorStep.sealTxs time disk submits txs).block p o)
  | .depositEvent _ _ number depositor _ amount =>
      .deposit number depositor amount

/-- How far a call moves the counter. -/
def advance : OperatorStep → UInt64
  | .sealTxs .. => childBlockInterval
  | .depositEvent .. => 0

def depositNumber? : OperatorStep → Option Int
  | .sealTxs .. => none
  | .depositEvent _ _ number _ _ _ => some number

end OperatorStep

/-- The numbers of the deposit events among the calls. -/
def depositNumbers (steps : List OperatorStep) : List Int :=
  steps.filterMap OperatorStep.depositNumber?

namespace Operator

variable (p : Primitives) (signer : EIP155Signer)

/-- What one call can do: it commits nothing, or it commits its block. -/
theorem perform_cases (o : Operator) (step : OperatorStep)
    (idle : o.chain.db.Idle) :
    (o.perform p signer step).1.chain.db.Idle ∧
      (o.perform p signer step).1.currentChildBlock =
        o.currentChildBlock + step.advance ∧
      (((o.perform p signer step).1.chain.utxoSet = o.chain.utxoSet ∧
          (o.perform p signer step).2 = []) ∨
        ((o.perform p signer step).1.chain.utxoSet =
            applyAll (step.block p o).changes o.chain.utxoSet ∧
          (o.perform p signer step).2 = [step.written p o] ∧
          o.chain.verdict p signer (step.block p o) = .ok ())) := by
  cases step with
  | sealTxs time disk submits txs =>
      rcases BlockChain.writeWith_cases p
          (buffersDeletions_removeInputs disk) signer disk o.chain
          (o.constructBlock p time txs).2 idle with
        ⟨same, silent, ⟨failure, failed⟩, _⟩ | ⟨db, outcome, verdict, _⟩
      · simp only [perform, sealTxs_of_error p signer o time disk submits txs
          failed]
        refine ⟨?_, rfl, .inl ⟨?_, ?_⟩⟩
        · exact same ▸ idle
        · exact congrArg (fun d : Database => Rawdb.utxos d.db) same
        · exact congrArg (List.map _) silent
      · have events := congrArg Prod.fst outcome
        simp only [perform, sealTxs_of_ok p signer o time disk submits txs
          (congrArg Prod.snd outcome)]
        refine ⟨?_, rfl, .inr ⟨?_, ?_, verdict⟩⟩
        · exact db ▸ ⟨rfl, rfl⟩
        · rw [← BlockChain.utxos_writeBatch p]
          exact congrArg (fun d : Database => Rawdb.utxos d.db) db
        · simp only [sealWrite, events]
          cases submits <;> rfl
  | depositEvent time disk number depositor token amount =>
      rcases BlockChain.writeWith_cases p
          (buffersDeletions_removeInputs disk) signer disk o.chain
          (o.constructDepositBlock p time number
            (depositTx depositor amount)) idle with
        ⟨same, silent, ⟨failure, failed⟩, _⟩ | ⟨db, outcome, verdict, _⟩
      · refine ⟨?_, (UInt64.add_zero _).symm, .inl ⟨?_, ?_⟩⟩
        · exact same ▸ idle
        · exact congrArg (fun d : Database => Rawdb.utxos d.db) same
        · exact congrArg (List.map _) silent
      · refine ⟨?_, (UInt64.add_zero _).symm, .inr ⟨?_, ?_, verdict⟩⟩
        · exact db ▸ ⟨rfl, rfl⟩
        · rw [← BlockChain.utxos_writeBatch p]
          exact congrArg (fun d : Database => Rawdb.utxos d.db) db
        · exact congrArg
            (fun out : List NodeEvent × Except WriteError Unit =>
              (committedBlocks out.1).map fun _ =>
                Written.deposit number depositor amount) outcome

end Operator

/-- The bounds on one call: fewer than 2^32 transactions, and a deposit with a
positive number that is no multiple of the interval and no negative amount. -/
def OperatorStep.Bounded : OperatorStep → Prop
  | .sealTxs _ _ _ txs => txs.length < 2 ^ 32
  | .depositEvent _ _ number _ _ amount =>
      1 ≤ number ∧ ¬ (1000 ∣ number) ∧ 0 ≤ amount

instance : DecidablePred OperatorStep.Bounded
  | .sealTxs _ _ _ txs => inferInstanceAs (Decidable (txs.length < 2 ^ 32))
  | .depositEvent _ _ number _ _ amount =>
      inferInstanceAs
        (Decidable (1 ≤ number ∧ ¬ (1000 ∣ number) ∧ 0 ≤ amount))

/-- The runs considered: the deposit numbers are different as 64-bit
numbers. -/
structure Admissible (steps : List OperatorStep) : Prop where
  short : steps.length < 2 ^ 50
  bounded : ∀ step ∈ steps, step.Bounded
  distinct : ((depositNumbers steps).map uint64).Nodup

def isSeal : OperatorStep → Bool
  | .sealTxs .. => true
  | .depositEvent .. => false

/-- A number under which an earlier call may have written a block. -/
def UsedNumber (past : List OperatorStep) (number : UInt64) : Prop :=
  (∃ k, 1 ≤ k ∧ k ≤ past.countP isSeal ∧ number.toNat = 1000 * k) ∨
    ∃ deposit ∈ depositNumbers past, 0 ≤ deposit ∧
      uint64 deposit = number ∧ (int64 deposit).tmod 1000 ≠ 0

structure RunState (past : List OperatorStep) (o : Operator) : Prop where
  idle : o.chain.db.Idle
  counter : o.currentChildBlock.toNat = 1000 * past.countP isSeal
  used : ∀ id, o.chain.utxoSet id ≠ none → UsedNumber past id.blockNum

theorem Admissible.of_append {past : List OperatorStep} {step : OperatorStep}
    (admissible : Admissible (past ++ [step])) : Admissible past := by
  obtain ⟨short, bounded, distinct⟩ := admissible
  refine ⟨?_, ?_, ?_⟩
  · simp only [List.length_append] at short
    omega
  · intro other member
    exact bounded other (by simp [member])
  · rw [depositNumbers, List.filterMap_append, List.map_append] at distinct
    exact distinct.of_append_left

theorem UsedNumber.append {past : List OperatorStep} {number : UInt64}
    (used : UsedNumber past number) (step : OperatorStep) :
    UsedNumber (past ++ [step]) number := by
  rcases used with ⟨k, positive, bound, equal⟩ | ⟨deposit, member, rest⟩
  · left
    refine ⟨k, positive, ?_, equal⟩
    rw [List.countP_append]
    omega
  · right
    refine ⟨deposit, ?_, rest⟩
    rw [depositNumbers, List.filterMap_append]
    exact List.mem_append_left _ member

private theorem tmod_of_uint64_eq {d : Int} {number : UInt64} {k : Nat}
    (nonneg : 0 ≤ d) (same : uint64 d = number)
    (multiple : number.toNat = 1000 * k) (bound : k ≤ 2 ^ 50) :
    (int64 d).tmod 1000 = 0 := by
  have low : uint64 d = uint64 ((1000 * k : Nat) : Int) := by
    rw [same, ← multiple]
    simp [uint64]
  rw [int64_eq_of_uint64_eq nonneg (by omega) low,
    int64_of_small (by omega) (by omega)]
  rw [Int.natCast_mul]
  exact Int.mul_tmod_right 1000 (k : Int)

theorem UsedNumber.ne_zero {past : List OperatorStep} {number : UInt64}
    (used : UsedNumber past number) : number ≠ 0 := by
  intro zero
  rcases used with ⟨k, positive, _, equal⟩ | ⟨deposit, _, nonneg, same, odd⟩
  · rw [zero] at equal
    simp at equal
    omega
  · refine odd (tmod_of_uint64_eq nonneg same ?_ (Nat.zero_le _))
    rw [zero]
    rfl

section Fresh

variable {p : Primitives} {signer : EIP155Signer}
  {past : List OperatorStep} {o : Operator} {step : OperatorStep}

/-- A deposit block is only written on the path without validation: its
transaction has no real input. -/
theorem onDepositPath_of_verdict {time : Int} {number : Int}
    {depositor : Address} {amount : Int}
    (verdict : o.chain.verdict p signer
      (o.constructDepositBlock p time number
        (Operator.depositTx depositor amount)) = .ok ()) :
    (int64 number).tmod 1000 ≠ 0 := by
  intro validated
  have path : (o.constructDepositBlock p time number
      (Operator.depositTx depositor amount)).onDepositPath = false := by
    simp [Block.onDepositPath, Operator.constructDepositBlock, validated]
  obtain ⟨valid, _⟩ := (UtxoBlockValidator.validateTx_ok_iff _ _ _ _).mp
    (validateTx_of_verdict path verdict)
  exact (valid (Operator.depositTx depositor amount)
    (by simp)).realInputs_ne_nil rfl

private theorem countP_le {past : List OperatorStep}
    {step : OperatorStep} (admissible : Admissible (past ++ [step])) :
    past.countP isSeal + 1 ≤ 2 ^ 50 := by
  have short := admissible.short
  have bound := List.countP_le_length (p := isSeal) (l := past)
  simp only [List.length_append, List.length_singleton] at short
  omega

private theorem sealed_number (time : Int) (txs : List Transaction)
    (state : RunState past o)
    (admissible : Admissible (past ++ [step])) :
    (o.constructBlock p time txs).2.numberU64.toNat =
      1000 * (past.countP isSeal + 1) := by
  have bound := countP_le admissible
  have counter := state.counter
  have sum : (o.currentChildBlock + childBlockInterval).toNat =
      1000 * (past.countP isSeal + 1) := by
    rw [UInt64.toNat_add, counter]
    have interval : childBlockInterval.toNat = 1000 := rfl
    omega
  simp only [Operator.constructBlock, Block.numberU64,
    Block.newBlock_header, uint64_toNat, sum]
  omega

/-- A sealed block takes the validated path. -/
theorem sealed_onDepositPath (time : Int) (txs : List Transaction)
    (state : RunState past o)
    (admissible : Admissible (past ++ [step])) :
    (o.constructBlock p time txs).2.onDepositPath = false := by
  have zero := tmod_of_uint64_eq
    (d := (o.constructBlock p time txs).2.header.number)
    (by
      simp only [Operator.constructBlock, Block.newBlock_header]
      omega) rfl
    (sealed_number time txs state admissible) (countP_le admissible)
  simp [Block.onDepositPath, zero]

/-- A call that commits makes the number of its block a used one. -/
theorem used_of_verdict (state : RunState past o)
    (admissible : Admissible (past ++ [step]))
    (verdict : o.chain.verdict p signer (step.block p o) = .ok ()) :
    UsedNumber (past ++ [step]) (step.block p o).numberU64 := by
  cases step with
  | sealTxs time disk submits txs =>
      refine .inl ⟨past.countP isSeal + 1, by omega, ?_,
        sealed_number time txs state admissible⟩
      simp [List.countP_append, isSeal]
  | depositEvent time disk number depositor token amount =>
      obtain ⟨positive, _, _⟩ := admissible.bounded
        (.depositEvent time disk number depositor token amount) (by simp)
      refine .inr ⟨number, ?_, by omega, rfl,
        onDepositPath_of_verdict verdict⟩
      simp [depositNumbers, OperatorStep.depositNumber?]

/-- The number of a block that is written was not used before. -/
theorem unused_of_verdict (state : RunState past o)
    (admissible : Admissible (past ++ [step]))
    (verdict : o.chain.verdict p signer (step.block p o) = .ok ()) :
    ¬ UsedNumber past (step.block p o).numberU64 := by
  have bound := countP_le admissible
  intro used
  cases step with
  | sealTxs time disk submits txs =>
      have number := sealed_number time txs state admissible (p := p)
      rcases used with
        ⟨k, _, earlier, equal⟩ | ⟨deposit, _, nonneg, equal, odd⟩
      · simp only [OperatorStep.block, number] at equal
        omega
      · exact odd (tmod_of_uint64_eq nonneg equal number bound)
  | depositEvent time disk number depositor token amount =>
      have odd := onDepositPath_of_verdict verdict
      obtain ⟨positive, _, _⟩ := admissible.bounded
        (.depositEvent time disk number depositor token amount) (by simp)
      have numberU64 : ((OperatorStep.depositEvent time disk number depositor
          token amount).block p o).numberU64 = uint64 number := rfl
      rw [numberU64] at used
      rcases used with
        ⟨k, _, earlier, equal⟩ | ⟨deposit, member, nonneg, equal, _⟩
      · exact odd (tmod_of_uint64_eq (by omega) rfl equal (by omega))
      · have distinct := admissible.distinct
        rw [depositNumbers, List.filterMap_append, List.map_append] at distinct
        refine List.disjoint_of_nodup_append distinct
          (List.mem_map_of_mem member) ?_
        rw [equal]
        simp [OperatorStep.depositNumber?]

theorem RunState.freshNumber (state : RunState past o)
    (admissible : Admissible (past ++ [step]))
    (verdict : o.chain.verdict p signer (step.block p o) = .ok ()) :
    FreshNumber (step.block p o).numberU64 o.chain.utxoSet := by
  refine ⟨(used_of_verdict state admissible verdict).ne_zero, ?_, ?_⟩
  · intro id same
    by_contra held
    exact unused_of_verdict state admissible verdict
      (same ▸ state.used id held)
  · intro id zero
    by_contra held
    exact (state.used id held).ne_zero zero

theorem RunState.perform (state : RunState past o)
    (admissible : Admissible (past ++ [step])) :
    RunState (past ++ [step]) (o.perform p signer step).1 := by
  have bound := countP_le admissible
  obtain ⟨idle, counter, outcome⟩ := o.perform_cases p signer step state.idle
  refine ⟨idle, ?_, ?_⟩
  · rw [counter, UInt64.toNat_add, state.counter, List.countP_append]
    cases step with
    | sealTxs time disk submits txs =>
        have advanced : (OperatorStep.sealTxs time disk submits
            txs).advance.toNat = 1000 := rfl
        simp only [advanced, List.countP_singleton, isSeal, if_true]
        omega
    | depositEvent time disk number depositor token amount =>
        have advanced : (OperatorStep.depositEvent time disk number depositor
            token amount).advance.toNat = 0 := rfl
        simp only [advanced, List.countP_singleton, isSeal,
          Bool.false_eq_true, if_false]
        omega
  · intro id held
    rcases outcome with ⟨same, _⟩ | ⟨changed, _, verdict⟩
    · rw [same] at held
      exact (state.used id held).append step
    · rw [changed] at held
      obtain ⟨out, present⟩ := Option.ne_none_iff_exists'.mp held
      rcases mem_of_applyAll _ _ present with before | created
      · exact (state.used id (by simp [before])).append step
      · rw [Block.changes, putKeys_txsChanges] at created
        rw [blockNum_of_mem_outputIds created]
        exact used_of_verdict state admissible verdict

end Fresh

/-- The state after the first start begins every run. -/
theorem runState_genesis (p : Primitives) (addr : Address) :
    RunState [] (genesisOperator p addr) := by
  refine ⟨⟨rfl, rfl⟩, rfl, ?_⟩
  intro id held
  exact (held (genesisOperator_utxoSet p addr id)).elim

/-- Induction over admissible runs from the first start: a property of the
calls made, the recorded outputs and the history holds at the end when calls
that commit nothing and calls that commit their block keep it. -/
theorem run_induction {p : Primitives} {signer : EIP155Signer}
    (Inv : List OperatorStep → UtxoSet → List Written → Prop)
    (silent : ∀ past utxos history step, Inv past utxos history →
      Inv (past ++ [step]) utxos history)
    (committed : ∀ past o history step, Admissible (past ++ [step]) →
      RunState past o →
        o.chain.verdict p signer (step.block p o) = .ok () →
          Inv past o.chain.utxoSet history →
            Inv (past ++ [step])
              (applyAll (step.block p o).changes o.chain.utxoSet)
              (history ++ [step.written p o]))
    (initially : Inv [] (fun _ => none) [])
    {addr : Address} {start : Operator}
    (started : startOperator p true addr Database.empty = .ok start)
    {steps : List OperatorStep} (admissible : Admissible steps) :
    Inv steps (execute (Operator.perform p signer) start steps).1.chain.utxoSet
      (execute (Operator.perform p signer) start steps).2 := by
  have genesis := eq_genesisOperator p addr started
  have first : Admissible [] → RunState [] start ∧
      Inv [] start.chain.utxoSet [] := by
    intro _
    subst genesis
    refine ⟨runState_genesis p addr, ?_⟩
    have empty : (genesisOperator p addr).chain.utxoSet = fun _ => none :=
      funext (genesisOperator_utxoSet p addr)
    rw [empty]
    exact initially
  have run := execute_invariant (Operator.perform p signer)
    (fun past o history => Admissible past → RunState past o ∧
      Inv past o.chain.utxoSet history)
    (by
      intro past o history step invariant admissible
      obtain ⟨state, holds⟩ := invariant admissible.of_append
      refine ⟨state.perform admissible, ?_⟩
      obtain ⟨_, _, outcome⟩ := o.perform_cases p signer step state.idle
      rcases outcome with ⟨same, nothing⟩ | ⟨changed, entry, verdict⟩
      · rw [same, nothing, List.append_nil]
        exact silent past _ history step holds
      · rw [changed, entry]
        exact committed past o history step admissible state verdict holds)
    first steps
  exact (run admissible).2

/-!
## A sample network

One depositor, one recipient and the operator's address from the keystore.
The tables hold the Keccak digests, trie roots, RLP sizes and the signature of
the headers and transactions used in concrete runs.
-/

namespace Sample

def operatorAddr : Address := 0x85d6e595a3e64d3353b888bc49ee27f1b9f2a656

def alice : Address := 0x71562b71999873db5b286df957af199ec94617f7

def bob : Address := 0x703c4b2bd70c169f5717101caee543299fc946c7

def now : Int := 1528684688

def emptyRoot : Hash :=
  0x56e81f171bcc55a6ff8345e692c0f86e5b48e01b996cadc001622fb5e363b421

def depositRoot : Hash :=
  0xef54886c7103bf5f9e0bbb6892368639f323129b1670f9e03d819962f563f9a1

def spendRoot : Hash :=
  0xfed0db885ece805ac9f532ce95d88e9504f698613c72936105e323e6e0cbdcba

def genesisHash : Hash :=
  0x0c5ca1a3f443921960920ff44038b8b68a761d2ec67748c2f7908b0bf6ada948

def depositHash : Hash :=
  0xc8f6f7303edbba5d5bc89b938ccfef5932cb9fdcfc5851e61019cbcb0dd60889

def spendHash : Hash :=
  0x4b27500989c8ec0c29bf519e2abace983ddc1f51bb6dffe6f46fd49854065e74

def aliceSig : Sig :=
  { v := some 38
    r := some
      0xe5990d6b95cbaf813f0536f3d8a95b135313385538508a9bd93f2a1cc5108ac6
    s := some
      0x15c699eccdfc4e242aef8e9f50ee09f669b12eb12e5fc8d4278fdd246799f628 }

/-- The deposit of five by the depositor. -/
def deposit : Transaction := Operator.depositTx alice 5

/-- The depositor pays three of the five to the recipient and one as a fee. -/
def spend : Transaction :=
  { ins := (⟨⟨1, 0, 0⟩, ⟨alice, 5⟩⟩, Operator.nullInput)
    outs := (⟨bob, 3⟩, ⟨alice, 1⟩)
    fee := 1
    sigs := (aliceSig, aliceSig) }

def header (parentHash txHash : Hash) (number : Int) : Header :=
  { parentHash := parentHash
    coinbase := operatorAddr
    txHash := txHash
    number := number
    time := now
    extra := [] }

def genesisHeader : Header :=
  { parentHash := 0
    coinbase := 0
    txHash := emptyRoot
    number := 0
    time := 0
    extra := Genesis.defaultGenesisBlock.extraData }

def headerHashes : List (Header × Hash) :=
  [(genesisHeader, genesisHash),
    (header genesisHash depositRoot 1, depositHash),
    (header depositHash depositRoot 1,
      0x1c9849e93712ba913dc4cf1e7e10f64aeba392b43ea19ed1113e6a63da8f0f0a),
    (header 0 spendRoot 1000, spendHash),
    (header depositHash depositRoot (2 ^ 64 + 1),
      0x5bbf6be7728b62271f46591e25ed076351adfb9290ad2c826bf3fb4fa66ecf98),
    (header spendHash depositRoot (2 ^ 64 + 1),
      0xc91c0fb9b54c4a6dbdd70b3f79cd2853bae077608c65c599dd01d75a3334696c),
    (header 0 spendRoot 2000,
      0x1ee90e4e7db59f71f3579a1c562c64e39825f8323d3776300043565128462985),
    (header 0 emptyRoot 1000,
      0x30ccfd45fc3c3879d03f8d8411c86f3b5ed357edc343c5a51d5dfaa3b3fa3336)]

def pubkey : List UInt8 :=
  4 :: bigEndian 64
    0xca634cae0d49acb401d8a4c6b6fe8c55b70d115bf400769cc1400f3258cd31387574077f301b421bc84df7266c44e9e6d569fc56be00812904767bf5ccd1fc7f

def lookup {α β : Type} [DecidableEq α] (table : List (α × β)) (default : β)
    (key : α) : β :=
  ((table.find? fun entry => entry.1 = key).map Prod.snd).getD default

def primitives : Primitives :=
  { headerHash := lookup headerHashes 0
    txHash := lookup
      [(deposit,
          0xb0deec1c65ff5ec981c4b6d851aa07161ed1d5910c7227d7286b96a409adcd9f),
        (spend,
          0x88233a830982342c31ac3e29f56e9fc2560443eef020fae272859d6cafc0e34a)]
      0
    txSize := lookup [(deposit, 117), (spend, 248)] 0
    deriveSha := lookup
      [([], emptyRoot), ([deposit], depositRoot), ([spend], spendRoot)] 0
    validateSignatureValues := fun v r s =>
      decide (v = 1 ∧ some r = aliceSig.r ∧ some s = aliceSig.s)
    ecrecover := fun hash r s v =>
      if hash =
          0x1f6a5b9b24e41ea1b1caaaceaee7fb0aaed6fe483ad092392c4813f49d170d4b ∧
        some r = aliceSig.r ∧ some s = aliceSig.s ∧ v = 1 then
        some pubkey
      else none
    keccak256 := lookup
      [(pubkey.drop 1,
          0xa448f24c6d18e575453db13171562b71999873db5b286df957af199ec94617f7),
        ((spend.encodeUnsigned 1).getD [],
          0x1f6a5b9b24e41ea1b1caaaceaee7fb0aaed6fe483ad092392c4813f49d170d4b)]
      0 }

def signer : EIP155Signer := EIP155Signer.newEIP155Signer 1

/-- The operator after the first start. -/
def operator : Operator := genesisOperator primitives operatorAddr

theorem started :
    startOperator primitives true operatorAddr Database.empty =
      .ok operator :=
  startOperator_empty primitives operatorAddr (by decide)

/-- The block written for the first deposit. -/
def depositBlock : Block := ⟨header genesisHash depositRoot 1, [deposit]⟩

/-- The child block that spends the deposit. -/
def spendBlock : Block := ⟨header 0 spendRoot 1000, [spend]⟩

def depositStep (number : Int) : OperatorStep :=
  .depositEvent now true number alice 0 5

def spendStep (submits : Bool) : OperatorStep :=
  .sealTxs now true submits [spend]

end Sample

end Plasma.Core
