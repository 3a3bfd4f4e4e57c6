import Plasma.Core.OperatorRun
import Plasma.Lib.Bytes

/-!
# Conservation of value over operator runs

Every committed child block takes its fees out of the recorded outputs and
every committed deposit adds its amount, so that after any run the outputs are
worth the written deposits minus the fees.
-/

namespace Plasma.Core

open Plasma.Lib Plasma.Store

def depositTotal : List Written → Int
  | [] => 0
  | .deposit _ _ amount :: history => amount + depositTotal history
  | .child _ _ :: history => depositTotal history

def feeTotal : List Written → Int
  | [] => 0
  | .deposit _ _ _ :: history => feeTotal history
  | .child _ block :: history =>
      (block.transactions.map Transaction.fee).sum + feeTotal history

theorem depositTotal_append (first second : List Written) :
    depositTotal (first ++ second) =
      depositTotal first + depositTotal second := by
  induction first with
  | nil => simp [depositTotal]
  | cons entry first induction =>
      cases entry <;> simp [depositTotal, induction, Int.add_assoc]

theorem feeTotal_append (first second : List Written) :
    feeTotal (first ++ second) = feeTotal first + feeTotal second := by
  induction first with
  | nil => simp [feeTotal]
  | cons entry first induction =>
      cases entry <;> simp [feeTotal, induction, Int.add_assoc]

section Step

variable {p : Primitives} {signer : EIP155Signer}
  {past : List OperatorStep} {o : Operator} {step : OperatorStep}

theorem value_of_verdict (state : RunState past o)
    (admissible : Admissible (past ++ [step]))
    (verdict : o.chain.verdict p signer (step.block p o) = .ok ()) :
    (UtxoSet.value (applyAll (step.block p o).changes o.chain.utxoSet) : Int) =
      o.chain.utxoSet.value + depositTotal [step.written p o] -
        feeTotal [step.written p o] := by
  have fresh := state.freshNumber admissible verdict
  have bounded := admissible.bounded step (by simp)
  cases step with
  | sealTxs time disk submits txs =>
      have accepted := validateTx_of_verdict
        (sealed_onDepositPath time txs state admissible) verdict
      have balance := value_after_validated fresh
        (by simpa [OperatorStep.block, OperatorStep.Bounded] using bounded)
        accepted
      simp only [OperatorStep.written, depositTotal, feeTotal] at balance ⊢
      omega
  | depositEvent time disk number depositor token amount =>
      obtain ⟨_, _, nonneg⟩ := bounded
      have balance := value_after_block fresh
        (by simp [OperatorStep.block]) (by simp [OperatorStep.block])
        (by simp [OperatorStep.block])
      simp only [OperatorStep.block, OperatorStep.written, depositTotal,
        feeTotal, Operator.constructDepositBlock_transactions,
        List.flatMap_cons, List.flatMap_nil, List.append_nil,
        Operator.depositTx_realInputs, List.map_nil, List.sum_nil,
        List.map_cons, List.sum_cons, Operator.depositTx_outs] at balance ⊢
      omega

end Step

/-- After any admissible run from the first start, the recorded outputs are
worth the written deposits minus the fees of the written child blocks. -/
theorem value_eq_deposits_sub_fees (p : Primitives) (signer : EIP155Signer)
    (addr : Address) {start : Operator}
    (started : startOperator p true addr Database.empty = .ok start)
    {steps : List OperatorStep} (admissible : Admissible steps) :
    ((execute (Operator.perform p signer) start steps).1.chain.utxoSet.value :
        Int) =
      depositTotal (execute (Operator.perform p signer) start steps).2 -
        feeTotal (execute (Operator.perform p signer) start steps).2 := by
  refine run_induction
    (fun _ utxos history =>
      (UtxoSet.value utxos : Int) = depositTotal history - feeTotal history)
    ?silent ?committed ?initially started admissible
  case silent =>
    intro past utxos history step balance
    exact balance
  case committed =>
    intro past o history step admissible state verdict balance
    have moved := value_of_verdict state admissible verdict
    rw [depositTotal_append, feeTotal_append]
    omega
  case initially => simp [UtxoSet.value, depositTotal, feeTotal]

/-- A deposit of five, a child block that spends it with a fee of one: four
remain. -/
theorem value_after_deposit_and_spend :
    Admissible [Sample.depositStep 1, Sample.spendStep true] ∧
      ((execute (Operator.perform Sample.primitives Sample.signer)
        Sample.operator
        [Sample.depositStep 1, Sample.spendStep true]).1.chain.utxoSet.value :
          Int) = 4 := by
  have admissible : Admissible [Sample.depositStep 1, Sample.spendStep true] :=
    ⟨by decide, by decide, by decide⟩
  refine ⟨admissible, ?_⟩
  rw [value_eq_deposits_sub_fees Sample.primitives Sample.signer
    Sample.operatorAddr Sample.started admissible]
  decide +kernel

/-- The numbers 1 and 2^64 + 1 are different but name the same outputs: two
deposits of five leave outputs worth five. -/
theorem value_after_colliding_deposits :
    startOperator Sample.primitives true Sample.operatorAddr Database.empty =
        .ok Sample.operator ∧
      (depositNumbers [Sample.depositStep 1,
        Sample.depositStep (2 ^ 64 + 1)]).Nodup ∧
      (∀ step ∈ [Sample.depositStep 1, Sample.depositStep (2 ^ 64 + 1)],
        step.Bounded) ∧
      ((execute (Operator.perform Sample.primitives Sample.signer)
        Sample.operator
        [Sample.depositStep 1,
          Sample.depositStep (2 ^ 64 + 1)]).1.chain.utxoSet.value : Int) ≠
        depositTotal (execute (Operator.perform Sample.primitives
            Sample.signer) Sample.operator
            [Sample.depositStep 1, Sample.depositStep (2 ^ 64 + 1)]).2 -
          feeTotal (execute (Operator.perform Sample.primitives
            Sample.signer) Sample.operator
            [Sample.depositStep 1, Sample.depositStep (2 ^ 64 + 1)]).2 := by
  refine ⟨Sample.started, by decide, by decide, ?_⟩
  have first := Sample.operator.perform_cases Sample.primitives Sample.signer
    (Sample.depositStep 1) ⟨rfl, rfl⟩
  obtain ⟨idle, _, ⟨_, silent⟩ | ⟨one, _, _⟩⟩ := first
  · exact absurd (congrArg List.length silent) (by decide +kernel)
  have second := (Sample.operator.perform Sample.primitives Sample.signer
    (Sample.depositStep 1)).1.perform_cases Sample.primitives Sample.signer
      (Sample.depositStep (2 ^ 64 + 1)) idle
  obtain ⟨_, _, ⟨_, silent⟩ | ⟨two, _, _⟩⟩ := second
  · exact absurd (congrArg List.length silent) (by decide +kernel)
  have history : depositTotal (execute (Operator.perform Sample.primitives
      Sample.signer) Sample.operator
      [Sample.depositStep 1, Sample.depositStep (2 ^ 64 + 1)]).2 -
        feeTotal (execute (Operator.perform Sample.primitives
          Sample.signer) Sample.operator
          [Sample.depositStep 1, Sample.depositStep (2 ^ 64 + 1)]).2 = 10 := by
    decide +kernel
  rw [history]
  have nothing : Sample.operator.chain.utxoSet.value = 0 := by
    have empty : Sample.operator.chain.utxoSet = fun _ => none :=
      funext (genesisOperator_utxoSet _ _)
    simp [empty, UtxoSet.value]
  have afterOne := total_applyAll_le_of_touched StoredOut.amount
    ((Sample.depositStep 1).block Sample.primitives Sample.operator).changes
    Sample.operator.chain.utxoSet List.nodup_nil (by simp)
  have afterTwo := total_applyAll_le_of_touched StoredOut.amount
    ((Sample.depositStep (2 ^ 64 + 1)).block Sample.primitives
      (Sample.operator.perform Sample.primitives Sample.signer
        (Sample.depositStep 1)).1).changes
    (Sample.operator.perform Sample.primitives Sample.signer
      (Sample.depositStep 1)).1.chain.utxoSet
    (List.nodup_singleton (⟨1, 0, 0⟩ : UTXOID))
    (List.forall_mem_singleton.mpr (by decide +kernel))
  have held : worthAt StoredOut.amount
      (Sample.operator.perform Sample.primitives Sample.signer
        (Sample.depositStep 1)).1.chain.utxoSet ⟨1, 0, 0⟩ = 5 := by
    decide +kernel
  have createdOne : putWorth StoredOut.amount ((Sample.depositStep 1).block
      Sample.primitives Sample.operator).changes = 5 := by
    decide +kernel
  have createdTwo : putWorth StoredOut.amount
      ((Sample.depositStep (2 ^ 64 + 1)).block Sample.primitives
        (Sample.operator.perform Sample.primitives Sample.signer
          (Sample.depositStep 1)).1).changes = 5 := by
    decide +kernel
  rw [← one] at afterOne
  rw [← two] at afterTwo
  simp only [List.map_nil, List.map_cons, List.sum_nil, List.sum_cons, held,
    createdOne, createdTwo] at afterOne afterTwo
  simp only [UtxoSet.value, execute_cons, execute_nil] at nothing ⊢
  omega

end Plasma.Core
