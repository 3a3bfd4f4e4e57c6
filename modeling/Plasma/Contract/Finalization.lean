import Plasma.Contract.Run

/-!
# Blocking exits

`finalizeExits` pays all matured exits in one call, and a transfer that fails
reverts the call.  So it completes exactly when the contract can pay all of
them and every payee accepts.
-/

namespace Plasma.Contract

open Plasma.Core Plasma.Lib PriorityQueue

namespace PriorityQueue

theorem splitElement_fst_le {first second : Word} (less : first ≤ second) :
    (splitElement first).1 ≤ (splitElement second).1 := by
  rw [BitVec.le_def] at less ⊢
  simp only [splitElement, BitVec.toNat_ushiftRight, Nat.shiftRight_eq_div_pow]
  exact Nat.div_le_div_right less

theorem exists_getMin {q : PriorityQueue} (wellFormed : q.WellFormed)
    (nonempty : 0 < q.currentSize) : ∃ front, q.getMin = some front := by
  rw [getMin, wellFormed.length_eq, if_pos (Nat.lt_add_of_pos_left nonempty)]
  exact ⟨_, rfl⟩

end PriorityQueue

namespace RootChain

variable {c : Crypto} {s : RootChain} {now : Word} {accepts : Address → Bool}

/-- Every run keeps the heap in order. -/
theorem wellFormed_run (c : Crypto) (deployer : Address)
    (messages : List Message) :
    (execute (step c) (new deployer) messages).1.queue.WellFormed := by
  refine run_induction (fun _ s => s.queue.WellFormed) ?_ ?_ wellFormed_new
    (stepsMeet_of_forall (fun _ _ _ => trivial) _ : StepsMeet (step c)
      (fun _ _ => True) _ messages)
  · intro past s m inputs effect next wellFormed _ act
    cases act with
    | exitStarted source positive fresh =>
        exact (insert_spec wellFormed _ _).1
    | _ => exact wellFormed
  · intro past s m effect next wellFormed taken
    cases taken with
    | round front mature funded deleted =>
        obtain ⟨_, _, _, _, nonempty, _⟩ := getMin_spec wellFormed front
        obtain ⟨rest, popped, kept, _⟩ := delMin_spec wellFormed nonempty
        rw [popped] at deleted
        cases deleted
        exact kept

/-- The exit that an element of the queue stands for. -/
def exitOf (s : RootChain) (packed : Word) : Exit :=
  s.exits (splitElement packed).2

/-- The elements of the exits that finalisation reaches. -/
def matured (s : RootChain) (now : Word) : Multiset Word :=
  s.queue.elements.filter fun packed => (splitElement packed).1 < now

/-- The payee of every matured exit accepts, and the contract holds the sum of
their amounts. -/
def Payable (s : RootChain) (now : Word) (accepts : Address → Bool) : Prop :=
  (∀ packed ∈ s.matured now,
    (s.exitOf packed).owner = 0 ∨ accepts (s.exitOf packed).owner = true) ∧
    ((s.matured now).map fun packed =>
      (s.exitOf packed).amount.toNat).sum ≤ s.balance

/-- The call pays the exit of an element. -/
def Pays (s : RootChain) (now : Word) (effects : List Effect)
    (packed : Word) : Prop :=
  .removed (splitElement packed).2 (s.exitOf packed).owner
    (s.exitOf packed).amount now ∈ effects

/-- The storage after one round, when `least` is the front of the queue and
`rest` what is left of it. -/
def payFront (s : RootChain) (least : Word) (rest : PriorityQueue) : RootChain :=
  { s with
    balance := s.balance - (s.exitOf least).amount.toNat
    queue := rest
    exits := Function.update s.exits (splitElement least).2
      { s.exitOf least with owner := 0 } }

theorem amount_payFront (least : Word) (rest : PriorityQueue) (packed : Word) :
    ((s.payFront least rest).exitOf packed).amount =
      (s.exitOf packed).amount := by
  by_cases same : (splitElement packed).2 = (splitElement least).2
  · simp [payFront, exitOf, same]
  · simp [payFront, exitOf, Function.update_of_ne same]

theorem owner_payFront (least : Word) (rest : PriorityQueue) (packed : Word) :
    ((s.payFront least rest).exitOf packed).owner =
      if (splitElement packed).2 = (splitElement least).2 then 0
      else (s.exitOf packed).owner := by
  split
  · next same => simp [payFront, exitOf, same]
  · next different => simp [payFront, exitOf, Function.update_of_ne different]

/-- A front that is not mature has nothing mature behind it. -/
theorem matured_eq_zero {least : Word}
    (minimal : ∀ other ∈ s.queue.elements, least ≤ other)
    (waits : ¬ (splitElement least).1 < now) : s.matured now = 0 := by
  refine Multiset.filter_eq_nil.mpr ?_
  intro packed member mature
  have later := splitElement_fst_le (minimal packed member)
  exact waits (lt_of_le_of_lt later mature)

theorem payable_of_matured_eq_zero (empty : s.matured now = 0) :
    s.Payable now accepts := by
  rw [Payable, empty]
  refine ⟨?_, Nat.zero_le _⟩
  intro packed member
  exact (Multiset.notMem_zero packed member).elim

/-- Paying a mature front and the others. -/
theorem payable_iff {least : Word} {rest : PriorityQueue}
    (split : s.matured now = least ::ₘ (s.payFront least rest).matured now) :
    s.Payable now accepts ↔
      ((s.exitOf least).amount.toNat ≤ s.balance ∧
        ((s.exitOf least).owner = 0 ∨
          accepts (s.exitOf least).owner = true)) ∧
      (s.payFront least rest).Payable now accepts := by
  have others : ((s.payFront least rest).matured now).map
      (fun packed => (s.exitOf packed).amount.toNat) =
      ((s.payFront least rest).matured now).map fun packed =>
        ((s.payFront least rest).exitOf packed).amount.toNat := by
    refine Multiset.map_congr rfl ?_
    intro packed _
    rw [amount_payFront]
  have balance : (s.payFront least rest).balance =
      s.balance - (s.exitOf least).amount.toNat := rfl
  rw [Payable, Payable, split, Multiset.map_cons, Multiset.sum_cons, others,
    balance]
  simp only [Multiset.mem_cons, forall_eq_or_imp]
  constructor
  · rintro ⟨⟨first, rest⟩, sum⟩
    refine ⟨⟨by omega, first⟩, ?_, by omega⟩
    intro packed member
    rw [owner_payFront]
    split
    · exact .inl rfl
    · exact rest packed member
  · rintro ⟨⟨funded, first⟩, rest, sum⟩
    refine ⟨⟨first, ?_⟩, by omega⟩
    intro packed member
    have owner := rest packed member
    rw [owner_payFront] at owner
    split at owner
    · next same =>
        rw [exitOf, same]
        exact first
    · exact owner

theorem pays_of_payFront {least packed : Word} {rest : PriorityQueue}
    {effects : List Effect}
    (later : (s.payFront least rest).Pays now effects packed) :
    s.Pays now (.removed (splitElement least).2 (s.exitOf least).owner
      (s.exitOf least).amount now :: effects) packed := by
  by_cases same : (splitElement packed).2 = (splitElement least).2
  · have exit : s.exitOf packed = s.exitOf least := by
      rw [exitOf, exitOf, same]
    rw [Pays, exit, same]
    exact List.mem_cons_self
  · have owner := owner_payFront (s := s) least rest packed
    rw [if_neg same] at owner
    rw [Pays, amount_payFront, owner] at later
    exact List.mem_cons_of_mem _ later

/-- One round at a mature front. -/
theorem finalizeRound_spec (wellFormed : s.queue.WellFormed)
    {front : Word × Word} (read : s.queue.getMin = some front)
    (mature : front.1 < now) :
    ∃ least rest, front = splitElement least ∧
      (s.payFront least rest).queue.WellFormed ∧
      (s.payFront least rest).queue.currentSize + 1 = s.queue.currentSize ∧
      s.matured now = least ::ₘ (s.payFront least rest).matured now ∧
      finalizeRound s now front.2 accepts =
        if (s.exitOf least).amount.toNat ≤ s.balance ∧
            ((s.exitOf least).owner = 0 ∨
              accepts (s.exitOf least).owner = true) then
          some (s.payFront least rest, .removed (splitElement least).2
            (s.exitOf least).owner (s.exitOf least).amount now)
        else none := by
  obtain ⟨_, _, _, shown, nonempty, rfl⟩ := getMin_spec wellFormed read
  obtain ⟨rest, popped, kept, size, split⟩ := delMin_spec wellFormed nonempty
  refine ⟨s.queue.heapList 1, rest, shown, kept, size, ?_, ?_⟩
  · rw [shown] at mature
    exact (congrArg _ split).trans (Multiset.filter_cons_of_pos _ mature)
  · have current : s.exits (splitElement (s.queue.heapList 1)).2 =
        s.exitOf (s.queue.heapList 1) := rfl
    rw [shown]
    simp only [finalizeRound, require, popped, current]
    by_cases funded : (s.exitOf (s.queue.heapList 1)).amount.toNat ≤ s.balance
    · by_cases accepted : (s.exitOf (s.queue.heapList 1)).owner = 0 ∨
          accepts (s.exitOf (s.queue.heapList 1)).owner = true
      · rw [if_pos funded, if_pos accepted, if_pos ⟨funded, accepted⟩]
        rfl
      · rw [if_pos funded, if_neg accepted, if_neg fun both => accepted both.2]
        rfl
    · have unpaid : ¬ ((s.exitOf (s.queue.heapList 1)).amount.toNat ≤
          s.balance ∧ ((s.exitOf (s.queue.heapList 1)).owner = 0 ∨
            accepts (s.exitOf (s.queue.heapList 1)).owner = true)) :=
        fun both => funded both.1
      rw [if_neg funded, if_neg unpaid]
      rfl

/-- The loop pays everything that is mature, or fails. -/
theorem finalizeLoop_spec (rounds : Nat) (wellFormed : s.queue.WellFormed)
    (enough : s.queue.currentSize ≤ rounds) {front : Word × Word}
    (read : s.queue.getMin = some front) :
    (s.Payable now accepts →
      ∃ result, finalizeLoop now accepts rounds s front = some result ∧
        ∀ packed ∈ s.matured now, s.Pays now result.2 packed) ∧
    (finalizeLoop now accepts rounds s front ≠ none →
      s.Payable now accepts) := by
  induction rounds generalizing s front with
  | zero =>
      obtain ⟨_, _, _, _, nonempty, _⟩ := getMin_spec wellFormed read
      omega
  | succ rounds induction =>
      rw [finalizeLoop]
      by_cases mature : front.1 < now
      · obtain ⟨least, rest, shown, kept, size, split, round⟩ :=
          finalizeRound_spec wellFormed read mature
        rw [payable_iff split, if_pos mature, round]
        by_cases payable : (s.exitOf least).amount.toNat ≤ s.balance ∧
            ((s.exitOf least).owner = 0 ∨
              accepts (s.exitOf least).owner = true)
        · rw [if_pos payable]
          simp only [payable, true_and, split, Multiset.mem_cons,
            forall_eq_or_imp, Option.bind_eq_bind, Option.bind_some]
          by_cases more : 0 < (s.payFront least rest).queue.currentSize
          · obtain ⟨next, readNext⟩ := exists_getMin kept more
            obtain ⟨pays, succeeds⟩ := induction kept (by omega) readNext
            simp only [if_pos more, readNext, Option.bind_some]
            constructor
            · intro others
              obtain ⟨result, looped, paid⟩ := pays others
              rw [looped]
              refine ⟨_, rfl, List.mem_cons_self, ?_⟩
              intro packed member
              exact pays_of_payFront (paid packed member)
            · intro success
              refine succeeds ?_
              intro failed
              rw [failed] at success
              exact success rfl
          · have empty : (s.payFront least rest).matured now = 0 := by
              have size : (s.payFront least rest).queue.currentSize = 0 := by omega
              rw [matured, elements, size]
              rfl
            rw [if_neg more, empty]
            exact ⟨fun _ => ⟨_, rfl, List.mem_cons_self,
              fun packed member => (Multiset.notMem_zero packed member).elim⟩,
              fun _ => payable_of_matured_eq_zero empty⟩
        · rw [if_neg payable]
          exact ⟨fun both => (payable both.1).elim,
            fun success => (success rfl).elim⟩
      · rw [if_neg mature]
        obtain ⟨least, _, minimal, shown, _⟩ := getMin_spec wellFormed read
        rw [shown] at mature
        have empty : s.matured now = 0 := matured_eq_zero minimal mature
        refine ⟨fun _ => ⟨_, rfl, ?_⟩, fun _ => payable_of_matured_eq_zero empty⟩
        rw [empty]
        intro packed member
        exact (Multiset.notMem_zero packed member).elim

/-- When finalisation completes and pays every matured exit that the contract
can pay and whose payee accepts. -/
theorem finalization_completes_iff {deployer : Address}
    {messages : List Message}
    (reached : s = (execute (step c) (new deployer) messages).1)
    {front : Word × Word} (read : s.queue.getMin = some front) :
    (∃ next effects, finalizeExits s now 0 accepts = some (next, effects) ∧
      ∀ packed ∈ s.matured now,
        (s.exitOf packed).owner = 0 ∨
          accepts (s.exitOf packed).owner = true →
        (s.exitOf packed).amount.toNat ≤ s.balance →
          s.Pays now effects packed) ↔
      s.Payable now accepts := by
  have wellFormed := wellFormed_run c deployer messages
  rw [← reached] at wellFormed
  obtain ⟨pays, succeeds⟩ := @finalizeLoop_spec s now accepts _ wellFormed
    (le_refl s.queue.currentSize) front read
  have loop : finalizeExits s now 0 accepts =
      finalizeLoop now accepts s.queue.currentSize s front := by
    rw [finalizeExits, read]
    rfl
  rw [loop]
  constructor
  · rintro ⟨next, effects, completed, _⟩
    refine succeeds ?_
    rw [completed]
    rintro ⟨⟩
  · intro payable
    obtain ⟨⟨next, effects⟩, completed, paid⟩ := pays payable
    refine ⟨next, effects, completed, ?_⟩
    intro packed member _ _
    exact paid packed member

/-- The operator and a user deposit, and the deposit of the operator is
exited. -/
def fundedRun : List Message :=
  [Sample.depositMessage Sample.alice 5, Sample.depositMessage Sample.bob 7,
    Sample.depositExit 1000000000]

/-- The same with a fee exit that is larger than the balance. -/
def blockedRun : List Message :=
  fundedRun ++ [Sample.message Sample.alice 30 (.startFeeExit 0 100)]

def funded : RootChain :=
  (execute (step Sample.crypto) (new Sample.alice) fundedRun).1

def blocked : RootChain :=
  (execute (step Sample.crypto) (new Sample.alice) blockedRun).1

theorem deposit_exit_finalized :
    ∃ next effects, finalizeExits funded (Sample.start + weeks 3) 0
        (fun _ => true) = some (next, effects) ∧
      ∀ packed ∈ funded.matured (Sample.start + weeks 3),
        (funded.exitOf packed).owner = 0 ∨ true = true →
        (funded.exitOf packed).amount.toNat ≤ funded.balance →
          funded.Pays (Sample.start + weeks 3) effects packed := by
  have front : funded.queue.getMin =
      some (Sample.start + weeks 2, 1000000000) := by
    decide +kernel
  have payable : funded.Payable (Sample.start + weeks 3) fun _ => true :=
    ⟨fun _ _ => .inr rfl, by decide +kernel⟩
  exact (finalization_completes_iff (rfl : funded = _) front).mpr payable

/-- The fee exit reverts the call that would pay the deposit exit in front of
it, although every payee accepts and the deposit is covered. -/
theorem fee_exit_blocks_deposit_exit :
    blocked.queue.getMin = some (Sample.start + weeks 2, 1000000000) ∧
      (blocked.exits 1000000000).owner = Sample.alice ∧
      (blocked.exits 1000000000).amount.toNat ≤ blocked.balance ∧
      (finalizeExits blocked (Sample.start + weeks 3) 0
        fun _ => true).isNone = true := by
  decide +kernel

end RootChain

end Plasma.Contract
