import Plasma.Contract.Exits

/-!
# Challenges

A challenge names an input of a transaction and clears the owner of the exit
stored under the sum of the fields of that input, while exits are stored under
a position in which the fields have factors.  A cleared exit stays in the
queue and is paid to the zero address.
-/

namespace Plasma.Contract

open Plasma.Core Plasma.Lib

/-- The arguments of `challengeExit`, with the memory behind the transaction. -/
structure Challenge where
  cUtxoPos : Word
  eUtxoIndex : Word
  txBytes : Bytes
  proof : Bytes
  sigs : Bytes
  confirmationSig : Bytes
  rest : Bytes

def inputFields (numbers : List Word) (index : Nat) : Word × Word × Word :=
  (numbers.getD (3 * index) 0, numbers.getD (3 * index + 1) 0,
    numbers.getD (3 * index + 2) 0)

/-- The position of the output an input spends. -/
def inputPos (numbers : List Word) (index : Nat) : Nat :=
  let (blknum, txindex, oindex) := inputFields numbers index
  blknum.toNat * 1000000000 + txindex.toNat * 10000 + oindex.toNat

def fieldSum (numbers : List Word) (index : Word) : Option Word := do
  let first ← numbers[(index * 3).toNat]?
  let second ← numbers[(1 + index * 3).toNat]?
  let third ← numbers[(2 + index * 3).toNat]?
  return first + second + third

namespace RootChain

section

variable (c : Crypto) (s : RootChain) (ch : Challenge)

def challenge : Option (RootChain × List Effect) :=
  challengeExit c s ch.cUtxoPos ch.eUtxoIndex ch.txBytes ch.proof ch.sigs
    ch.confirmationSig ch.rest

/-- The transaction is a member of the tree of its block, and the confirmation
signature recovers the address. -/
def Proves (owner : Address) : Prop :=
  let root := (s.childChain (ch.cUtxoPos / 1000000000)).root
  let txHash := c.keccak256 ch.txBytes
  Merkle.checkMembership c (c.keccak256 (wordBytes txHash ++ ch.sigs))
      (ch.cUtxoPos % 1000000000 / 10000) root ch.proof = some true ∧
    owner = ECRecovery.recover c
      (c.keccak256 (wordBytes txHash ++ wordBytes root)) ch.confirmationSig

/-- The call succeeds and deletes an owner that was there. -/
def Clears (utxoPos : Word) : Prop :=
  ∃ next effects, challenge c s ch = some (next, effects) ∧
    (s.exits utxoPos).owner ≠ 0 ∧ (next.exits utxoPos).owner = 0

/-- A challenge clears only the exit of the input it names, and it clears a
pending exit of that input whenever it proves the input spent. -/
structure HitsProvenSpent (numbers : List Word) : Prop where
  only : ∀ utxoPos, Clears c s ch utxoPos → ch.eUtxoIndex.toNat ≤ 1 ∧
    utxoPos.toNat = inputPos numbers ch.eUtxoIndex.toNat
  whenever : ∀ utxoPos owner, ch.eUtxoIndex.toNat ≤ 1 →
    utxoPos.toNat = inputPos numbers ch.eUtxoIndex.toNat →
      (s.exits utxoPos).owner = owner → owner ≠ 0 → Proves c s ch owner →
        Clears c s ch utxoPos

/-- The fields of the input add up to its position. -/
def SumIsPosition (numbers : List Word) : Prop :=
  ch.eUtxoIndex.toNat ≤ 1 ∧
    ∃ sum, fieldSum numbers ch.eUtxoIndex = some sum ∧
      sum.toNat = inputPos numbers ch.eUtxoIndex.toNat

/-- The challenge proves nothing against the owner of an exit stored under the
sum of the fields or under the position of the input. -/
def Harmless (numbers : List Word) : Prop :=
  ∀ owner, owner ≠ 0 → Proves c s ch owner →
    (∀ utxoPos, fieldSum numbers ch.eUtxoIndex = some utxoPos →
      (s.exits utxoPos).owner ≠ owner) ∧
    (ch.eUtxoIndex.toNat ≤ 1 → ∀ utxoPos : Word,
      utxoPos.toNat = inputPos numbers ch.eUtxoIndex.toNat →
        (s.exits utxoPos).owner ≠ owner)

end

variable {c : Crypto} {s : RootChain} {ch : Challenge} {numbers : List Word}

theorem challenge_eq_some_iff
    (decoded : PlasmaRLP.fields ch.txBytes ch.rest = some numbers)
    {next : RootChain} :
    (∃ effects, challenge c s ch = some (next, effects)) ↔
      ∃ sum, fieldSum numbers ch.eUtxoIndex = some sum ∧
        Proves c s ch (s.exits sum).owner ∧
        next = { s with
          exits := Function.update s.exits sum
            { s.exits sum with owner := 0 } } := by
  have target : PlasmaRLP.getUtxoPos ch.txBytes ch.rest ch.eUtxoIndex =
      fieldSum numbers ch.eUtxoIndex :=
    PlasmaRLP.getUtxoPos_eq decoded ch.eUtxoIndex
  simp only [challenge, challengeExit, target, Option.bind_eq_bind,
    Option.bind_eq_some_iff, require_eq_some, Option.pure_def,
    Option.some.injEq, Prod.mk.injEq, Proves]
  constructor
  · rintro ⟨_, sum, named, _, signed, included, checked, _, member, rfl, _⟩
    refine ⟨sum, named, ⟨?_, signed⟩, rfl⟩
    rw [checked, member]
  · rintro ⟨sum, named, ⟨member, signed⟩, rfl⟩
    exact ⟨_, sum, named, (), signed, true, member, (), rfl, rfl, rfl⟩

theorem clears_iff
    (decoded : PlasmaRLP.fields ch.txBytes ch.rest = some numbers)
    {utxoPos : Word} :
    Clears c s ch utxoPos ↔
      fieldSum numbers ch.eUtxoIndex = some utxoPos ∧
        (s.exits utxoPos).owner ≠ 0 ∧
        Proves c s ch (s.exits utxoPos).owner := by
  constructor
  · rintro ⟨next, effects, performed, owned, cleared⟩
    obtain ⟨sum, named, proved, rfl⟩ :=
      (challenge_eq_some_iff decoded).mp ⟨effects, performed⟩
    by_cases here : utxoPos = sum
    · subst here
      exact ⟨named, owned, proved⟩
    · simp only [Function.update_of_ne here] at cleared
      exact (owned cleared).elim
  · rintro ⟨named, owned, proved⟩
    obtain ⟨effects, performed⟩ :=
      (challenge_eq_some_iff decoded).mpr ⟨utxoPos, named, proved, rfl⟩
    exact ⟨_, effects, performed, owned, by simp⟩

/-- A challenge hits exactly the exit it proves spent if and only if the
fields of the input add up to its position or the challenge proves nothing
against the two exits in question, for a transaction with any number of
fields. -/
theorem hitsProvenSpent_iff
    (decoded : PlasmaRLP.fields ch.txBytes ch.rest = some numbers) :
    HitsProvenSpent c s ch numbers ↔
      SumIsPosition ch numbers ∨ Harmless c s ch numbers := by
  constructor
  · intro hits
    by_cases agree : SumIsPosition ch numbers
    · exact .inl agree
    · right
      intro owner positive proved
      constructor
      · intro utxoPos named owned
        obtain ⟨index, place⟩ := hits.only utxoPos
          ((clears_iff decoded).mpr
            ⟨named, owned.symm ▸ positive, owned.symm ▸ proved⟩)
        exact agree ⟨index, utxoPos, named, place⟩
      · intro index utxoPos place owned
        have cleared := hits.whenever utxoPos owner index place owned positive
          proved
        obtain ⟨named, _⟩ := (clears_iff decoded).mp cleared
        exact agree ⟨index, utxoPos, named, place⟩
  · rintro (⟨index, sum, named, place⟩ | harmless)
    · constructor
      · intro utxoPos cleared
        obtain ⟨same, _⟩ := (clears_iff decoded).mp cleared
        rw [named] at same
        obtain rfl := Option.some.inj same
        exact ⟨index, place⟩
      · intro utxoPos owner _ position owned positive proved
        obtain rfl : utxoPos = sum :=
          BitVec.eq_of_toNat_eq (position.trans place.symm)
        subst owned
        exact (clears_iff decoded).mpr ⟨named, positive, proved⟩
    · constructor
      · intro utxoPos cleared
        obtain ⟨named, owned, proved⟩ := (clears_iff decoded).mp cleared
        exact ((harmless _ owned proved).1 utxoPos named rfl).elim
      · intro utxoPos owner index place owned positive proved
        exact ((harmless owner positive proved).2 index utxoPos place
          owned).elim

def spendNumbers : List Word :=
  Sample.spendPayloads.map fun payload =>
    BitVec.ofNat 256 (fromBigEndian payload)

def sampleChallenge : Challenge :=
  ⟨1000000000000, 0, Sample.spendBytes, Sample.proof, Sample.spendSigs,
    Sample.confirmationSig, []⟩

theorem sampleChallenge_fields :
    PlasmaRLP.fields sampleChallenge.txBytes sampleChallenge.rest =
      some spendNumbers := by
  refine PlasmaRLP.fields_encodeList [] ?_ (by decide +kernel)
  decide +kernel

def challengedRun : List Message :=
  [Sample.depositMessage Sample.alice 5, Sample.submitMessage,
    Sample.depositExit 1000000000, Sample.feeExit]

def challengedState : RootChain :=
  (execute (step Sample.crypto) (new Sample.alice) challengedRun).1

def unconfirmedChallenge : Challenge :=
  { sampleChallenge with confirmationSig := Sample.spendSigs.take 65 }

/-- With a confirmation signature of nobody the challenge proves nothing, and
both exits stay. -/
theorem unconfirmed_challenge_harmless :
    (challengedState.exits 1).owner = Sample.alice ∧
      (challengedState.exits 1000000000).owner = Sample.alice ∧
      HitsProvenSpent Sample.crypto challengedState unconfirmedChallenge
        spendNumbers := by
  have decoded : PlasmaRLP.fields unconfirmedChallenge.txBytes
      unconfirmedChallenge.rest = some spendNumbers := sampleChallenge_fields
  refine ⟨by decide +kernel, by decide +kernel,
    (hitsProvenSpent_iff decoded).mpr (.inr ?_)⟩
  intro owner positive proved
  have nobody : owner = 0 := proved.2.trans (by decide +kernel)
  exact absurd nobody positive

/-- The challenge of the deposit exit cancels the fee exit instead. -/
theorem challenge_cancels_foreign_exit :
    inputPos spendNumbers 0 = 1000000000 ∧ spendNumbers.length = 11 ∧
      (challengedState.exits 1000000000).owner = Sample.alice ∧
      Proves Sample.crypto challengedState sampleChallenge Sample.alice ∧
      Clears Sample.crypto challengedState sampleChallenge 1 ∧
      ¬ Clears Sample.crypto challengedState sampleChallenge 1000000000 ∧
      ¬ HitsProvenSpent Sample.crypto challengedState sampleChallenge
        spendNumbers := by
  have position : inputPos spendNumbers 0 = 1000000000 := by decide +kernel
  have sum : fieldSum spendNumbers sampleChallenge.eUtxoIndex = some 1 := by
    decide +kernel
  have proved : Proves Sample.crypto challengedState sampleChallenge
      Sample.alice := by
    constructor <;> decide +kernel
  have feeOwner : (challengedState.exits 1).owner = Sample.alice := by
    decide +kernel
  have cleared : Clears Sample.crypto challengedState sampleChallenge 1 :=
    (clears_iff sampleChallenge_fields).mpr
      ⟨sum, by rw [feeOwner]; decide, by rw [feeOwner]; exact proved⟩
  refine ⟨position, by decide +kernel, by decide +kernel, proved, cleared,
    ?_, ?_⟩
  · intro other
    obtain ⟨named, _⟩ := (clears_iff sampleChallenge_fields).mp other
    rw [sum] at named
    exact absurd (Option.some.inj named) (by decide)
  · intro hits
    have place := (hits.only 1 cleared).2
    exact absurd (place.trans position) (by decide)

end RootChain

/-!
## Payments after a challenge
-/

def Effect.payment : Effect → Nat
  | .removed _ _ amount _ => amount.toNat
  | _ => 0

def Effect.isRemovalOf (utxoPos : Word) : Effect → Bool
  | .removed other _ _ _ => other == utxoPos
  | _ => false

def paid (effects : List Effect) : Nat := (effects.map Effect.payment).sum

/-- What they paid for exits other than the given one. -/
def paidToOthers (utxoPos : Word) (effects : List Effect) : Nat :=
  paid (effects.filter fun effect => !effect.isRemovalOf utxoPos)

theorem paidToOthers_lt {utxoPos : Word} {effects : List Effect}
    {payee : Address} {amount time : Word}
    (removed : .removed utxoPos payee amount time ∈ effects)
    (positive : amount ≠ 0) : paidToOthers utxoPos effects < paid effects := by
  induction effects with
  | nil => cases removed
  | cons effect effects induction =>
      have rest : paidToOthers utxoPos effects ≤ paid effects :=
        (List.filter_sublist.map Effect.payment).sum_le_sum
          (fun _ _ => Nat.zero_le _)
      rcases List.mem_cons.mp removed with rfl | later
      · have amountPositive : 0 < amount.toNat := by
          refine Nat.pos_of_ne_zero ?_
          intro zero
          exact positive (BitVec.eq_of_toNat_eq zero)
        simp only [paidToOthers, paid, List.filter_cons, Effect.isRemovalOf,
          beq_self_eq_true, Bool.not_true, Bool.false_eq_true, if_false,
          List.map_cons, List.sum_cons, Effect.payment] at rest ⊢
        omega
      · have less := induction later
        simp only [paidToOthers, paid, List.filter_cons, List.map_cons,
          List.sum_cons] at less ⊢
        split
        · rw [List.map_cons, List.sum_cons]
          omega
        · omega

namespace RootChain

variable {c : Crypto} {m : Message} {s next : RootChain}
  {past effects : List Effect}

/-- The rounds of a call pay the stored amounts; an exit without an owner is
paid to the zero address. -/
theorem rounds_pay (taken : Rounds m s effects next) :
    next.balance + paid effects = s.balance ∧
      ∀ utxoPos payee amount time,
        .removed utxoPos payee amount time ∈ effects →
          amount = (s.exits utxoPos).amount ∧
            ((s.exits utxoPos).owner = 0 → payee = 0) := by
  induction taken with
  | done s =>
      refine ⟨rfl, ?_⟩
      intro utxoPos payee amount time member
      cases member
  | next first rest induction =>
      obtain ⟨balance, payments⟩ := induction
      cases first with
      | @round exitableAt front queue read mature funded deleted =>
          refine ⟨?_, ?_⟩
          · simp only [paid, List.map_cons, List.sum_cons,
              Effect.payment] at balance ⊢
            omega
          · intro utxoPos payee amount time member
            rcases List.mem_cons.mp member with same | later
            · cases same
              exact ⟨rfl, fun cleared => cleared⟩
            · obtain ⟨stored, unowned⟩ := payments utxoPos payee amount time
                later
              by_cases here : utxoPos = front
              · subst here
                simp only [Function.update_self] at stored unowned
                exact ⟨stored, fun _ => unowned trivial⟩
              · simp only [Function.update_of_ne here] at stored unowned
                exact ⟨stored, unowned⟩

/-- An exit with an owner has an amount, and so has an exit whose owner was
cleared by a challenge. -/
structure Cleared (past : List Effect) (s : RootChain) : Prop where
  owned : ∀ utxoPos, (s.exits utxoPos).owner ≠ 0 →
    (s.exits utxoPos).amount ≠ 0
  challenged : ∀ utxoPos owner, .challenged utxoPos owner ∈ past →
    owner ≠ 0 → (s.exits utxoPos).owner = 0 ∧ (s.exits utxoPos).amount ≠ 0

theorem Cleared.delete {extra : List Effect} {target : Word}
    (holds : Cleared past s)
    (exits : next.exits = Function.update s.exits target
      { s.exits target with owner := 0 })
    (new : ∀ utxoPos owner, .challenged utxoPos owner ∈ extra →
      utxoPos = target ∧ owner = (s.exits target).owner) :
    Cleared (past ++ extra) next := by
  constructor
  · intro utxoPos
    by_cases here : utxoPos = target
    · subst here
      simp [exits]
    · rw [exits, Function.update_of_ne here]
      exact holds.owned utxoPos
  · intro utxoPos owner member positive
    rcases List.mem_append.mp member with earlier | now
    · obtain ⟨unowned, amount⟩ :=
        holds.challenged utxoPos owner earlier positive
      by_cases here : utxoPos = target
      · subst here
        rw [exits, Function.update_self]
        exact ⟨rfl, amount⟩
      · rw [exits, Function.update_of_ne here]
        exact ⟨unowned, amount⟩
    · obtain ⟨rfl, rfl⟩ := new utxoPos owner now
      rw [exits, Function.update_self]
      exact ⟨rfl, holds.owned utxoPos positive⟩

theorem cleared_acts {inputs : List Bytes} {effect : Effect}
    (holds : Cleared past s) (act : Acts c m s inputs effect next) :
    Cleared (past ++ (inputs.map Effect.hashed ++ [effect])) next := by
  have silent : ∀ utxoPos owner,
      .challenged utxoPos owner ∈ inputs.map Effect.hashed ++ [effect] →
        effect = .challenged utxoPos owner := by
    intro utxoPos owner member
    rcases List.mem_append.mp member with digest | last
    · obtain ⟨input, _, impossible⟩ := List.mem_map.mp digest
      cases impossible
    · exact (List.mem_singleton.mp last).symm
  cases act with
  | submitted call fits =>
      refine ⟨holds.owned, ?_⟩
      intro utxoPos owner member positive
      rcases List.mem_append.mp member with earlier | now
      · exact holds.challenged utxoPos owner earlier positive
      · cases silent utxoPos owner now
  | deposited call room number =>
      refine ⟨holds.owned, ?_⟩
      intro utxoPos owner member positive
      rcases List.mem_append.mp member with earlier | now
      · exact holds.challenged utxoPos owner earlier positive
      · cases silent utxoPos owner now
  | @exitStarted _ _ started _ _ _ _ source amount fresh =>
      constructor
      · intro utxoPos owned
        by_cases here : utxoPos = started
        · subst here
          simpa using amount
        · simp only [Function.update_of_ne here] at owned ⊢
          exact holds.owned utxoPos owned
      · intro utxoPos owner member positive
        rcases List.mem_append.mp member with earlier | now
        · obtain ⟨unowned, stored⟩ :=
            holds.challenged utxoPos owner earlier positive
          have here : utxoPos ≠ started := by
            rintro rfl
            exact stored fresh
          simp only [Function.update_of_ne here]
          exact ⟨unowned, stored⟩
        · cases silent utxoPos owner now
  | challenged call =>
      refine holds.delete rfl ?_
      intro utxoPos owner member
      cases silent utxoPos owner member
      exact ⟨rfl, rfl⟩

theorem cleared_run (c : Crypto) (deployer : Address)
    (messages : List Message) :
    Cleared (execute (step c) (new deployer) messages).2
      (execute (step c) (new deployer) messages).1 := by
  refine run_induction Cleared ?_ ?_ ?_
    (stepsMeet_of_forall (fun _ _ _ => trivial) _ : StepsMeet (step c)
      (fun _ _ => True) _ messages)
  · intro past s m inputs effect next holds _ act
    exact cleared_acts holds act
  · intro past s m effect next holds taken
    cases taken with
    | round front mature funded deleted =>
        refine holds.delete rfl ?_
        intro utxoPos owner member
        cases List.mem_singleton.mp member
  · refine ⟨fun _ owned => (owned rfl).elim, ?_⟩
    intro utxoPos owner member
    cases member

/-- The balance after a call differs from the balance before it only by what
was paid for other exits. -/
def UnchangedBy (utxoPos : Word) (s next : RootChain)
    (effects : List Effect) : Prop :=
  next.balance + paidToOthers utxoPos effects = s.balance

/-- After a challenge cleared the owner of an exit, the call that removes the
exit from the queue pays its amount to the zero address. -/
theorem challenged_exit_is_paid {deployer : Address}
    {messages : List Message} {m : Message} {s : RootChain}
    {history : List Effect}
    (reached : s = (execute (step c) (new deployer) messages).1)
    (run : history = (execute (step c) (new deployer) messages).2)
    {utxoPos : Word} {owner payee : Address} {amount time : Word}
    (cleared : .challenged utxoPos owner ∈ history) (owned : owner ≠ 0)
    (removed : .removed utxoPos payee amount time ∈ (step c s m).2) :
    payee = 0 ∧ amount = (s.exits utxoPos).amount ∧ amount ≠ 0 ∧
      ¬ UnchangedBy utxoPos s (step c s m).1 (step c s m).2 := by
  have invariant := cleared_run c deployer messages
  rw [← reached, ← run] at invariant
  obtain ⟨unowned, positive⟩ :=
    invariant.challenged utxoPos owner cleared owned
  rcases step_cases c s m with same | ⟨inputs, effect, emitted, act⟩ | taken
  · rw [same] at removed
    cases removed
  · rw [emitted] at removed
    generalize (step c s m).1 = next at act
    rcases List.mem_append.mp removed with digest | last
    · obtain ⟨input, _, impossible⟩ := List.mem_map.mp digest
      cases impossible
    · rw [← List.mem_singleton.mp last] at act
      cases act
  · obtain ⟨balance, payments⟩ := rounds_pay taken
    obtain ⟨stored, zero⟩ := payments utxoPos payee amount time removed
    rw [← stored] at positive
    refine ⟨zero unowned, stored, positive, ?_⟩
    have less := paidToOthers_lt removed positive
    rw [UnchangedBy]
    omega

def paidRun : List Message :=
  [Sample.depositMessage Sample.alice 5, Sample.submitMessage, Sample.feeExit,
    Sample.challenge]

def paidState : RootChain :=
  (execute (step Sample.crypto) (new Sample.alice) paidRun).1

theorem challenged_fee_exit_is_paid :
    ¬ UnchangedBy 1 paidState (step Sample.crypto paidState Sample.finalize).1
      (step Sample.crypto paidState Sample.finalize).2 := by
  have traced : .challenged 1 Sample.alice ∈
        (execute (step Sample.crypto) (new Sample.alice) paidRun).2 ∧
      .removed 1 0 3 (Sample.start + weeks 3) ∈
        (step Sample.crypto paidState Sample.finalize).2 := by
    decide +kernel
  obtain ⟨cleared, removed⟩ := traced
  have reached : paidState =
      (execute (step Sample.crypto) (new Sample.alice) paidRun).1 := by
    rw [paidState]
  have paid := challenged_exit_is_paid reached (Eq.refl _) cleared (by decide)
    removed
  exact paid.2.2.2

/-- The balance drops from five to two for an exit whose owner was cleared. -/
theorem finalisation_pays_challenged_exit :
    .challenged 1 Sample.alice ∈
        (execute (step Sample.crypto) (new Sample.alice) paidRun).2 ∧
      (step Sample.crypto paidState Sample.finalize).2 =
        [.removed 1 0 3 (Sample.start + weeks 3)] ∧
      paidState.balance = 5 ∧
      (step Sample.crypto paidState Sample.finalize).1.balance = 2 := by
  decide +kernel

end RootChain

end Plasma.Contract
