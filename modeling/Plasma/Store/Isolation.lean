import Plasma.Lib.Trace
import Plasma.Store.Database

/-!
# Several handles of one process

The batch pointer of every handle refers to the package variable
`defaultBatch`.  A process with several handles is compared with independent
transactional maps, one for each handle and fed with the calls on this handle
only.
-/

namespace Plasma.Store

open Plasma.Lib

variable {Handle Key Value : Type}

/-- A map with transactions: `pending` holds the changes of the open one. -/
structure TxMap (Key Value : Type) where
  committed : Key → Option Value
  pending : Option (List (Change Key Value))

namespace TxMap

variable [DecidableEq Key]

/-- A change applies at once outside a transaction. -/
def change (m : TxMap Key Value) (change : Change Key Value) :
    TxMap Key Value :=
  match m.pending with
  | none => { m with committed := change.apply m.committed }
  | some changes => { m with pending := some (changes ++ [change]) }

def perform (m : TxMap Key Value) : DbCall Key Value → TxMap Key Value
  | .beginTx => { m with pending := some (m.pending.getD []) }
  | .put _ key value => m.change (.put key value)
  | .delete _ key => m.change (.delete key)
  | .commitTx _ => ⟨applyAll (m.pending.getD []) m.committed, none⟩
  | .rollbackTx => { m with pending := none }

/-- The map after some calls. -/
def run (m : TxMap Key Value) (calls : List (DbCall Key Value)) :
    TxMap Key Value :=
  calls.foldl perform m

end TxMap

/-- The handles of a process on different files and the batch they share. -/
structure Handles (Handle Key Value : Type) where
  db : Handle → Key → Option Value
  inBatch : Handle → Bool
  defaultBatch : List (Change Key Value)

namespace Handles

/-- A handle as it sees itself. -/
def handle (s : Handles Handle Key Value) (name : Handle) :
    LDBDatabase Key Value :=
  ⟨s.db name, s.inBatch name, s.defaultBatch⟩

variable [DecidableEq Handle] [DecidableEq Key]

/-- A call on one handle. -/
def perform (s : Handles Handle Key Value)
    (input : Handle × DbCall Key Value) : Handles Handle Key Value :=
  let next := (s.handle input.1).perform input.2
  { db := Function.update s.db input.1 next.db
    inBatch := Function.update s.inBatch input.1 next.inBatch
    defaultBatch := next.defaultBatch }

def step (s : Handles Handle Key Value) (input : Handle × DbCall Key Value) :
    Handles Handle Key Value × List (Handle × DbCall Key Value) :=
  (s.perform input, [input])

omit [DecidableEq Handle] [DecidableEq Key] in
/-- All handles are closed and the batch is empty. -/
def Closed (s : Handles Handle Key Value) : Prop :=
  (∀ name, s.inBatch name = false) ∧ s.defaultBatch = []

omit [DecidableEq Handle] [DecidableEq Key] in
/-- A transaction is opened while the batch is empty, and operations are
buffered while no other handle has a transaction open. -/
def Exclusive (s : Handles Handle Key Value) :
    Handle × DbCall Key Value → Prop
  | (name, .beginTx) => s.inBatch name = false → s.defaultBatch = []
  | (name, .put _ _ _) => s.inBatch name = true →
      ∀ other, s.inBatch other = true → other = name
  | (name, .delete _ _) => s.inBatch name = true →
      ∀ other, s.inBatch other = true → other = name
  | (_, .commitTx _) => True
  | (_, .rollbackTx) => True

instance [Fintype Handle] [DecidableEq Value]
    (s : Handles Handle Key Value) : DecidablePred s.Exclusive
  | (name, .beginTx) => inferInstanceAs (Decidable
      (s.inBatch name = false → s.defaultBatch = []))
  | (name, .put _ _ _) => inferInstanceAs (Decidable
      (s.inBatch name = true → ∀ other, s.inBatch other = true →
        other = name))
  | (name, .delete _ _) => inferInstanceAs (Decidable
      (s.inBatch name = true → ∀ other, s.inBatch other = true →
        other = name))
  | (_, .commitTx _) => isTrue trivial
  | (_, .rollbackTx) => isTrue trivial

end Handles

/-- LevelDB takes the writes of the call. -/
def DbCall.succeeds : DbCall Key Value → Bool
  | .put disk _ _ => disk
  | .delete disk _ => disk
  | .commitTx disk => disk
  | .beginTx => true
  | .rollbackTx => true

/-- The calls on one handle. -/
def ownCalls [DecidableEq Handle] (name : Handle)
    (inputs : List (Handle × DbCall Key Value)) : List (DbCall Key Value) :=
  (inputs.filter fun input => input.1 = name).map Prod.snd

/-- A handle as a map with transactions: the shared batch holds the pending
changes. -/
def Handles.view (s : Handles Handle Key Value) (name : Handle) :
    TxMap Key Value :=
  { committed := s.db name
    pending := if s.inBatch name then some s.defaultBatch else none }

/-- Two handles have transactions open only while the batch is empty. -/
def SharesNothing (s : Handles Handle Key Value) : Prop :=
  ∀ name other, s.inBatch name = true → s.inBatch other = true →
    name ≠ other → s.defaultBatch = []

section

variable [DecidableEq Handle] [DecidableEq Key]
  {s : Handles Handle Key Value} {name other : Handle}
  {call : DbCall Key Value} {change : Change Key Value}

/-!
## What a call does
-/

namespace Handles

theorem perform_change_of_busy (asked : call.change? = some change)
    (busy : s.inBatch name = true) :
    s.perform (name, call) =
      { s with defaultBatch := s.defaultBatch ++ [change] } := by
  have kept : Function.update s.inBatch name true = s.inBatch :=
    Function.update_eq_self_iff.mpr busy.symm
  cases call <;> cases asked <;>
    simp [perform, handle, busy, kept, LDBDatabase.perform]

theorem perform_change_of_closed (asked : call.change? = some change)
    (succeeds : call.succeeds = true) (closed : s.inBatch name = false) :
    s.perform (name, call) =
      { s with
        db := Function.update s.db name (change.apply (s.db name)) } := by
  have kept : Function.update s.inBatch name false = s.inBatch :=
    Function.update_eq_self_iff.mpr closed.symm
  cases call <;> cases asked <;> cases succeeds <;>
    simp [perform, handle, closed, kept, LDBDatabase.perform,
      LDBDatabase.put_direct, LDBDatabase.delete_direct]

theorem perform_beginTx :
    s.perform (name, .beginTx) =
      { s with inBatch := Function.update s.inBatch name true } := by
  cases busy : s.inBatch name <;>
    simp [perform, handle, busy, LDBDatabase.perform, LDBDatabase.beginTx]

theorem perform_commitTx_of_busy (busy : s.inBatch name = true) :
    s.perform (name, .commitTx true) =
      { db := Function.update s.db name
          (applyAll s.defaultBatch (s.db name))
        inBatch := Function.update s.inBatch name false
        defaultBatch := [] } := by
  simp [perform, handle, busy, LDBDatabase.perform,
    LDBDatabase.commitTx_inBatch]

theorem perform_rollbackTx_of_busy (busy : s.inBatch name = true) :
    s.perform (name, .rollbackTx) =
      { s with
        inBatch := Function.update s.inBatch name false
        defaultBatch := [] } := by
  simp [perform, handle, busy, LDBDatabase.perform]

theorem perform_commitTx_of_closed (closed : s.inBatch name = false) :
    s.perform (name, .commitTx true) = s := by
  have kept : Function.update s.inBatch name false = s.inBatch :=
    Function.update_eq_self_iff.mpr closed.symm
  simp [perform, handle, closed, kept, LDBDatabase.perform,
    LDBDatabase.commitTx]

theorem perform_rollbackTx_of_closed (closed : s.inBatch name = false) :
    s.perform (name, .rollbackTx) = s := by
  have kept : Function.update s.inBatch name false = s.inBatch :=
    Function.update_eq_self_iff.mpr closed.symm
  simp [perform, handle, closed, kept, LDBDatabase.perform,
    LDBDatabase.rollbackTx]

omit [DecidableEq Handle] [DecidableEq Key] in
/-- Who buffers an operation is alone. -/
theorem Exclusive.alone (exclusive : s.Exclusive (name, call))
    (asked : call.change? = some change) (busy : s.inBatch name = true) :
    ∀ other, s.inBatch other = true → other = name := by
  cases call <;> cases asked
  · exact exclusive busy
  · exact exclusive busy

end Handles

omit [DecidableEq Handle] in
theorem TxMap.perform_change (m : TxMap Key Value)
    (asked : call.change? = some change) :
    m.perform call = m.change change := by
  cases call <;> cases asked <;> rfl

/-!
## One step
-/

namespace Handles

/-- A call moves its own handle as it moves the map. -/
theorem view_perform (succeeds : call.succeeds = true)
    (exclusive : s.Exclusive (name, call)) :
    (s.perform (name, call)).view name = (s.view name).perform call := by
  cases asked : call.change? with
  | some change =>
      rw [TxMap.perform_change _ asked]
      cases busy : s.inBatch name with
      | true =>
          rw [perform_change_of_busy asked busy]
          simp [view, busy, TxMap.change]
      | false =>
          rw [perform_change_of_closed asked succeeds busy]
          simp [view, busy, TxMap.change]
  | none =>
      cases call with
      | put disk key value => cases asked
      | delete disk key => cases asked
      | beginTx =>
          rw [perform_beginTx]
          cases busy : s.inBatch name with
          | true => simp [view, busy, TxMap.perform]
          | false => simp [view, busy, TxMap.perform, exclusive busy]
      | commitTx disk =>
          cases succeeds
          cases busy : s.inBatch name with
          | true =>
              rw [perform_commitTx_of_busy busy]
              simp [view, busy, TxMap.perform]
          | false =>
              rw [perform_commitTx_of_closed busy]
              simp [view, busy, TxMap.perform]
      | rollbackTx =>
          cases busy : s.inBatch name with
          | true =>
              rw [perform_rollbackTx_of_busy busy]
              simp [view, busy, TxMap.perform]
          | false =>
              rw [perform_rollbackTx_of_closed busy]
              simp [view, busy, TxMap.perform]

/-- A call leaves the other handles where they are. -/
theorem view_perform_of_ne (shares : SharesNothing s)
    (succeeds : call.succeeds = true) (exclusive : s.Exclusive (name, call))
    (different : other ≠ name) :
    (s.perform (name, call)).view other = s.view other := by
  cases asked : call.change? with
  | some change =>
      cases busy : s.inBatch name with
      | true =>
          rw [perform_change_of_busy asked busy]
          have closed : s.inBatch other = false := by
            rw [← Bool.not_eq_true]
            intro open'
            exact different (exclusive.alone asked busy other open')
          simp [view, closed]
      | false =>
          rw [perform_change_of_closed asked succeeds busy]
          simp [view, different]
  | none =>
      cases call with
      | put disk key value => cases asked
      | delete disk key => cases asked
      | beginTx =>
          rw [perform_beginTx]
          simp [view, different]
      | commitTx disk =>
          cases succeeds
          cases busy : s.inBatch name with
          | true =>
              rw [perform_commitTx_of_busy busy]
              simp only [view, Function.update_of_ne different]
              split
              · rename_i both
                rw [shares other name both busy different]
              · rfl
          | false => rw [perform_commitTx_of_closed busy]
      | rollbackTx =>
          cases busy : s.inBatch name with
          | true =>
              rw [perform_rollbackTx_of_busy busy]
              simp only [view, Function.update_of_ne different]
              split
              · rename_i both
                rw [shares other name both busy different]
              · rfl
          | false => rw [perform_rollbackTx_of_closed busy]

end Handles

theorem SharesNothing.perform (shares : SharesNothing s)
    (succeeds : call.succeeds = true)
    (exclusive : s.Exclusive (name, call)) :
    SharesNothing (s.perform (name, call)) := by
  cases asked : call.change? with
  | some change =>
      cases busy : s.inBatch name with
      | true =>
          rw [Handles.perform_change_of_busy asked busy]
          intro first second firstOpen secondOpen different
          have firstName := exclusive.alone asked busy first firstOpen
          have secondName := exclusive.alone asked busy second secondOpen
          exact absurd (firstName.trans secondName.symm) different
      | false =>
          rw [Handles.perform_change_of_closed asked succeeds busy]
          exact shares
  | none =>
      cases call with
      | put disk key value => cases asked
      | delete disk key => cases asked
      | beginTx =>
          rw [Handles.perform_beginTx]
          cases busy : s.inBatch name with
          | true =>
              rw [Function.update_eq_self_iff.mpr busy.symm]
              exact shares
          | false =>
              intro first second _ _ _
              exact exclusive busy
      | commitTx disk =>
          cases succeeds
          cases busy : s.inBatch name with
          | true =>
              rw [Handles.perform_commitTx_of_busy busy]
              intro first second _ _ _
              rfl
          | false =>
              rw [Handles.perform_commitTx_of_closed busy]
              exact shares
      | rollbackTx =>
          cases busy : s.inBatch name with
          | true =>
              rw [Handles.perform_rollbackTx_of_busy busy]
              intro first second _ _ _
              rfl
          | false =>
              rw [Handles.perform_rollbackTx_of_closed busy]
              exact shares

theorem run_ownCalls_append (m : TxMap Key Value)
    (past : List (Handle × DbCall Key Value))
    (input : Handle × DbCall Key Value) :
    m.run (ownCalls name (past ++ [input])) =
      if input.1 = name then
        (m.run (ownCalls name past)).perform input.2
      else m.run (ownCalls name past) := by
  by_cases own : input.1 = name
  · simp [ownCalls, TxMap.run, own]
  · simp [ownCalls, TxMap.run, own]

/-- In every run in which a transaction is opened only while the batch is
empty, and operations are buffered only while no other handle has a transaction
open, every handle holds what its own map holds. -/
theorem handles_isolated {start : Handles Handle Key Value}
    (closed : start.Closed) {inputs : List (Handle × DbCall Key Value)}
    (succeed : ∀ input ∈ inputs, input.2.succeeds = true)
    (exclusive : StepsMeet Handles.step Handles.Exclusive start inputs)
    (name : Handle) :
    (execute Handles.step start inputs).1.db name =
      (TxMap.run ⟨start.db name, none⟩ (ownCalls name inputs)).committed := by
  have reached : SharesNothing (execute Handles.step start inputs).1 ∧
      ∀ name, (execute Handles.step start inputs).1.view name =
        TxMap.run ⟨start.db name, none⟩ (ownCalls name inputs) := by
    refine execute_induction _ _
      (fun past s _ => SharesNothing s ∧ ∀ name, s.view name =
        TxMap.run ⟨start.db name, none⟩ (ownCalls name past)) ?_ ?_
      (exclusive.and_forall succeed)
    · rintro past s _ ⟨target, call⟩ ⟨shares, views⟩ ⟨admitted, succeeds⟩
      refine ⟨shares.perform succeeds admitted, ?_⟩
      intro name
      rw [run_ownCalls_append]
      by_cases own : target = name
      · subst own
        rw [if_pos rfl, ← views]
        exact Handles.view_perform succeeds admitted
      · rw [if_neg own, ← views]
        exact Handles.view_perform_of_ne shares succeeds admitted
          (Ne.symm own)
    · refine ⟨?_, ?_⟩
      · intro first second firstOpen
        rw [closed.1 first] at firstOpen
        cases firstOpen
      · intro name
        simp [Handles.view, closed.1 name, ownCalls, TxMap.run]
  exact congrArg TxMap.committed (reached.2 name)

end

/-- Two empty files. -/
def twoFiles : Handles Bool Nat Nat := ⟨fun _ _ => none, fun _ => false, []⟩

/-- Transactions on the two handles one after the other. -/
def separateCalls : List (Bool × DbCall Nat Nat) :=
  [(true, .beginTx), (true, .put true 1 5), (false, .put true 2 7),
    (true, .commitTx true), (false, .beginTx), (false, .put true 1 8),
    (false, .rollbackTx)]

theorem separateCalls_isolated :
    (execute Handles.step twoFiles separateCalls).1.db false =
      (TxMap.run ⟨twoFiles.db false, none⟩
        (ownCalls false separateCalls)).committed :=
  handles_isolated ⟨fun _ => rfl, rfl⟩ (by decide) (by decide) false

/-- The commit of one handle writes the operation of another one into its own
file. -/
theorem commit_writes_foreign_operation :
    (execute Handles.step twoFiles
        [(true, .beginTx), (true, .put true 1 5), (false, .beginTx),
          (false, .commitTx true)]).1.db false 1 = some 5 ∧
      (TxMap.run ⟨twoFiles.db false, none⟩
        (ownCalls false [(true, .beginTx), (true, .put true 1 5),
          (false, .beginTx), (false, .commitTx true)])).committed 1 =
        none := by
  decide

end Plasma.Store
