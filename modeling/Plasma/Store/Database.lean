import Plasma.Lib.Changes

/-!
# The database handle

`LDBDatabase` simulates transactions with a batch: while the handle's batch
pointer is set, writes are appended to the package variable `defaultBatch` and
reads still see only the committed contents.  The answers of LevelDB to direct
writes and to the batch write are inputs.
-/

namespace Plasma.Store

open Plasma.Lib

inductive DbError where
  | noOpenTx
  | writeFailed
deriving DecidableEq, Repr

/-- A handle together with the package variable its batch pointer can refer
to. -/
structure LDBDatabase (Key Value : Type) where
  db : Key → Option Value
  inBatch : Bool
  defaultBatch : List (Change Key Value)

namespace LDBDatabase

variable {Key Value : Type} [DecidableEq Key]

omit [DecidableEq Key] in
/-- No transaction is open and nothing is left in the batch. -/
def Idle (d : LDBDatabase Key Value) : Prop :=
  d.inBatch = false ∧ d.defaultBatch = []

omit [DecidableEq Key] in
theorem Idle.eq_mk {d : LDBDatabase Key Value} (idle : d.Idle) :
    d = ⟨d.db, false, []⟩ := by
  obtain ⟨contents, inBatch, batch⟩ := d
  obtain ⟨closed, empty⟩ := idle
  cases closed
  cases empty
  rfl

omit [DecidableEq Key] in
def get (d : LDBDatabase Key Value) (key : Key) : Option Value :=
  d.db key

omit [DecidableEq Key] in
def has (d : LDBDatabase Key Value) (key : Key) : Bool :=
  (d.db key).isSome

private def write (disk : Bool) (change : Change Key Value)
    (d : LDBDatabase Key Value) :
    LDBDatabase Key Value × Except DbError Unit :=
  if d.inBatch then
    ({ d with defaultBatch := d.defaultBatch ++ [change] }, .ok ())
  else if disk then ({ d with db := change.apply d.db }, .ok ())
  else (d, .error .writeFailed)

def put (disk : Bool) (key : Key) (value : Value)
    (d : LDBDatabase Key Value) :
    LDBDatabase Key Value × Except DbError Unit :=
  d.write disk (.put key value)

def delete (disk : Bool) (key : Key) (d : LDBDatabase Key Value) :
    LDBDatabase Key Value × Except DbError Unit :=
  d.write disk (.delete key)

omit [DecidableEq Key] in
/-- Open a transaction; the answer is `false` when one is already open. -/
def beginTx (d : LDBDatabase Key Value) : LDBDatabase Key Value × Bool :=
  if d.inBatch then (d, false) else ({ d with inBatch := true }, true)

omit [DecidableEq Key] in
def resetTx (d : LDBDatabase Key Value) : LDBDatabase Key Value :=
  { d with inBatch := false, defaultBatch := [] }

/-- Write the batch.  A failed write leaves the transaction open. -/
def commitTx (disk : Bool) (d : LDBDatabase Key Value) :
    LDBDatabase Key Value × Except DbError Unit :=
  if d.inBatch then
    if disk then
      (resetTx { d with db := applyAll d.defaultBatch d.db }, .ok ())
    else (d, .error .writeFailed)
  else (d, .error .noOpenTx)

omit [DecidableEq Key] in
def rollbackTx (d : LDBDatabase Key Value) :
    LDBDatabase Key Value × Except DbError Unit :=
  if d.inBatch then (d.resetTx, .ok ()) else (d, .error .noOpenTx)

section Buffered

variable (contents : Key → Option Value) (batch : List (Change Key Value))
  (disk : Bool)

@[simp] theorem put_inBatch (key : Key) (value : Value) :
    put disk key value ⟨contents, true, batch⟩ =
      (⟨contents, true, batch ++ [.put key value]⟩, .ok ()) := rfl

@[simp] theorem delete_inBatch (key : Key) :
    delete disk key ⟨contents, true, batch⟩ =
      (⟨contents, true, batch ++ [.delete key]⟩, .ok ()) := rfl

theorem put_direct (key : Key) (value : Value) :
    put true key value ⟨contents, false, batch⟩ =
      (⟨(Change.put key value).apply contents, false, batch⟩, .ok ()) := rfl

theorem delete_direct (key : Key) :
    delete true key ⟨contents, false, batch⟩ =
      (⟨(Change.delete key).apply contents, false, batch⟩, .ok ()) := rfl

omit [DecidableEq Key] in
@[simp] theorem rollbackTx_inBatch :
    rollbackTx (⟨contents, true, batch⟩ : LDBDatabase Key Value) =
      (⟨contents, false, []⟩, .ok ()) := rfl

theorem commitTx_inBatch :
    commitTx disk ⟨contents, true, batch⟩ =
      if disk then (⟨applyAll batch contents, false, []⟩, .ok ())
      else (⟨contents, true, batch⟩, .error .writeFailed) := by
  cases disk <;> rfl

omit [DecidableEq Key] in
theorem beginTx_of_idle {d : LDBDatabase Key Value} (idle : d.Idle) :
    d.beginTx = (⟨d.db, true, []⟩, true) := by
  obtain ⟨closed, empty⟩ := idle
  simp [beginTx, closed, empty]

omit [DecidableEq Key] in
theorem beginTx_of_open {d : LDBDatabase Key Value}
    (busy : d.inBatch = true) : d.beginTx = (d, false) := by
  simp [beginTx, busy]

end Buffered

section Failures

variable {d next : LDBDatabase Key Value} {disk : Bool} {failure : DbError}

theorem eq_of_put_error {key : Key} {value : Value}
    (failed : d.put disk key value = (next, .error failure)) : next = d := by
  simp only [put, write] at failed
  split at failed
  · cases failed
  · split at failed
    · cases failed
    · cases failed
      rfl

theorem eq_of_commitTx_error
    (failed : d.commitTx disk = (next, .error failure)) : next = d := by
  simp only [commitTx] at failed
  split at failed
  · split at failed
    · cases failed
    · cases failed
      rfl
  · cases failed
    rfl

omit [DecidableEq Key] in
theorem closed_of_beginTx (opened : d.beginTx = (next, true)) :
    d.inBatch = false := by
  simp only [beginTx] at opened
  split at opened
  · cases opened
  · rename_i closed
    exact Bool.not_eq_true _ ▸ closed

theorem eq_of_commitTx_ok {result : Unit}
    (committed : d.commitTx disk = (next, .ok result)) :
    next = ⟨applyAll d.defaultBatch d.db, false, []⟩ := by
  simp only [commitTx] at committed
  split at committed
  · split at committed
    · cases committed
      rfl
    · cases committed
  · cases committed

end Failures

end LDBDatabase

/-- One call on a handle, with the answer of the disk. -/
inductive DbCall (Key Value : Type) where
  | beginTx
  | put (disk : Bool) (key : Key) (value : Value)
  | delete (disk : Bool) (key : Key)
  | commitTx (disk : Bool)
  | rollbackTx

namespace DbCall

variable {Key Value : Type}

/-- The change a call asks for. -/
def change? : DbCall Key Value → Option (Change Key Value)
  | .put _ key value => some (.put key value)
  | .delete _ key => some (.delete key)
  | _ => none

/-- The call that makes a change. -/
def ofChange (disk : Bool) : Change Key Value → DbCall Key Value
  | .put key value => .put disk key value
  | .delete key => .delete disk key

def key? (call : DbCall Key Value) : Option Key :=
  call.change?.map Change.key

end DbCall

namespace LDBDatabase

variable {Key Value : Type} [DecidableEq Key]

def perform (d : LDBDatabase Key Value) :
    DbCall Key Value → LDBDatabase Key Value
  | .beginTx => d.beginTx.1
  | .put disk key value => (d.put disk key value).1
  | .delete disk key => (d.delete disk key).1
  | .commitTx disk => (d.commitTx disk).1
  | .rollbackTx => d.rollbackTx.1

omit [DecidableEq Key] in
/-- Nothing is left in the batch of a closed transaction. -/
def Clean (d : LDBDatabase Key Value) : Prop :=
  d.inBatch = false → d.defaultBatch = []

omit [DecidableEq Key] in
theorem Idle.clean {d : LDBDatabase Key Value} (idle : d.Idle) : d.Clean :=
  fun _ => idle.2

omit [DecidableEq Key] in
/-- The calls buffered so far touch keys of one kind only. -/
def Buffers (kind : Key → Prop) (d : LDBDatabase Key Value) : Prop :=
  ∀ change ∈ d.defaultBatch, kind change.key

omit [DecidableEq Key] in
theorem Idle.buffers {d : LDBDatabase Key Value} (idle : d.Idle)
    (kind : Key → Prop) : d.Buffers kind := by
  intro change member
  rw [idle.2] at member
  cases member

/-- What one call can do to a handle. -/
inductive Performs (d : LDBDatabase Key Value) (call : DbCall Key Value) :
    LDBDatabase Key Value → Prop where
  | nothing : Performs d call d
  | opened (closed : d.inBatch = false) :
      Performs d call { d with inBatch := true }
  | buffered (change : Change Key Value)
      (asked : call.change? = some change) (busy : d.inBatch = true) :
      Performs d call { d with defaultBatch := d.defaultBatch ++ [change] }
  | applied (change : Change Key Value)
      (asked : call.change? = some change) (closed : d.inBatch = false) :
      Performs d call { d with db := change.apply d.db }
  | committed (busy : d.inBatch = true) :
      Performs d call ⟨applyAll d.defaultBatch d.db, false, []⟩
  | dropped (busy : d.inBatch = true) : Performs d call ⟨d.db, false, []⟩

private theorem performs_write {d : LDBDatabase Key Value}
    {call : DbCall Key Value} (disk : Bool) {change : Change Key Value}
    (asked : call.change? = some change) :
    Performs d call (d.write disk change).1 := by
  obtain ⟨contents, inBatch, batch⟩ := d
  cases inBatch with
  | true => exact .buffered change asked rfl
  | false =>
      cases disk with
      | true => exact .applied change asked rfl
      | false => exact .nothing

theorem performs (d : LDBDatabase Key Value) (call : DbCall Key Value) :
    Performs d call (d.perform call) := by
  cases call with
  | put disk key value => exact performs_write disk rfl
  | delete disk key => exact performs_write disk rfl
  | beginTx =>
      obtain ⟨contents, inBatch, batch⟩ := d
      cases inBatch with
      | true => exact .nothing
      | false => exact .opened rfl
  | commitTx disk =>
      obtain ⟨contents, inBatch, batch⟩ := d
      cases inBatch with
      | true =>
          cases disk with
          | true => exact .committed rfl
          | false => exact .nothing
      | false => exact .nothing
  | rollbackTx =>
      obtain ⟨contents, inBatch, batch⟩ := d
      cases inBatch with
      | true => exact .dropped rfl
      | false => exact .nothing

section Calls

variable {d : LDBDatabase Key Value} {call : DbCall Key Value}

theorem perform_ofChange_of_busy (busy : d.inBatch = true) (disk : Bool)
    (change : Change Key Value) :
    d.perform (.ofChange disk change) =
      { d with defaultBatch := d.defaultBatch ++ [change] } := by
  obtain ⟨contents, inBatch, batch⟩ := d
  cases busy
  cases change <;> rfl

theorem perform_rollbackTx_of_busy (busy : d.inBatch = true) :
    d.perform .rollbackTx = ⟨d.db, false, []⟩ := by
  obtain ⟨contents, inBatch, batch⟩ := d
  cases busy
  rfl

theorem Clean.perform (clean : d.Clean) (call : DbCall Key Value) :
    (d.perform call).Clean := by
  have done := performs d call
  generalize d.perform call = next at done
  cases done with
  | nothing => exact clean
  | opened closed => exact nofun
  | buffered change asked busy =>
      intro closed
      rw [busy] at closed
      cases closed
  | applied change asked closed => exact clean
  | committed busy => exact fun _ => rfl
  | dropped busy => exact fun _ => rfl

omit [DecidableEq Key] in
theorem Clean.rollbackTx (clean : d.Clean) :
    d.rollbackTx.1.defaultBatch = [] := by
  obtain ⟨contents, inBatch, batch⟩ := d
  cases inBatch with
  | true => rfl
  | false => exact clean rfl

/-- Calls on keys of one kind keep to this kind: the batch holds no other key
and the contents under other keys stay. -/
theorem Buffers.perform {kind : Key → Prop} (buffers : d.Buffers kind)
    (within : ∀ change, call.change? = some change → kind change.key) :
    (d.perform call).Buffers kind ∧
      ∀ key, ¬ kind key → (d.perform call).db key = d.db key := by
  have done := performs d call
  generalize d.perform call = next at done
  cases done with
  | nothing => exact ⟨buffers, fun _ _ => rfl⟩
  | opened closed => exact ⟨buffers, fun _ _ => rfl⟩
  | buffered change asked busy =>
      refine ⟨?_, fun _ _ => rfl⟩
      intro other member
      rcases List.mem_append.mp member with earlier | last
      · exact buffers other earlier
      · rw [List.mem_singleton.mp last]
        exact within change asked
  | applied change asked closed =>
      refine ⟨buffers, ?_⟩
      intro key other
      apply Change.apply_of_ne
      intro same
      exact other (same ▸ within change asked)
  | committed busy =>
      refine ⟨nofun, ?_⟩
      intro key other
      apply applyAll_of_keys
      intro change member same
      exact other (same ▸ buffers change member)
  | dropped busy => exact ⟨nofun, fun _ _ => rfl⟩

/-- A key is present or will be when the batch is committed. -/
def Holds (d : LDBDatabase Key Value) (key : Key) : Prop :=
  d.db key ≠ none ∨ key ∈ putKeys d.defaultBatch

theorem Holds.of_perform {key : Key} (held : (d.perform call).Holds key)
    (unput : ∀ value, call.change? ≠ some (.put key value)) :
    d.Holds key := by
  have done := performs d call
  generalize d.perform call = next at done held
  cases done with
  | nothing => exact held
  | opened closed => exact held
  | buffered change asked busy =>
      rcases held with present | put
      · exact .inl present
      · right
        rw [putKeys_append] at put
        rcases List.mem_append.mp put with earlier | last
        · exact earlier
        · cases change with
          | delete key' => cases last
          | put key' value =>
              rw [List.mem_singleton.mp last] at unput
              exact (unput value asked).elim
  | applied change asked closed =>
      rcases held with present | put
      · left
        have applied : change.apply d.db key ≠ none := present
        cases change with
        | delete key' =>
            by_cases same : key = key'
            · simp [Change.apply, Change.outcome, same] at applied
            · rwa [Change.apply_of_ne same] at applied
        | put key' value =>
            have different : key ≠ key' := by
              rintro rfl
              exact unput value asked
            rwa [Change.apply_of_ne different] at applied
      · exact .inr put
  | committed busy =>
      rcases held with present | put
      · obtain ⟨value, found⟩ := Option.ne_none_iff_exists'.mp present
        rcases mem_of_applyAll _ _ found with before | put
        · left
          rw [before]
          exact Option.some_ne_none value
        · exact .inr put
      · cases put
  | dropped busy =>
      rcases held with present | put
      · exact .inl present
      · cases put

/-- A key that no buffered change and not this call deletes stays present. -/
theorem perform_ne_none {key : Key}
    (undeleted : key ∉ deletedKeys d.defaultBatch)
    (spared : call.change? ≠ some (.delete key)) :
    key ∉ deletedKeys (d.perform call).defaultBatch ∧
      (d.db key ≠ none → (d.perform call).db key ≠ none) := by
  have done := performs d call
  generalize d.perform call = next at done
  cases done with
  | nothing => exact ⟨undeleted, id⟩
  | opened closed => exact ⟨undeleted, id⟩
  | buffered change asked busy =>
      refine ⟨?_, id⟩
      rw [deletedKeys_append]
      intro member
      rcases List.mem_append.mp member with earlier | last
      · exact undeleted earlier
      · cases change with
        | put key' value => cases last
        | delete key' =>
            rw [List.mem_singleton.mp last] at spared
            exact spared asked
  | applied change asked closed =>
      refine ⟨undeleted, fun present => ?_⟩
      apply applyAll_ne_none [change] d.db present
      cases change with
      | put key' value => exact List.not_mem_nil
      | delete key' =>
          intro member
          rw [List.mem_singleton.mp member] at spared
          exact spared asked
  | committed busy =>
      exact ⟨List.not_mem_nil,
        fun present => applyAll_ne_none _ _ present undeleted⟩
  | dropped busy => exact ⟨List.not_mem_nil, id⟩

/-- The contents once the batch is committed. -/
def view (d : LDBDatabase Key Value) : Key → Option Value :=
  applyAll d.defaultBatch d.db

theorem Clean.view_eq (clean : d.Clean) (closed : d.inBatch = false) :
    d.view = d.db := by
  rw [view, clean closed, applyAll_nil]

theorem view_buffered (change : Change Key Value) :
    view { d with defaultBatch := d.defaultBatch ++ [change] } =
      change.apply d.view := by
  rw [view, applyAll_append]
  rfl

/-- A put that returns `nil` is in the view, whoever has opened the
transaction. -/
theorem Clean.put_cases (clean : d.Clean) (disk : Bool) (key : Key)
    (value : Value) :
    (d.put disk key value).1.inBatch = d.inBatch ∧
      (((d.put disk key value).2 = .ok () ∧
          (d.put disk key value).1.view =
            (Change.put key value).apply d.view) ∨
        ((∃ failure, (d.put disk key value).2 = .error failure) ∧
          (d.put disk key value).1.view = d.view)) := by
  obtain ⟨contents, inBatch, batch⟩ := d
  cases inBatch with
  | true => exact ⟨rfl, .inl ⟨rfl, view_buffered _⟩⟩
  | false =>
      cases disk with
      | true =>
          have empty : batch = [] := clean rfl
          subst empty
          exact ⟨rfl, .inl ⟨rfl, rfl⟩⟩
      | false => exact ⟨rfl, .inr ⟨⟨_, rfl⟩, rfl⟩⟩

end Calls

end LDBDatabase

end Plasma.Store
