import Plasma.Core.EventDelivery

/-!
# One database handle for several goroutines

A transaction is a mode of the database handle, so a put that the event loop
makes while a `WriteBlock` has a transaction open ends up in the batch of the
block.  Here any number of `WriteBlock`s and the event loop run side by side,
one database call at a time, and the puts of the loop are followed to the
committed contents.
-/

namespace Plasma.Core

open Plasma.Lib Plasma.Store

/-- The next database call of a `WriteBlock`: the changes of the block and the
commit, or the rollback. -/
inductive WriterPhase where
  | idle
  | writing (rest : List (Change DbKey DbValue))
  | rollbackTx

def WriterPhase.rollsBack : WriterPhase → Bool
  | .rollbackTx => true
  | _ => false

/-- The process with the `WriteBlock`s of its goroutines. -/
structure Shared (ι : Type) where
  client : Client
  writers : ι → WriterPhase

inductive SharedStep (ι : Type) where
  | mined (number : UInt64) (values : List EventValue)
  | loop (time : Int) (answer : Bool)
  | writeBlock (who : ι) (block : Block)
  | write (who : ι) (disk : Bool)

namespace Shared

variable {ι : Type} [DecidableEq ι]

section

variable (p : Primitives) (signer : EIP155Signer)
  (hashEvent : ContractEvent → EventHash × List UInt8)

omit [DecidableEq ι] in
def database (s : Shared ι) : Database := s.client.database

/-- One database call of a `WriteBlock`. -/
def perform (who : ι) (call : DbCall DbKey DbValue) (phase : WriterPhase)
    (s : Shared ι) : Shared ι :=
  { client := s.client.withDatabase (s.database.perform call)
    writers := Function.update s.writers who phase }

/-- `WriteBlock` up to its first change.  While the transaction is open nobody
changes the committed contents, so the block is validated at once. -/
def beginWrite (who : ι) (block : Block) (s : Shared ι) : Shared ι :=
  match s.writers who, s.client.node.chain? with
  | .idle, some chain =>
      match chain.db.beginTx with
      | (_, false) => s
      | (db, true) =>
          match chain.verdict p signer block with
          | .error _ =>
              { client := { s.client with
                  node := s.client.node.withChain
                    { chain.viewed p block with db := db } }
                writers := Function.update s.writers who .rollbackTx }
          | .ok _ =>
              { client := { s.client with
                  node := s.client.node.withChain
                    { (chain.viewed p block).headed p block with db := db } }
                writers := Function.update s.writers who
                  (.writing (chain.writeBatch p block)) }
  | _, _ => s

/-- The next call of a `WriteBlock`.  A failed commit is rolled back. -/
def nextWrite (who : ι) (disk : Bool) (s : Shared ι) : Shared ι :=
  match s.writers who with
  | .idle => s
  | .writing (change :: rest) =>
      s.perform who (.ofChange disk change) (.writing rest)
  | .writing [] =>
      match (s.database.commitTx disk).2 with
      | .ok _ => s.perform who (.commitTx disk) .idle
      | .error _ => s.perform who (.commitTx disk) .rollbackTx
  | .rollbackTx => s.perform who .rollbackTx .idle

/-- A step, with what the loop has changed. -/
def step (s : Shared ι) :
    SharedStep ι → Shared ι × List (Change DbKey DbValue)
  | .mined number values =>
      ({ s with
          client := (s.client.step p signer hashEvent
            (.mined number values)).1 }, [])
  | .loop time answer =>
      match s.client.node with
      | .stopped _ _ => (s, [])
      | _ =>
          ({ s with
              client := (s.client.loopEvents p signer hashEvent time answer).1 },
            s.client.loopChanges hashEvent answer)
  | .writeBlock who block => (s.beginWrite p signer who block, [])
  | .write who disk => (s.nextWrite who disk, [])

omit [DecidableEq ι] in
/-- A process whose event loop starts and in which no block is written. -/
def launched (node : Node) (log : List ContractEvent) : Shared ι :=
  { client := Client.launch node log
    writers := fun _ => .idle }

end

omit [DecidableEq ι] in
/-- The transaction that a `WriteBlock` rolls back holds no put of the loop. -/
def Spares (s : Shared ι) : SharedStep ι → Prop
  | .write who _ => (s.writers who).rollsBack = true →
      ∀ change ∈ s.database.defaultBatch, Node.isEventKey change.key = false
  | _ => True

omit [DecidableEq ι] in
instance (s : Shared ι) : DecidablePred s.Spares
  | .write who _ => inferInstanceAs (Decidable
      ((s.writers who).rollsBack = true → ∀ change ∈ s.database.defaultBatch,
        Node.isEventKey change.key = false))
  | .mined _ _ => isTrue trivial
  | .loop _ _ => isTrue trivial
  | .writeBlock _ _ => isTrue trivial

omit [DecidableEq ι] in
/-- Whether the loop, or a `WriteBlock`, has opened the transaction. -/
def Owns (s : Shared ι) : Option ι → Prop
  | none => ∃ keys rest, s.client.phase = .delete keys rest ∨
      s.client.phase = .commitTx rest ∨ s.client.phase = .rollbackTx rest
  | some who => s.writers who ≠ .idle

omit [DecidableEq ι] in
/-- The puts of the loop that it has not taken back itself are in the view of
the database, and the transaction belongs to nobody or to one owner. -/
structure Kept (s : Shared ι) (history : List (Change DbKey DbValue)) :
    Prop where
  clean : s.database.Clean
  owned : s.database.inBatch = false → ∀ owner, ¬ s.Owns owner
  alone : ∀ first second, s.Owns first → s.Owns second → first = second
  events : ∀ change ∈ history, Node.isEventKey change.key = true
  viewed : ∀ key value, lastEffect history key = some (some value) →
    s.database.view key = some value
  deletes : s.Owns none → ∀ change ∈ s.database.defaultBatch,
    lastEffect history change.key = some none
  blocks : ∀ who rest, s.writers who = .writing rest →
    ∀ change ∈ rest, Node.isEventKey change.key = false

variable {p : Primitives} {signer : EIP155Signer}
  {hashEvent : ContractEvent → EventHash × List UInt8} {s : Shared ι}
  {history : List (Change DbKey DbValue)}

namespace Kept

omit [DecidableEq ι]

theorem owns_of_client {client : Client}
    (loop : Owns { s with client := client } none → s.Owns none)
    {owner : Option ι} (owns : Owns { s with client := client } owner) :
    s.Owns owner := by
  cases owner with
  | none => exact loop owns
  | some who => exact owns

section Transitions

variable {next : Shared ι}
  (blocks : ∀ who rest, next.writers who = .writing rest →
    ∀ change ∈ rest, Node.isEventKey change.key = false)

include blocks

/-- The transaction belongs to nobody. -/
theorem of_nobody (clean : next.database.Clean)
    (nobody : ∀ owner, ¬ next.Owns owner)
    (events : ∀ change ∈ history, Node.isEventKey change.key = true)
    (viewed : ∀ key value, lastEffect history key = some (some value) →
      next.database.view key = some value) : Kept next history where
  clean := clean
  owned _ := nobody
  alone first _ owns := (nobody first owns).elim
  events := events
  viewed := viewed
  deletes owns := (nobody none owns).elim
  blocks := blocks

/-- The database stays as it is, and nobody becomes an owner. -/
theorem of_same (kept : Kept s history)
    (database : next.database = s.database)
    (owner_of : ∀ owner, next.Owns owner → s.Owns owner) :
    Kept next history := by
  refine ⟨?_, ?_, ?_, kept.events, ?_, ?_, blocks⟩
  · rw [database]
    exact kept.clean
  · rw [database]
    intro closed owner owns
    exact kept.owned closed owner (owner_of owner owns)
  · intro first second ownsFirst ownsSecond
    exact kept.alone first second (owner_of first ownsFirst)
      (owner_of second ownsSecond)
  · rw [database]
    exact kept.viewed
  · rw [database]
    intro owns
    exact kept.deletes (owner_of none owns)

/-- An owner opens the transaction. -/
theorem of_begun (kept : Kept s history)
    (closed : s.database.inBatch = false)
    (database : next.database = ⟨s.database.db, true, []⟩)
    (owner : Option ι) (only : ∀ other, next.Owns other → other = owner) :
    Kept next history := by
  have busy : next.database.inBatch ≠ false := by
    rw [database]
    exact Bool.false_ne_true.symm
  refine ⟨fun open' => (busy open').elim, fun open' => (busy open').elim,
    ?_, kept.events, ?_, ?_, blocks⟩
  · intro first second ownsFirst ownsSecond
    rw [only first ownsFirst, only second ownsSecond]
  · intro key value effect
    have before := kept.viewed key value effect
    rw [kept.clean.view_eq closed] at before
    rw [database]
    exact before
  · intro _ change member
    rw [database] at member
    cases member

end Transitions

theorem busy (kept : Kept s history) {owner : Option ι}
    (owns : s.Owns owner) : s.database.inBatch = true := by
  by_contra closed
  exact kept.owned (Bool.not_eq_true _ ▸ closed) owner owns

/-- The loop moves on without a database call. -/
theorem quiet (kept : Kept s history) {client : Client}
    (database : client.database = s.database)
    (loop : Owns { s with client := client } none → s.Owns none) :
    Kept { s with client := client } history :=
  of_same kept.blocks kept database fun _ => owns_of_client loop

/-- A put of the loop outside its own transaction. -/
theorem put (kept : Kept s history) {client : Client} {answer : Bool}
    {key : DbKey} {value : DbValue}
    (database : client.database = (s.database.put answer key value).1)
    (event : Node.isEventKey key = true)
    (free : ¬ Owns { s with client := client } none) :
    Kept { s with client := client }
      (history ++ match (s.database.put answer key value).2 with
        | .ok _ => [Change.put key value]
        | .error _ => []) := by
  have same : Shared.database { s with client := client } =
      (s.database.put answer key value).1 := database
  have clean : (s.database.put answer key value).1.Clean :=
    kept.clean.perform (.put answer key value)
  obtain ⟨inBatch, outcome⟩ := kept.clean.put_cases answer key value
  have loop : Owns { s with client := client } none → s.Owns none :=
    fun owns => (free owns).elim
  refine ⟨same ▸ clean, ?_, ?_, ?_, ?_, fun owns => (free owns).elim,
    kept.blocks⟩
  · rw [same, inBatch]
    intro closed owner owns
    exact kept.owned closed owner (owns_of_client loop owns)
  · intro first second ownsFirst ownsSecond
    exact kept.alone first second (owns_of_client loop ownsFirst)
      (owns_of_client loop ownsSecond)
  · intro change member
    rcases List.mem_append.mp member with earlier | last
    · exact kept.events change earlier
    · split at last
      · rw [List.mem_singleton.mp last]
        exact event
      · cases last
  · rw [same]
    intro other stored effect
    rcases outcome with ⟨result, view⟩ | ⟨⟨failure, result⟩, view⟩
    · simp only [result, lastEffect_append, lastEffect_singleton] at effect
      rw [view]
      by_cases here : other = key
      · have value : some value = some stored := by
          simpa [here, Change.outcome] using effect
        simp [Change.apply, here, Change.outcome, value]
      · have earlier : lastEffect history other = some (some stored) := by
          simpa [here] using effect
        rw [Change.apply_of_ne here]
        exact kept.viewed other stored earlier
    · simp only [result, List.append_nil] at effect
      rw [view]
      exact kept.viewed other stored effect

/-- A handler writes a block at once, or finds a transaction open. -/
theorem handler (kept : Kept s history) {client : Client}
    (spares : Node.SparesEvents s.database client.database)
    (busy : s.database.inBatch = true → client.database = s.database)
    (free : ¬ Owns { s with client := client } none) :
    Kept { s with client := client } history := by
  have loop : Owns { s with client := client } none → s.Owns none :=
    fun owns => (free owns).elim
  cases inBatch : s.database.inBatch with
  | true => exact kept.quiet (busy inBatch) loop
  | false =>
      have nobody : ∀ owner, ¬ Owns { s with client := client } owner :=
        fun owner owns =>
          kept.owned inBatch owner (owns_of_client loop owns)
      have clean : client.database.Clean := spares.clean kept.clean
      refine of_nobody kept.blocks clean nobody kept.events ?_
      intro key value effect
      obtain ⟨change, member, same⟩ := mem_of_lastEffect history effect
      have event : Node.isEventKey key = true :=
        same ▸ kept.events change member
      have before := kept.viewed key value effect
      rw [kept.clean.view_eq inBatch] at before
      rw [← spares.get_eq event] at before
      rcases spares with unchanged | ⟨idle, _⟩
      · exact (kept.quiet unchanged loop).viewed key value effect
      · have view : client.database.view = client.database.db :=
          idle.clean.view_eq idle.1
        exact (congrFun view key).trans before

/-- The loop opens its transaction. -/
theorem begun (kept : Kept s history) {client : Client}
    (closed : s.database.inBatch = false)
    (database : client.database = ⟨s.database.db, true, []⟩) :
    Kept { s with client := client } history := by
  refine of_begun kept.blocks kept closed database none ?_
  intro owner owns
  cases owner with
  | none => rfl
  | some who => exact (kept.owned closed (some who) owns).elim

/-- The owner of the transaction ends it. -/
theorem ended (kept : Kept s history) {client : Client}
    {writers : ι → WriterPhase} {owner : Option ι} (owns : s.Owns owner)
    (idle : client.database.Idle)
    (free : ¬ Owns ⟨client, writers⟩ owner)
    (others : ∀ other, other ≠ owner → Owns ⟨client, writers⟩ other →
      s.Owns other)
    (viewed : ∀ key value, lastEffect history key = some (some value) →
      client.database.db key = some value)
    (blocks : ∀ who rest, writers who = .writing rest →
      ∀ change ∈ rest, Node.isEventKey change.key = false) :
    Kept ⟨client, writers⟩ history := by
  have nobody : ∀ other, ¬ Owns ⟨client, writers⟩ other := by
    intro other still
    by_cases same : other = owner
    · exact free (same ▸ still)
    · exact same (kept.alone other owner (others other same still) owns)
  refine of_nobody blocks idle.clean nobody kept.events ?_
  intro key value effect
  have view : client.database.view = client.database.db :=
    idle.clean.view_eq idle.1
  exact (congrFun view key).trans (viewed key value effect)

/-- The loop deletes a marker in its own transaction. -/
theorem deleted (kept : Kept s history) {client : Client} {key : EventHash}
    {answer : Bool} (owns : s.Owns none)
    (database : client.database =
      (s.database.delete answer (.eventMarker key)).1) :
    Kept { s with client := client }
      (history ++ [.delete (.eventMarker key)]) := by
  have busy : s.database.inBatch = true := kept.busy owns
  have buffered : Shared.database { s with client := client } =
      { s.database with
        defaultBatch := s.database.defaultBatch ++
          [.delete (.eventMarker key)] } :=
    database.trans (LDBDatabase.perform_ofChange_of_busy busy answer
      (.delete (.eventMarker key)))
  have effect_append : ∀ other,
      lastEffect (history ++ [.delete (.eventMarker key)]) other =
        if other = .eventMarker key then some none
        else lastEffect history other := by
    intro other
    rw [lastEffect_append, lastEffect_singleton]
    by_cases here : other = .eventMarker key
    · simp [here, Change.outcome]
    · simp [here]
  have loop : Owns { s with client := client } none → s.Owns none :=
    fun _ => owns
  refine ⟨?_, ?_, ?_, ?_, ?_, ?_, kept.blocks⟩
  · rw [buffered]
    intro closed
    rw [busy] at closed
    cases closed
  · rw [buffered]
    intro closed
    rw [busy] at closed
    cases closed
  · intro first second ownsFirst ownsSecond
    exact kept.alone first second (owns_of_client loop ownsFirst)
      (owns_of_client loop ownsSecond)
  · intro change member
    rcases List.mem_append.mp member with earlier | last
    · exact kept.events change earlier
    · rw [List.mem_singleton.mp last]
      rfl
  · intro other value effect
    rw [effect_append] at effect
    rw [buffered, LDBDatabase.view_buffered]
    split at effect
    · cases effect
    · rename_i different
      rw [Change.apply_of_ne different]
      exact kept.viewed other value effect
  · intro _ change member
    rw [buffered] at member
    rw [effect_append]
    split
    · rfl
    · rename_i different
      rcases List.mem_append.mp member with earlier | last
      · exact kept.deletes owns change earlier
      · rw [List.mem_singleton.mp last] at different
        exact (different rfl).elim

/-- What a rollback drops when the batch holds no put of the loop that counts. -/
theorem contents (kept : Kept s history)
    (spares : ∀ change ∈ s.database.defaultBatch,
      ∀ value, lastEffect history change.key ≠ some (some value))
    {key : DbKey} {value : DbValue}
    (effect : lastEffect history key = some (some value)) :
    s.database.db key = some value := by
  have viewed := kept.viewed key value effect
  rw [LDBDatabase.view, applyAll_of_keys] at viewed
  · exact viewed
  · intro change member same
    exact spares change member value (same ▸ effect)

theorem loop (kept : Kept s history) {next : Client} {time : Int}
    {answer : Bool} {reports : List LoopReport}
    (moves : s.client.Moves p signer hashEvent time answer next reports) :
    Kept { s with client := next }
      (history ++ s.client.loopChanges hashEvent answer) := by
  have free : ∀ client : Client,
      (∀ keys rest, client.phase ≠ .delete keys rest ∧
        client.phase ≠ .commitTx rest ∧ client.phase ≠ .rollbackTx rest) →
      ¬ Owns { s with client := client } none := by
    rintro client outside ⟨keys, rest, phase | phase | phase⟩
    · exact (outside keys rest).1 phase
    · exact (outside keys rest).2.1 phase
    · exact (outside keys rest).2.2 phase
  have still : ∀ client : Client,
      (∀ keys rest, client.phase ≠ .delete keys rest ∧
        client.phase ≠ .commitTx rest ∧ client.phase ≠ .rollbackTx rest) →
      Owns { s with client := client } none → s.Owns none :=
    fun client outside owns => (free client outside owns).elim
  have others : ∀ client : Client, ∀ other, other ≠ none →
      Owns { s with client := client } other → s.Owns other := by
    intro client other different owns
    cases other with
    | none => exact (different rfl).elim
    | some who => exact owns
  have silent : s.client.loopChanges hashEvent answer = [] →
      history ++ s.client.loopChanges hashEvent answer = history := by
    intro nothing
    rw [nothing, List.append_nil]
  cases moves with
  | gaveUp blockNum hashList unchanged =>
      rw [silent unchanged]
      exact kept.quiet rfl (still _ (by simp))
  | fetched phase =>
      rw [silent (by simp only [Client.loopChanges, phase])]
      exact kept.quiet rfl (still _ (by simp))
  | exhausted phase =>
      rw [silent (by simp only [Client.loopChanges, phase])]
      exact kept.quiet rfl (still _ (by simp))
  | skipped event rest phase stored =>
      rw [silent (by simp only [Client.loopChanges, phase])]
      exact kept.quiet rfl (still _ (by simp))
  | found event rest phase absent =>
      rw [silent (by simp only [Client.loopChanges, phase])]
      exact kept.quiet rfl (still _ (by simp))
  | called event rest phase =>
      rw [silent (by simp only [Client.loopChanges, phase])]
      refine kept.handler ?_ ?_ (free _ (by simp))
      · exact s.client.node.sub_sparesEvents p signer time answer event
          kept.clean
      · exact s.client.node.sub_database_of_busy p signer time answer event
  | marked event rest phase more =>
      simp only [Client.loopChanges, phase]
      exact kept.put (Node.database_withDatabase _ _) rfl (free _ (by simp))
  | ended event rest phase last =>
      simp only [Client.loopChanges, phase]
      exact kept.put (Node.database_withDatabase _ _) rfl (free _ (by simp))
  | numbered rest phase =>
      simp only [Client.loopChanges, phase]
      exact kept.put (Node.database_withDatabase _ _) rfl (free _ (by simp))
  | refused rest phase =>
      rw [silent (by simp only [Client.loopChanges, phase])]
      exact kept.quiet rfl (still _ (by simp))
  | begun rest phase closed =>
      rw [silent (by simp only [Client.loopChanges, phase])]
      refine kept.begun closed ((Node.database_withDatabase _ _).trans ?_)
      exact congrArg Prod.fst
        (LDBDatabase.beginTx_of_idle ⟨closed, kept.clean closed⟩)
  | deleted key keys rest phase =>
      have owns : s.Owns none := ⟨key :: keys, rest, .inl phase⟩
      simp only [Client.loopChanges, phase]
      exact kept.deleted owns (Node.database_withDatabase _ _)
  | drained rest phase =>
      rw [silent (by simp only [Client.loopChanges, phase])]
      exact kept.quiet rfl fun _ => ⟨[], rest, .inl phase⟩
  | committed rest phase done =>
      rw [silent (by simp only [Client.loopChanges, phase])]
      have owns : s.Owns none := ⟨[], rest, .inr (.inl phase)⟩
      have database : Client.database { s.client.withDatabase
          (s.client.database.perform (.commitTx answer)) with
            hashList := [], phase := .next rest } =
          ⟨s.database.view, false, []⟩ :=
        (Node.database_withDatabase _ _).trans done
      refine kept.ended owns ?_ (free _ (by simp)) ?_ ?_ kept.blocks
      · rw [database]
        exact ⟨rfl, rfl⟩
      · exact others _
      · rw [database]
        exact kept.viewed
  | uncommitted rest phase =>
      rw [silent (by simp only [Client.loopChanges, phase])]
      exact kept.quiet rfl fun _ => ⟨[], rest, .inr (.inl phase)⟩
  | rolledBack rest phase =>
      rw [silent (by simp only [Client.loopChanges, phase])]
      have owns : s.Owns none := ⟨[], rest, .inr (.inr phase)⟩
      have database : Client.database { s.client.withDatabase
          (s.client.database.perform .rollbackTx) with
            phase := .next rest } = ⟨s.database.db, false, []⟩ :=
        (Node.database_withDatabase _ _).trans
          (LDBDatabase.perform_rollbackTx_of_busy (kept.busy owns))
      refine kept.ended owns ?_ (free _ (by simp)) ?_ ?_ kept.blocks
      · rw [database]
        exact ⟨rfl, rfl⟩
      · exact others _
      · rw [database]
        intro key value effect
        refine kept.contents ?_ effect
        intro change member other
        rw [kept.deletes owns change member]
        rintro ⟨⟩

end Kept

namespace Kept

/-- A `WriteBlock` moves on: the other owners stay. -/
theorem owns_of_update {client : Client} {who : ι} {phase : WriterPhase}
    (loop : client.phase = s.client.phase) {owner : Option ι}
    (different : owner ≠ some who)
    (owns : Owns ⟨client, Function.update s.writers who phase⟩ owner) :
    s.Owns owner := by
  cases owner with
  | none =>
      simp only [Owns, loop] at owns
      exact owns
  | some other =>
      have elsewhere : other ≠ who := by
        rintro rfl
        exact different rfl
      simp only [Owns, Function.update_of_ne elsewhere] at owns
      exact owns

theorem owns_of_perform {who : ι} (owns : s.Owns (some who))
    {call : DbCall DbKey DbValue} {phase : WriterPhase} {owner : Option ι}
    (still : (s.perform who call phase).Owns owner) : s.Owns owner := by
  by_cases own : owner = some who
  · rw [own]
    exact owns
  · exact owns_of_update rfl own still

theorem blocks_update (kept : Kept s history) (who : ι)
    {phase : WriterPhase}
    (block : ∀ rest, phase = .writing rest →
      ∀ change ∈ rest, Node.isEventKey change.key = false)
    (other : ι) (rest : List (Change DbKey DbValue))
    (writing : Function.update s.writers who phase other = .writing rest) :
    ∀ change ∈ rest, Node.isEventKey change.key = false := by
  by_cases here : other = who
  · rw [here, Function.update_self] at writing
    exact block rest writing
  · rw [Function.update_of_ne here] at writing
    exact kept.blocks other rest writing

/-- A `WriteBlock` opens its transaction. -/
theorem opened (kept : Kept s history) {client : Client} {who : ι}
    {phase : WriterPhase} (closed : s.database.inBatch = false)
    (database : client.database = ⟨s.database.db, true, []⟩)
    (loop : client.phase = s.client.phase)
    (block : ∀ rest, phase = .writing rest →
      ∀ change ∈ rest, Node.isEventKey change.key = false) :
    Kept ⟨client, Function.update s.writers who phase⟩ history := by
  refine of_begun (kept.blocks_update who block) kept closed database
    (some who) ?_
  intro owner owns
  by_contra different
  exact kept.owned closed owner (owns_of_update loop different owns)

theorem beginWrite (kept : Kept s history) (who : ι) (block : Block) :
    Kept (s.beginWrite p signer who block) history := by
  simp only [Shared.beginWrite]
  split
  · rename_i chain idle running
    have database : s.database = chain.db := Node.database_of_chain running
    split
    · exact kept
    · rename_i db outcome
      have closed : s.database.inBatch = false := by
        rw [database]
        exact LDBDatabase.closed_of_beginTx outcome
      have opens : db = ⟨s.database.db, true, []⟩ := by
        have begun := LDBDatabase.beginTx_of_idle
          ⟨closed, kept.clean closed⟩
        rw [database, outcome] at begun
        rw [database]
        exact (Prod.mk.inj begun).1
      split
      · refine kept.opened closed ?_ rfl nofun
        exact (Node.database_withChain running _).trans opens
      · refine kept.opened closed ?_ rfl ?_
        · exact (Node.database_withChain running _).trans opens
        · rintro rest ⟨⟩ change member
          exact Node.isEventKey_of_touches p
            (BlockChain.touches_writeBatch p member)
  · exact kept

/-- A `WriteBlock` makes a change in its own transaction. -/
theorem written (kept : Kept s history) {who : ι} {disk : Bool}
    {change : Change DbKey DbValue} {rest : List (Change DbKey DbValue)}
    (phase : s.writers who = .writing (change :: rest)) :
    Kept (s.perform who (.ofChange disk change) (.writing rest)) history := by
  have owns : s.Owns (some who) := by
    rw [Owns, phase]
    exact nofun
  have busy := kept.busy owns
  have other : Node.isEventKey change.key = false :=
    kept.blocks who (change :: rest) phase change List.mem_cons_self
  have buffered : (s.perform who (.ofChange disk change)
      (.writing rest)).database =
      { s.database with
        defaultBatch := s.database.defaultBatch ++ [change] } :=
    (Node.database_withDatabase _ _).trans
      (LDBDatabase.perform_ofChange_of_busy busy disk change)
  refine ⟨?_, ?_, ?_, kept.events, ?_, ?_, kept.blocks_update who ?_⟩
  · rw [buffered]
    intro closed
    rw [busy] at closed
    cases closed
  · rw [buffered]
    intro closed
    rw [busy] at closed
    cases closed
  · intro first second ownsFirst ownsSecond
    exact kept.alone first second (owns_of_perform owns ownsFirst)
      (owns_of_perform owns ownsSecond)
  · intro key value effect
    obtain ⟨own, member, same⟩ := mem_of_lastEffect history effect
    have different : key ≠ change.key := by
      intro equal
      have event := kept.events own member
      rw [same, equal, other] at event
      cases event
    rw [buffered, LDBDatabase.view_buffered, Change.apply_of_ne different]
    exact kept.viewed key value effect
  · intro still
    cases kept.alone none (some who) (owns_of_perform owns still) owns
  · rintro _ ⟨⟩ later member
    exact kept.blocks who (change :: rest) phase later
      (List.mem_cons_of_mem change member)

/-- A `WriteBlock` ends its transaction. -/
theorem finished (kept : Kept s history) {who : ι}
    (owns : s.Owns (some who)) {call : DbCall DbKey DbValue}
    {contents : Contents}
    (database : s.database.perform call = ⟨contents, false, []⟩)
    (viewed : ∀ key value, lastEffect history key = some (some value) →
      contents key = some value) :
    Kept (s.perform who call .idle) history := by
  have same : (s.client.withDatabase (s.database.perform call)).database =
      ⟨contents, false, []⟩ :=
    (Node.database_withDatabase _ _).trans database
  refine kept.ended owns ?_ ?_ ?_ ?_ (kept.blocks_update who nofun)
  · rw [same]
    exact ⟨rfl, rfl⟩
  · simp only [Owns, Function.update_self]
    exact fun still => still rfl
  · intro other different still
    exact owns_of_update rfl different still
  · rw [same]
    exact viewed

/-- A failed commit leaves the transaction open for the rollback. -/
theorem uncommitted (kept : Kept s history) {who : ι}
    (owns : s.Owns (some who)) {disk : Bool} {failure : DbError}
    (failed : (s.database.commitTx disk).2 = .error failure) :
    Kept (s.perform who (.commitTx disk) .rollbackTx) history := by
  have same : (s.perform who (.commitTx disk) .rollbackTx).database =
      s.database :=
    (Node.database_withDatabase _ _).trans
      (LDBDatabase.eq_of_commitTx_error (Prod.ext rfl failed))
  exact of_same (kept.blocks_update who nofun) kept same fun _ =>
    owns_of_perform owns

theorem nextWrite (kept : Kept s history) {who : ι} {disk : Bool}
    (spares : s.Spares (.write who disk)) :
    Kept (s.nextWrite who disk) history := by
  have owns_of : s.writers who ≠ .idle → s.Owns (some who) := id
  simp only [Shared.nextWrite]
  split
  · exact kept
  · rename_i phase
    exact kept.written phase
  · rename_i phase
    have owns : s.Owns (some who) := owns_of (by rw [phase]; exact nofun)
    split
    · rename_i committed
      exact kept.finished owns
        (LDBDatabase.eq_of_commitTx_ok (Prod.ext rfl committed)) kept.viewed
    · rename_i failed
      exact kept.uncommitted owns failed
  · rename_i phase
    have owns : s.Owns (some who) := owns_of (by rw [phase]; exact nofun)
    have others := spares (by rw [phase]; rfl)
    refine kept.finished owns
      (LDBDatabase.perform_rollbackTx_of_busy (kept.busy owns)) ?_
    intro key value effect
    refine kept.contents ?_ effect
    intro change member stored last
    obtain ⟨own, recorded, same⟩ := mem_of_lastEffect history last
    have event := kept.events own recorded
    rw [same, others change member] at event
    cases event

theorem step (kept : Kept s history) {input : SharedStep ι}
    (spares : s.Spares input) :
    Kept (s.step p signer hashEvent input).1
      (history ++ (s.step p signer hashEvent input).2) := by
  have silent : history ++ [] = history := List.append_nil history
  cases input with
  | mined number values =>
      simp only [Shared.step, Client.step, silent]
      split
      · exact kept.quiet rfl id
      · exact kept
  | loop time answer =>
      simp only [Shared.step]
      split
      · rw [silent]
        exact kept
      · exact kept.loop
          (Client.loopEvents_moves p signer hashEvent time answer s.client)
  | writeBlock who block =>
      simp only [Shared.step, silent]
      exact kept.beginWrite who block
  | write who disk =>
      simp only [Shared.step, silent]
      exact kept.nextWrite spares

end Kept

omit [DecidableEq ι] in
theorem kept_launched {node : Node} (idle : node.database.Idle)
    (log : List ContractEvent) :
    Kept (launched node log : Shared ι) [] := by
  have nobody : ∀ owner, ¬ (launched node log : Shared ι).Owns owner := by
    rintro (_ | who) owns
    · obtain ⟨_, _, phase | phase | phase⟩ := owns <;> cases phase
    · exact owns rfl
  refine Kept.of_nobody ?_ idle.clean nobody ?_ ?_
  · intro who rest writing
    cases writing
  · intro change member
    cases member
  · intro key value effect
    cases effect

/-!
## A block written alone
-/

section Alone

variable (p signer hashEvent)

private theorem execute_writes {who : ι} (disk : Bool)
    (rest : List (Change DbKey DbValue)) :
    ∀ s : Shared ι, s.writers who = .writing rest →
      s.database.inBatch = true →
        execute (step p signer hashEvent) s
            (List.replicate rest.length (.write who disk)) =
          ({ client := s.client.withDatabase { s.database with
                defaultBatch := s.database.defaultBatch ++ rest }
             writers := Function.update s.writers who (.writing []) }, []) := by
  induction rest with
  | nil =>
      intro s phase _
      have writers : Function.update s.writers who (.writing []) =
          s.writers := by
        rw [← phase, Function.update_eq_self]
      have database : s.client.withDatabase s.database = s.client := by
        rw [Client.withDatabase, database, Client.database,
          Node.withDatabase_self]
      simp only [List.append_nil]
      rw [writers, database]
      rfl
  | cons change rest induction =>
      intro s phase busy
      have next : step p signer hashEvent s (.write who disk) =
          (s.perform who (.ofChange disk change) (.writing rest), []) := by
        simp only [step, nextWrite, phase]
      have buffered : (s.perform who (.ofChange disk change)
          (.writing rest)).database = { s.database with
            defaultBatch := s.database.defaultBatch ++ [change] } :=
        (Node.database_withDatabase _ _).trans
          (LDBDatabase.perform_ofChange_of_busy busy disk change)
      rw [List.length_cons, List.replicate_succ, execute_cons, next,
        induction _ (Function.update_self ..) (by rw [buffered]; exact busy)]
      rw [buffered]
      simp only [perform, Client.withDatabase, Node.withDatabase_withDatabase,
        Function.update_idem, List.append_assoc, List.singleton_append,
        List.append_nil]

private theorem execute_idle {who : ι} (disk : Bool) (count : Nat)
    {s : Shared ι} (idle : s.writers who = .idle) :
    execute (step p signer hashEvent) s
      (List.replicate count (.write who disk)) = (s, []) := by
  induction count with
  | zero => rfl
  | succ count induction =>
      have next : step p signer hashEvent s (.write who disk) = (s, []) := by
        simp only [step, nextWrite, idle]
      rw [List.replicate_succ, execute_cons, next, induction]
      rfl

section

variable {who : ι} {s : Shared ι}

omit p signer hashEvent in
private theorem nextWrite_rolledBack (phase : s.writers who = .rollbackTx)
    (busy : s.database.inBatch = true) (disk : Bool) :
    s.nextWrite who disk =
      ⟨s.client.withDatabase ⟨s.database.db, false, []⟩,
        Function.update s.writers who .idle⟩ := by
  simp only [nextWrite, phase, perform,
    LDBDatabase.perform_rollbackTx_of_busy busy]

omit p signer hashEvent in
private theorem nextWrite_committed (phase : s.writers who = .writing [])
    (busy : s.database.inBatch = true) :
    s.nextWrite who true =
      ⟨s.client.withDatabase ⟨s.database.view, false, []⟩,
        Function.update s.writers who .idle⟩ := by
  have committed : s.database.commitTx true =
      (⟨s.database.view, false, []⟩, .ok ()) := by
    simp [LDBDatabase.commitTx, busy, LDBDatabase.resetTx, LDBDatabase.view]
  simp only [nextWrite, phase, committed, perform, LDBDatabase.perform]

omit p signer hashEvent in
private theorem nextWrite_failed (phase : s.writers who = .writing [])
    (busy : s.database.inBatch = true) :
    s.nextWrite who false =
      ⟨s.client, Function.update s.writers who .rollbackTx⟩ := by
  have failed : s.database.commitTx false =
      (s.database, .error .writeFailed) := by
    simp [LDBDatabase.commitTx, busy]
  have unchanged : s.client.withDatabase s.database = s.client := by
    rw [Client.withDatabase, database, Client.database, Node.withDatabase_self]
  simp only [nextWrite, phase, failed, perform, LDBDatabase.perform, unchanged]

end

private theorem execute_write (s : Shared ι) (who : ι) (disk : Bool)
    (rest : List (SharedStep ι)) :
    (execute (step p signer hashEvent) s (.write who disk :: rest)).1 =
      (execute (step p signer hashEvent) (s.nextWrite who disk) rest).1 := rfl

/-- Without other calls in between, the calls of a `WriteBlock` do what
`Operator.writeBlock` does at once. -/
theorem execute_writeBlock {s : Shared ι} {o : Operator} {who : ι}
    (operator : s.client.node = .operator o) (idle : s.database.Idle)
    (free : s.writers who = .idle) (disk : Bool) (block : Block) :
    (execute (step p signer hashEvent) s
      (.writeBlock who block ::
        List.replicate ((o.chain.writeBatch p block).length + 2)
          (.write who disk))).1 =
      { s with client := { s.client with
          node := .operator (o.writeBlock p signer disk block).1 } } := by
  have running : s.client.node.chain? = some o.chain := by
    rw [operator]
    rfl
  have database : s.database = o.chain.db := Node.database_of_chain running
  rw [database] at idle
  have begun := LDBDatabase.beginTx_of_idle idle
  have restored : Function.update s.writers who .idle = s.writers := by
    rw [← free, Function.update_eq_self]
  have written := BlockChain.writeWith_of_idle p
    (Operator.buffersDeletions_removeInputs disk) signer disk o.chain block
    idle
  have unopened : ∀ view : BlockChain, view.db = o.chain.db →
      { view with db := ⟨o.chain.db.db, false, []⟩ } = view := by
    intro view same
    rw [← idle.eq_mk, ← same]
  let after := fun chain : BlockChain => ({ s with client := { s.client with
    node := .operator { o with chain := chain } } } : Shared ι)
  have first : (step p signer hashEvent s (.writeBlock who block)).1 =
      s.beginWrite p signer who block := rfl
  rw [execute_cons, first]
  simp only [beginWrite, free, running, begun]
  simp only [operator, Node.withChain, Operator.writeBlock, written]
  cases verdict : o.chain.verdict p signer block with
  | error failure =>
      simp only
      rw [List.replicate_succ, execute_write,
        nextWrite_rolledBack (Function.update_self ..) rfl,
        execute_idle p signer hashEvent disk _ (Function.update_self ..),
        Function.update_idem, restored]
      exact congrArg after
        (unopened _ (BlockChain.viewed_db p o.chain block))
  | ok accepted =>
      simp only
      rw [List.replicate_add, execute_append,
        execute_writes p signer hashEvent disk _ _ (Function.update_self ..)
          rfl, Function.update_idem]
      cases disk with
      | true =>
          rw [List.replicate_succ, execute_write,
            nextWrite_committed (Function.update_self ..) rfl,
            execute_idle p signer hashEvent true _ (Function.update_self ..),
            Function.update_idem, restored]
          rfl
      | false =>
          rw [List.replicate_succ, execute_write,
            nextWrite_failed (Function.update_self ..) rfl,
            List.replicate_succ, execute_write,
            nextWrite_rolledBack (Function.update_self ..) rfl,
            execute_idle p signer hashEvent false _ (Function.update_self ..),
            Function.update_idem, Function.update_idem, restored]
          exact congrArg after
            (unopened ((o.chain.viewed p block).headed p block) (by simp))

end Alone

/-- Whenever no transaction is open, the last put of the loop under a key that
returned `nil` and that the loop has not deleted itself is in the committed
contents. -/
theorem loop_puts_committed {node : Node} {log : List ContractEvent}
    {steps : List (SharedStep ι)} {s : Shared ι}
    {history : List (Change DbKey DbValue)} (idle : node.database.Idle)
    (reached : (s, history) =
      execute (step p signer hashEvent) (launched node log) steps)
    (spares : StepsMeet (step p signer hashEvent) Spares (launched node log)
      steps)
    (closed : s.database.inBatch = false) {key : DbKey} {value : DbValue}
    (stored : lastEffect history key = some (some value)) :
    s.database.get key = some value := by
  have final := execute_induction (step p signer hashEvent) Spares
    (fun _ s history => Kept s history)
    (fun _ s history input kept spares => kept.step spares)
    (kept_launched idle log) spares
  rw [← reached] at final
  have viewed := final.viewed key value stored
  rw [final.clean.view_eq closed] at viewed
  exact viewed

/-- The operator after its first start. -/
def sampleNode : Node :=
  Node.start Sample.primitives true (.operator Sample.operatorAddr)
    Database.empty

theorem sampleNode_idle : sampleNode.database.Idle := by
  have gains : GainsStartData Database.empty sampleNode.database :=
    gainsStartData_start Sample.primitives true
      (.operator Sample.operatorAddr) rfl
  exact ⟨gains.1, gains.2.1⟩

def sampleRun (steps : List (SharedStep Unit)) :
    Shared Unit × List (Change DbKey DbValue) :=
  execute (step Sample.primitives Sample.signer Client.sampleHash)
    (launched sampleNode []) steps

theorem sampleRun_reached (steps : List (SharedStep Unit)) :
    ((sampleRun steps).1, (sampleRun steps).2) =
      execute (step Sample.primitives Sample.signer Client.sampleHash)
        (launched sampleNode []) steps := rfl

/-- The marker of the deposit. -/
def sampleKey : DbKey :=
  .eventMarker (Client.sampleHash Client.sampleEvent).1

/-- The loop has written the block of the deposit and is about to store the
marker. -/
def handledRun : List (SharedStep Unit) :=
  .mined 100 [.deposit ⟨Sample.alice, 1, 0, 5⟩] ::
    List.replicate 3 (.loop Sample.now true)

/-- The marker is stored while a block that spends the deposit is written. -/
def sharedRun : List (SharedStep Unit) :=
  handledRun ++
    .writeBlock () ⟨Sample.header 0 Sample.spendRoot 1000, [Sample.spend]⟩ ::
      .loop Sample.now true :: List.replicate 12 (.write () true)

theorem marker_committed_with_block :
    (sampleRun sharedRun).1.database.get sampleKey ≠ none := by
  have spares : StepsMeet
      (step Sample.primitives Sample.signer Client.sampleHash) Spares
      (launched sampleNode []) sharedRun := by
    decide +kernel
  have closed : (sampleRun sharedRun).1.database.inBatch = false := by
    decide +kernel
  have put : (lastEffect (sampleRun sharedRun).2 sampleKey).join.isSome =
      true := by
    decide +kernel
  obtain ⟨value, last⟩ := Option.isSome_iff_exists.mp put
  have stored := Option.join_eq_some_iff.mp last
  rw [loop_puts_committed sampleNode_idle (sampleRun_reached sharedRun) spares
    closed stored]
  exact Option.some_ne_none value

/-- A block with another transaction root is refused between the put of the
marker and the next call of the loop. -/
def rolledBackRun : List (SharedStep Unit) :=
  handledRun ++
    [.writeBlock () ⟨Sample.header 0 Sample.emptyRoot 1000, [Sample.spend]⟩,
      .loop Sample.now true, .write () true]

theorem marker_dropped_with_block :
    (sampleRun rolledBackRun).1.database.inBatch = false ∧
      (∃ value, lastEffect (sampleRun rolledBackRun).2 sampleKey =
        some (some value)) ∧
      (sampleRun rolledBackRun).1.database.get sampleKey = none := by
  have put : (lastEffect (sampleRun rolledBackRun).2 sampleKey).join.isSome =
      true := by
    decide +kernel
  refine ⟨by decide +kernel, ?_, by decide +kernel⟩
  obtain ⟨value, last⟩ := Option.isSome_iff_exists.mp put
  exact ⟨value, Option.join_eq_some_iff.mp last⟩

end Shared

end Plasma.Core
