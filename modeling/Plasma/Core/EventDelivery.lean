import Plasma.Core.EventLoop

/-!
# Delivery of root chain events

Whether every event of the root chain reaches its handler, and how often, over
all interleavings of the event loop with the rest of the process, restarts
included.
-/

namespace Plasma.Core

open Plasma.Lib Plasma.Store

/-!
## Bookkeeping of the loop
-/

/-- The handler of the event was called and returned `nil`. -/
def Handled (history : List LoopReport) (event : ContractEvent) : Prop :=
  .handled event (.ok ()) ∈ history

theorem Handled.append {history : List LoopReport} {event : ContractEvent}
    (handled : Handled history event) (extra : List LoopReport) :
    Handled (history ++ extra) event :=
  List.mem_append_left extra handled

/-- The loop works on a batch of the log: what lies before it has been seen
and what was logged since lies in later blocks. -/
def InBatch (log : List ContractEvent) (seen : ContractEvent → Prop)
    (pending : List ContractEvent) : Prop :=
  ∃ done grown, log = done ++ pending ++ grown ∧
    (∀ event ∈ done, firstBlock ≤ event.blockNum.toNat → seen event) ∧
    ∀ event ∈ done ++ pending, ∀ later ∈ grown,
      event.blockNum < later.blockNum

/-- A list in which `P` stays true once it is true. -/
theorem eq_filter_append_filter {α : Type*} (P : α → Bool) {items : List α}
    (stays : items.Pairwise fun first second =>
      P first = true → P second = true) :
    items = items.filter (fun item => !P item) ++ items.filter P := by
  induction items with
  | nil => rfl
  | cons item items induction =>
      obtain ⟨head, tail⟩ := List.pairwise_cons.mp stays
      cases holds : P item with
      | false =>
          have rest := induction tail
          simpa [holds] using rest
      | true =>
          have all : ∀ other ∈ items, P other = true :=
            fun other member => head other member holds
          have kept : items.filter P = items := List.filter_eq_self.mpr all
          have none : items.filter (fun other => !P other) = [] := by
            rw [List.filter_eq_nil_iff]
            intro other member
            simp [all other member]
          simp [holds, kept, none]

namespace InBatch

variable {log pending rest : List ContractEvent}
  {seen sees : ContractEvent → Prop} {event : ContractEvent}

theorem mono (batch : InBatch log seen pending)
    (grows : ∀ event, seen event → sees event) : InBatch log sees pending := by
  obtain ⟨done, grown, split, handled, later⟩ := batch
  refine ⟨done, grown, split, ?_, later⟩
  intro event member first
  exact grows event (handled event member first)

theorem mined (batch : InBatch log seen pending) {number : UInt64}
    (above : ∀ event ∈ log, event.blockNum < number)
    (values : List EventValue) :
    InBatch (log ++ values.map (ContractEvent.mk number)) seen pending := by
  obtain ⟨done, grown, split, handled, later⟩ := batch
  refine ⟨done, grown ++ values.map (ContractEvent.mk number), ?_, handled, ?_⟩
  · rw [split, List.append_assoc]
  · intro event member other grew
    rcases List.mem_append.mp grew with early | new
    · exact later event member other early
    · obtain ⟨value, _, rfl⟩ := List.mem_map.mp new
      apply above
      rw [split]
      exact List.mem_append_left grown member

theorem advance (batch : InBatch log seen (event :: rest))
    (current : seen event) : InBatch log seen rest := by
  obtain ⟨done, grown, split, handled, later⟩ := batch
  refine ⟨done ++ [event], grown, by simp [split], ?_, ?_⟩
  · intro other member first
    rcases List.mem_append.mp member with before | last
    · exact handled other before first
    · rw [List.mem_singleton.mp last]
      exact current
  · intro other member
    apply later
    simpa using member

theorem mem (batch : InBatch log seen (event :: rest)) : event ∈ log := by
  obtain ⟨done, grown, rfl, _⟩ := batch
  simp

/-- A fresh batch begins where the seen events end. -/
theorem fetch {fromBlock : Int}
    (sorted : log.Pairwise fun earlier later =>
      earlier.blockNum ≤ later.blockNum)
    (passed : ∀ event ∈ log, firstBlock ≤ event.blockNum.toNat →
      event.blockNum.toNat < fromBlock → seen event) :
    InBatch log seen
      (log.filter fun event => fromBlock ≤ event.blockNum.toNat) := by
  have split := eq_filter_append_filter
    (fun event : ContractEvent => decide (fromBlock ≤ event.blockNum.toNat))
    (sorted.imp (by
      intro earlier later order start
      have start := of_decide_eq_true start
      have order : earlier.blockNum.toNat ≤ later.blockNum.toNat := order
      exact decide_eq_true (by omega)))
  refine ⟨_, [], by rw [List.append_nil]; exact split, ?_, nofun⟩
  intro event member first
  obtain ⟨logged, early⟩ := List.mem_filter.mp member
  apply passed event logged first
  simpa using early

/-- What follows the last event of a block lies in later blocks. -/
theorem rest_later (batch : InBatch log seen (event :: rest))
    (sorted : log.Pairwise fun earlier later =>
      earlier.blockNum ≤ later.blockNum)
    (last : endsBlock event.blockNum rest = true) {other : ContractEvent}
    (waits : other ∈ rest) : event.blockNum < other.blockNum := by
  obtain ⟨done, grown, rfl, _, _⟩ := batch
  have ordered := (List.pairwise_append.mp
    (List.pairwise_append.mp sorted).1).2.1
  obtain ⟨fromEvent, restSorted⟩ := List.pairwise_cons.mp ordered
  cases rest with
  | nil => cases waits
  | cons next tail =>
      have different : event.blockNum ≠ next.blockNum := bne_iff_ne.mp last
      have less : event.blockNum < next.blockNum :=
        UInt64.lt_of_le_of_ne (fromEvent next List.mem_cons_self) different
      rcases List.mem_cons.mp waits with rfl | deeper
      · exact less
      · exact UInt64.lt_of_lt_of_le less
          ((List.pairwise_cons.mp restSorted).1 other deeper)

/-- Once the last event of a block is seen, so is all of the log up to this
block. -/
theorem passes (batch : InBatch log seen (event :: rest))
    (sorted : log.Pairwise fun earlier later =>
      earlier.blockNum ≤ later.blockNum)
    (current : seen event)
    (last : endsBlock event.blockNum rest = true) {other : ContractEvent}
    (logged : other ∈ log) (first : firstBlock ≤ other.blockNum.toNat)
    (early : other.blockNum.toNat ≤ event.blockNum.toNat) :
    seen other := by
  have notLater : ¬ event.blockNum < other.blockNum :=
    UInt64.not_lt.mpr early
  have following : other ∉ rest := fun waits =>
    notLater (batch.rest_later sorted last waits)
  obtain ⟨done, grown, rfl, handled, later⟩ := batch
  rcases List.mem_append.mp logged with inBatch | grew
  · rcases List.mem_append.mp inBatch with before | pending
    · exact handled other before first
    · rcases List.mem_cons.mp pending with rfl | waits
      · exact current
      · exact (following waits).elim
  · exact (notLater (later event (by simp) other grew)).elim

end InBatch

namespace Client

variable (p : Primitives) (signer : EIP155Signer)
  (hashEvent : ContractEvent → EventHash × List UInt8)

/-- The marker of an event is stored, or buffered in an open transaction. -/
def Marked (s : Client) (event : ContractEvent) : Prop :=
  s.database.Holds (.eventMarker (hashEvent event).1)

/-- The loop has moved past the block of an event. -/
def Passed (s : Client) (event : ContractEvent) : Prop :=
  firstBlock ≤ event.blockNum.toNat ∧ event.blockNum.toNat < s.fromBlock

/-- Where the loop stands in its batch. -/
def InPhase (log : List ContractEvent) (blockNum : UInt64)
    (seen : ContractEvent → Prop) : LoopPhase → Prop
  | .getContractEvents => True
  | .returned => True
  | .next events => InBatch log seen events
  | .handle event rest =>
      blockNum = event.blockNum ∧ InBatch log seen (event :: rest)
  | .putKey event rest =>
      blockNum = event.blockNum ∧ seen event ∧
        InBatch log seen (event :: rest)
  | .putFromBlock rest => InBatch log seen rest
  | .beginTx rest => InBatch log seen rest
  | .delete _ rest => InBatch log seen rest
  | .commitTx rest => InBatch log seen rest
  | .rollbackTx rest => InBatch log seen rest

/-- Every marker and every passed block belongs to events that were seen. -/
structure Tracked (seen : ContractEvent → Prop) (s : Client) : Prop where
  clean : s.database.Clean
  sorted : s.log.Pairwise fun earlier later =>
    earlier.blockNum ≤ later.blockNum
  asked : s.fromBlock ≤ firstBlock ∨
    ∃ event ∈ s.log, s.fromBlock ≤ event.blockNum.toNat + 1
  marked : ∀ key, s.database.Holds (.eventMarker key) →
    ∃ event ∈ s.log, (hashEvent event).1 = key ∧ seen event
  passed : ∀ event ∈ s.log, s.Passed event → seen event
  phase : InPhase s.log s.blockNum seen s.phase

/-- The markers of different events are different. -/
def Distinct (log : List ContractEvent) : Prop :=
  ∀ first ∈ log, ∀ second ∈ log,
    (hashEvent first).1 = (hashEvent second).1 → first = second

/-- The deposit whose handler an operator calls next. -/
def deposit? (s : Client) : Option DepositEvent :=
  match s.node, s.phase with
  | .operator _, .handle ⟨_, .deposit event⟩ _ => some event
  | _, _ => none

/-- When the loop calls the handler of an operator for a deposit, no other
transaction is open, the disk takes the block and its number is that of a
deposit. -/
def Handles (s : Client) : ClientStep → Prop
  | .loop _ answer =>
      ∀ event ∈ s.deposit?, s.database.inBatch = false ∧ answer = true ∧
        (int64 event.depositBlock).tmod 1000 ≠ 0
  | _ => True

instance (s : Client) : DecidablePred s.Handles
  | .loop _ answer => inferInstanceAs (Decidable (∀ event ∈ s.deposit?,
      s.database.inBatch = false ∧ answer = true ∧
        (int64 event.depositBlock).tmod 1000 ≠ 0))
  | .mined _ _ => isTrue trivial
  | .sealTxs _ _ _ _ => isTrue trivial
  | .deliver _ _ => isTrue trivial
  | .call _ => isTrue trivial
  | .restart _ => isTrue trivial

variable {p signer hashEvent} {s next : Client}
  {history extra : List LoopReport} {seen sees : ContractEvent → Prop}

theorem InPhase.mono {log : List ContractEvent} {blockNum : UInt64}
    {phase : LoopPhase} (holds : InPhase log blockNum seen phase)
    (grows : ∀ event, seen event → sees event) :
    InPhase log blockNum sees phase := by
  cases phase with
  | getContractEvents => trivial
  | returned => trivial
  | next events => exact InBatch.mono holds grows
  | handle event rest => exact ⟨holds.1, holds.2.mono grows⟩
  | putKey event rest =>
      exact ⟨holds.1, grows event holds.2.1, holds.2.2.mono grows⟩
  | putFromBlock rest => exact InBatch.mono holds grows
  | beginTx rest => exact InBatch.mono holds grows
  | delete keys rest => exact InBatch.mono holds grows
  | commitTx rest => exact InBatch.mono holds grows
  | rollbackTx rest => exact InBatch.mono holds grows

theorem InPhase.mined {log : List ContractEvent} {blockNum : UInt64}
    {phase : LoopPhase} (holds : InPhase log blockNum seen phase)
    {number : UInt64} (above : ∀ event ∈ log, event.blockNum < number)
    (values : List EventValue) :
    InPhase (log ++ values.map (ContractEvent.mk number)) blockNum seen
      phase := by
  cases phase with
  | getContractEvents => trivial
  | returned => trivial
  | next events => exact InBatch.mined holds above values
  | handle event rest => exact ⟨holds.1, holds.2.mined above values⟩
  | putKey event rest =>
      exact ⟨holds.1, holds.2.1, holds.2.2.mined above values⟩
  | putFromBlock rest => exact InBatch.mined holds above values
  | beginTx rest => exact InBatch.mined holds above values
  | delete keys rest => exact InBatch.mined holds above values
  | commitTx rest => exact InBatch.mined holds above values
  | rollbackTx rest => exact InBatch.mined holds above values

namespace Tracked

theorem mono (tracked : Tracked hashEvent seen s)
    (grows : ∀ event, seen event → sees event) : Tracked hashEvent sees s := by
  refine ⟨tracked.clean, tracked.sorted, tracked.asked, ?_, ?_,
    tracked.phase.mono grows⟩
  · intro key held
    obtain ⟨event, logged, same, before⟩ := tracked.marked key held
    exact ⟨event, logged, same, grows event before⟩
  · intro event logged passed
    exact grows event (tracked.passed event logged passed)

/-- A step that leaves the log and the position of the loop alone and stores
no marker. -/
theorem keep (tracked : Tracked hashEvent seen s)
    (clean : next.database.Clean) (log : next.log = s.log)
    (fromBlock : next.fromBlock = s.fromBlock)
    (markers : ∀ key, next.database.Holds (.eventMarker key) →
      s.database.Holds (.eventMarker key))
    (phase : InPhase next.log next.blockNum seen next.phase) :
    Tracked hashEvent seen next := by
  refine ⟨clean, ?_, ?_, ?_, ?_, phase⟩
  · rw [log]
    exact tracked.sorted
  · rw [log, fromBlock]
    exact tracked.asked
  · intro key held
    obtain ⟨event, logged, same, before⟩ :=
      tracked.marked key (markers key held)
    exact ⟨event, log ▸ logged, same, before⟩
  · intro event logged passed
    rw [log] at logged
    unfold Passed at passed
    rw [fromBlock] at passed
    exact tracked.passed event logged passed

theorem mined (tracked : Tracked hashEvent seen s) {number : UInt64}
    (above : ∀ event ∈ s.log, event.blockNum < number)
    (values : List EventValue) :
    Tracked hashEvent seen
      { s with log := s.log ++ values.map (ContractEvent.mk number) } := by
  have new : ∀ event ∈ values.map (ContractEvent.mk number),
      event.blockNum = number := by
    intro event member
    obtain ⟨value, _, rfl⟩ := List.mem_map.mp member
    rfl
  refine ⟨tracked.clean, ?_, ?_, ?_, ?_, tracked.phase.mined above values⟩
  · refine List.pairwise_append.mpr ⟨tracked.sorted, ?_, ?_⟩
    · refine List.pairwise_of_forall_mem_list ?_
      intro first firstMember second secondMember
      rw [new first firstMember, new second secondMember]
      exact UInt64.le_refl number
    · intro event logged later member
      rw [new later member]
      exact UInt64.le_of_lt (above event logged)
  · rcases tracked.asked with initial | ⟨event, logged, bound⟩
    · exact .inl initial
    · exact .inr ⟨event, List.mem_append_left _ logged, bound⟩
  · intro key held
    obtain ⟨event, logged, rest⟩ := tracked.marked key held
    exact ⟨event, List.mem_append_left _ logged, rest⟩
  · rintro event logged ⟨first, early⟩
    rcases List.mem_append.mp logged with old | recent
    · exact tracked.passed event old ⟨first, early⟩
    · exfalso
      rw [new event recent] at first early
      rcases tracked.asked with initial | ⟨other, otherLogged, bound⟩
      · simp only at early
        omega
      · have less : other.blockNum.toNat < number.toNat :=
          above other otherLogged
        simp only at early
        omega

end Tracked

theorem toInt64_toInt_le (value : UInt64) :
    value.toInt64.toInt ≤ value.toNat := by
  have bits : value.toInt64.toInt = value.toBitVec.toInt := rfl
  have bound : value.toBitVec.toInt ≤ value.toBitVec.toNat := by
    rw [BitVec.toInt_eq_toNat_cond]
    split <;> omega
  exact bits ▸ bound

theorem fromBlock_le (blockNum : UInt64) :
    (blockNum + 1).toInt64.toInt ≤ blockNum.toNat + 1 := by
  have bound := toInt64_toInt_le (blockNum + 1)
  have wrapped : (blockNum + 1).toNat ≤ blockNum.toNat + 1 := by
    rw [UInt64.toNat_add]
    exact Nat.mod_le _ _
  omega

@[simp] theorem database_mk (node : Node) (log : List ContractEvent)
    (fromBlock : Int) (blockNum : UInt64) (hashList : List EventHash)
    (phase : LoopPhase) :
    Client.database ⟨node, log, fromBlock, blockNum, hashList, phase⟩ =
      node.database := rfl

namespace Tracked

/-- A database call of the loop that puts no marker. -/
theorem call (tracked : Tracked hashEvent seen s)
    (call : DbCall DbKey DbValue) (hashList : List EventHash)
    (phase : LoopPhase)
    (unput : ∀ key value, call.change? ≠ some (.put (.eventMarker key) value))
    (holds : InPhase s.log s.blockNum seen phase) :
    Tracked hashEvent seen
      { s.withDatabase (s.database.perform call) with
        hashList := hashList, phase := phase } := by
  refine tracked.keep ?_ rfl rfl ?_ holds
  · simp only [withDatabase, database_mk, Node.database_withDatabase]
    exact tracked.clean.perform call
  · intro key held
    simp only [withDatabase, database_mk, Node.database_withDatabase] at held
    exact held.of_perform (unput key)

theorem skip (tracked : Tracked hashEvent seen s)
    (distinct : Distinct hashEvent s.log) {event : ContractEvent}
    {rest : List ContractEvent}
    (batch : InBatch s.log seen (event :: rest))
    (stored : s.database.has (.eventMarker (hashEvent event).1) = true) :
    InBatch s.log seen rest := by
  have held : s.database.Holds (.eventMarker (hashEvent event).1) := by
    left
    intro absent
    rw [LDBDatabase.has, absent] at stored
    cases stored
  obtain ⟨other, logged, same, handled⟩ := tracked.marked _ held
  rw [distinct other logged event batch.mem same] at handled
  exact batch.advance handled

/-- The marker of the handled event is stored. -/
theorem putKey (tracked : Tracked hashEvent seen s)
    {event : ContractEvent} (handled : seen event)
    (logged : event ∈ s.log) (answer : Bool) (value : List UInt8)
    (fromBlock : Int) (phase : LoopPhase)
    (asked : fromBlock ≤ firstBlock ∨
      ∃ event ∈ s.log, fromBlock ≤ event.blockNum.toNat + 1)
    (passed : ∀ other ∈ s.log, firstBlock ≤ other.blockNum.toNat →
      other.blockNum.toNat < fromBlock → seen other)
    (holds : InPhase s.log s.blockNum seen phase) :
    Tracked hashEvent seen
      { s.withDatabase (s.database.perform
          (.put answer (.eventMarker (hashEvent event).1) (.event value))) with
        fromBlock := fromBlock, phase := phase } := by
  refine ⟨?_, tracked.sorted, asked, ?_, ?_, holds⟩
  · simp only [withDatabase, database_mk, Node.database_withDatabase]
    exact tracked.clean.perform _
  · intro key held
    simp only [withDatabase, database_mk, Node.database_withDatabase] at held
    by_cases own : key = (hashEvent event).1
    · exact ⟨event, logged, own.symm, handled⟩
    · apply tracked.marked key
      refine held.of_perform ?_
      intro other same
      cases same
      exact own rfl
  · rintro other member ⟨first, early⟩
    exact passed other member first early

end Tracked

/-- One call of the loop keeps the books, provided an event is seen when its
handler is called. -/
theorem Tracked.loop (tracked : Tracked hashEvent seen s)
    (distinct : Distinct hashEvent s.log) {time : Int} {answer : Bool}
    {reports : List LoopReport}
    (moves : s.Moves p signer hashEvent time answer next reports)
    (handled : ∀ event rest, s.phase = .handle event rest → seen event) :
    Tracked hashEvent seen next := by
  have position := tracked.phase
  have goesOn : ∀ blockNum hashList phase,
      InPhase s.log blockNum seen phase →
        Tracked hashEvent seen { s with
          blockNum := blockNum, hashList := hashList, phase := phase } := by
    intro blockNum hashList phase holds
    exact tracked.keep tracked.clean rfl rfl (fun _ held => held) holds
  have unmoved : ∀ other ∈ s.log, firstBlock ≤ other.blockNum.toNat →
      other.blockNum.toNat < s.fromBlock → seen other :=
    fun other logged first early => tracked.passed other logged ⟨first, early⟩
  cases moves with
  | gaveUp blockNum hashList unchanged => exact goesOn _ _ _ trivial
  | fetched phase =>
      exact goesOn _ _ _ (InBatch.fetch tracked.sorted unmoved)
  | exhausted phase => exact goesOn _ _ _ trivial
  | skipped event rest phase stored =>
      rw [phase] at position
      exact goesOn _ _ _ (tracked.skip distinct position stored)
  | found event rest phase absent =>
      rw [phase] at position
      exact goesOn _ _ _ ⟨rfl, position⟩
  | called event rest phase =>
      rw [phase] at position
      have spares := s.node.sub_sparesEvents p signer time answer event
        tracked.clean
      refine tracked.keep (spares.clean tracked.clean) rfl rfl ?_
        ⟨position.1, handled event rest phase, position.2⟩
      intro key held
      exact spares.holds rfl held
  | marked event rest phase more =>
      rw [phase] at position
      obtain ⟨_, handled, batch⟩ := position
      exact tracked.putKey handled batch.mem answer (hashEvent event).2
        s.fromBlock (.next rest) tracked.asked unmoved (batch.advance handled)
  | ended event rest phase last =>
      rw [phase] at position
      obtain ⟨current, handled, batch⟩ := position
      rw [current] at last
      have bound := fromBlock_le event.blockNum
      refine tracked.putKey handled batch.mem answer (hashEvent event).2 _ _
        (.inr ⟨event, batch.mem, bound⟩) ?_ (batch.advance handled)
      intro other logged first early
      exact batch.passes tracked.sorted handled last logged first (by omega)
  | numbered rest phase =>
      rw [phase] at position
      exact tracked.call _ s.hashList (.beginTx rest) nofun position
  | refused rest phase =>
      rw [phase] at position
      exact goesOn _ _ _ position
  | begun rest phase closed =>
      rw [phase] at position
      exact tracked.call .beginTx s.hashList (.delete s.hashList rest) nofun
        position
  | deleted key keys rest phase =>
      rw [phase] at position
      exact tracked.call _ s.hashList (.delete keys rest) nofun position
  | drained rest phase =>
      rw [phase] at position
      exact goesOn _ _ _ position
  | committed rest phase done =>
      rw [phase] at position
      exact tracked.call _ [] (.next rest) nofun position
  | uncommitted rest phase =>
      rw [phase] at position
      exact goesOn _ _ _ position
  | rolledBack rest phase =>
      rw [phase] at position
      exact tracked.call .rollbackTx s.hashList (.next rest) nofun position

theorem log_subset (input : ClientStep) :
    s.log ⊆ (s.step p signer hashEvent input).1.log := by
  cases input with
  | mined number values =>
      simp only [step]
      split
      · exact List.subset_append_left _ _
      · exact List.Subset.refl _
  | loop time answer =>
      simp only [step]
      split
      · exact List.Subset.refl _
      · rw [(loopEvents_moves p signer hashEvent time answer s).log_eq]
        exact List.Subset.refl _
  | call call =>
      simp only [step]
      split <;> exact List.Subset.refl _
  | sealTxs time disk submits txs => exact List.Subset.refl _
  | deliver disk block => exact List.Subset.refl _
  | restart disk => exact List.Subset.refl _

theorem Distinct.of_subset {log later : List ContractEvent}
    (distinct : Distinct hashEvent later) (subset : log ⊆ later) :
    Distinct hashEvent log := by
  intro first firstLogged second secondLogged same
  exact distinct first (subset firstLogged) second (subset secondLogged) same

theorem returns_of_handles (clean : s.database.Clean) {time : Int}
    {answer : Bool} (handles : s.Handles (.loop time answer))
    {event : ContractEvent} {rest : List ContractEvent}
    (phase : s.phase = .handle event rest) :
    (s.node.sub p signer time answer event).2.2 = .ok () := by
  obtain ⟨blockNum, value⟩ := event
  cases value with
  | blockSubmitted event => rfl
  | deposit event =>
      cases node : s.node with
      | validator v => rfl
      | stopped role d => rfl
      | operator o =>
          have called : s.deposit? = some event := by
            simp only [deposit?, node, phase]
          have handles := handles event called
          simp only [database, node] at clean handles
          rcases Node.dealWithDepositEvent_cases p signer time answer o event
              clean with ⟨returned, _⟩ | ⟨_, refused⟩
          · exact returned
          · exact (refused handles).elim

theorem Tracked.step (tracked : Tracked hashEvent seen s)
    (distinct : Distinct hashEvent s.log) {input : ClientStep}
    (handled : ∀ time answer event rest, input = .loop time answer →
      (∀ role d, s.node ≠ .stopped role d) →
        s.phase = .handle event rest → seen event) :
    Tracked hashEvent seen (s.step p signer hashEvent input).1 := by
  have spared : ∀ (input : NodeStep),
      Tracked hashEvent seen (s.nodeStep p signer input).1 := by
    intro input
    have spares := s.node.step_sparesEvents p signer input tracked.clean
    refine tracked.keep (spares.clean tracked.clean) rfl rfl ?_ tracked.phase
    intro key held
    exact spares.holds rfl held
  cases input with
  | mined number values =>
      simp only [Client.step]
      split
      · rename_i grows
        exact tracked.mined grows.1 values
      · exact tracked
  | loop time answer =>
      simp only [Client.step]
      split
      · exact tracked
      · rename_i running
        refine tracked.loop distinct
          (loopEvents_moves p signer hashEvent time answer s) ?_
        intro event rest phase
        exact handled time answer event rest rfl running phase
  | sealTxs time disk submits txs => exact spared _
  | deliver disk block => exact spared _
  | call call =>
      simp only [Client.step]
      split
      · exact tracked
      · rename_i other
        refine tracked.call call s.hashList s.phase ?_ tracked.phase
        intro key value asked
        exact other key (by rw [DbCall.key?, asked]; rfl)
  | restart disk =>
      have spares := s.node.step_sparesEvents p signer (.restart disk)
        tracked.clean
      refine ⟨spares.clean tracked.clean, tracked.sorted, .inl (le_refl _), ?_,
        ?_, trivial⟩
      · intro key held
        exact tracked.marked key (spares.holds rfl held)
      · rintro event _ ⟨first, early⟩
        exact (not_lt_of_ge first early).elim

theorem tracked_launch {node : Node} (idle : node.database.Idle)
    (unmarked : ∀ key, node.database.db (.eventMarker key) = none) :
    Tracked hashEvent seen (launch node []) := by
  refine ⟨idle.clean, List.Pairwise.nil, .inl (le_refl _), ?_, nofun, trivial⟩
  rintro key (present | buffered)
  · exact (present (unmarked key)).elim
  · have empty : (launch node []).database.defaultBatch = [] := idle.2
    rw [empty] at buffered
    cases buffered

theorem step_handle (running : ∀ role d, s.node ≠ .stopped role d)
    {event : ContractEvent} {rest : List ContractEvent}
    (phase : s.phase = .handle event rest) (time : Int) (answer : Bool) :
    s.step p signer hashEvent (.loop time answer) =
      ({ s with
          node := (s.node.sub p signer time answer event).1
          phase := .putKey event rest },
        (s.node.sub p signer time answer event).2.1.map .node ++
          [.handled event (s.node.sub p signer time answer event).2.2]) := by
  simp only [step, loopEvents, phase]

/-- Where the calls of handlers come from. -/
theorem handled_of_mem_step {input : ClientStep} {event : ContractEvent}
    {result : Except WriteError Unit}
    (called : .handled event result ∈ (s.step p signer hashEvent input).2) :
    ∃ time answer rest, input = .loop time answer ∧
      s.phase = .handle event rest ∧ (∀ role d, s.node ≠ .stopped role d) ∧
      result = (s.node.sub p signer time answer event).2.2 := by
  have noEvents : ∀ events : List NodeEvent,
      .handled event result ∉ events.map LoopReport.node := by
    intro events member
    obtain ⟨_, _, impossible⟩ := List.mem_map.mp member
    cases impossible
  cases input with
  | mined number values =>
      simp only [step] at called
      split at called <;> cases called
  | sealTxs time disk submits txs => exact (noEvents _ called).elim
  | deliver disk block => exact (noEvents _ called).elim
  | restart disk => exact (noEvents _ called).elim
  | call call =>
      simp only [step] at called
      split at called <;> cases called
  | loop time answer =>
      simp only [step] at called
      split at called
      · cases called
      · rename_i running
        obtain ⟨rest, phase, result⟩ :=
          (loopEvents_moves p signer hashEvent time answer s).handled called
        exact ⟨time, answer, rest, rfl, phase, running, result⟩

theorem step_role (input : ClientStep) :
    (s.step p signer hashEvent input).1.node.role = s.node.role := by
  cases input with
  | mined number values =>
      simp only [step]
      split <;> rfl
  | loop time answer =>
      simp only [step]
      split
      · rfl
      · exact (loopEvents_moves p signer hashEvent time answer s).role_eq
  | sealTxs time disk submits txs =>
      exact s.node.step_role p signer (.sealTxs time disk submits txs)
  | deliver disk block => exact s.node.step_role p signer (.deliver disk block)
  | call call =>
      simp only [step]
      split
      · rfl
      · exact Node.role_withDatabase _ _
  | restart disk => exact s.node.step_role p signer (.restart disk)

/-- The deposit block of an event has been written. -/
def WrittenFor (history : List LoopReport) (event : DepositEvent) : Prop :=
  ∃ block, .node (.committed block) ∈ history ∧
    block.header.number = event.depositBlock ∧
    block.transactions = [Operator.depositTx event.depositor event.amount]

/-- A deposit whose handler has returned `nil` has been written. -/
structure Written (addr : Address) (s : Client) (history : List LoopReport) :
    Prop where
  operator : s.node.role = .operator addr
  written : ∀ blockNum event, Handled history ⟨blockNum, .deposit event⟩ →
    WrittenFor history event

theorem Written.step {addr : Address} (written : Written addr s history)
    (clean : s.database.Clean) (input : ClientStep) :
    Written addr (s.step p signer hashEvent input).1
      (history ++ (s.step p signer hashEvent input).2) := by
  refine ⟨(step_role input).trans written.operator, ?_⟩
  intro blockNum event handled
  rcases List.mem_append.mp handled with earlier | new
  · obtain ⟨block, committed, rest⟩ := written.written blockNum event earlier
    exact ⟨block, List.mem_append_left _ committed, rest⟩
  · obtain ⟨time, answer, rest, rfl, phase, running, result⟩ :=
      handled_of_mem_step new
    rw [step_handle running phase]
    have operator := written.operator
    cases node : s.node with
    | validator v =>
        rw [node] at operator
        cases operator
    | stopped role d => exact (running role d node).elim
    | operator o =>
        rw [node] at result
        simp only [database, node] at clean
        rcases Node.dealWithDepositEvent_cases p signer time answer o event
            clean with ⟨_, _, block, committed, facts⟩ | ⟨⟨failure, failed⟩, _⟩
        · refine ⟨block, List.mem_append_right _ ?_, facts⟩
          exact List.mem_append_left _ (List.mem_map_of_mem committed)
        · rw [Node.sub, failed] at result
          cases result

variable (p signer hashEvent)

/-- The process of an operator after its first start. -/
def firstLaunch (disk : Bool) (addr : Address) : Client :=
  launch (Node.start p disk (.operator addr) Database.empty) []

/-- No event of the root chain is lost. -/
structure NothingLost (s : Client) (history : List LoopReport) : Prop where
  handled : ∀ event ∈ s.log, s.Marked hashEvent event ∨ s.Passed event →
    Handled history event
  written : ∀ blockNum event, ⟨blockNum, .deposit event⟩ ∈ s.log →
    firstBlock ≤ blockNum.toNat → WrittenFor history event ∨
      (¬ s.Marked hashEvent ⟨blockNum, .deposit event⟩ ∧
        s.fromBlock ≤ blockNum.toNat)

variable {p signer hashEvent}

theorem tracked_run {disk : Bool} {addr : Address} {steps : List ClientStep}
    (handles : StepsMeet (step p signer hashEvent) Handles
      (firstLaunch p disk addr) steps)
    (distinct : Distinct hashEvent
      (execute (step p signer hashEvent) (firstLaunch p disk addr)
        steps).1.log) :
    Tracked hashEvent (Handled (execute (step p signer hashEvent)
          (firstLaunch p disk addr) steps).2)
        (execute (step p signer hashEvent) (firstLaunch p disk addr) steps).1 ∧
      Written addr
        (execute (step p signer hashEvent) (firstLaunch p disk addr) steps).1
        (execute (step p signer hashEvent) (firstLaunch p disk addr)
          steps).2 := by
  refine execute_induction (step p signer hashEvent) Handles
    (fun _ s history => Distinct hashEvent s.log →
      Tracked hashEvent (Handled history) s ∧ Written addr s history)
    ?_ ?_ handles distinct
  · intro _ s history input holds handles distinct
    have before := distinct.of_subset (log_subset input)
    obtain ⟨tracked, written⟩ := holds before
    refine ⟨?_, written.step tracked.clean input⟩
    refine (tracked.mono fun event handled => handled.append _).step before ?_
    rintro time answer event rest rfl running phase
    rw [Handled, step_handle running phase,
      returns_of_handles tracked.clean handles phase]
    simp
  · intro _
    have gains : GainsStartData Database.empty
        (Node.start p disk (.operator addr) Database.empty).database :=
      gainsStartData_start p disk (.operator addr) rfl
    have spares : Node.SparesEvents Database.empty
        (Node.start p disk (.operator addr) Database.empty).database :=
      .of_gains gains
    refine ⟨tracked_launch ⟨gains.1, gains.2.1⟩ ?_,
      Node.start_role p disk (.operator addr) Database.empty, nofun⟩
    intro key
    exact spares.get_eq rfl

/-- The first deposit, logged in block 100 of the root chain. -/
def sampleEvent : ContractEvent :=
  ⟨100, .deposit ⟨Sample.alice, 1, 0, 5⟩⟩

/-- The JSON text of the event, in which the log entry is left empty. -/
def sampleText : String :=
  "\x7b\"Name\":\"Deposit\",\"BlockNum\":100,\"V\":\x7b" ++
  "\"Depositor\":\"0x71562b71999873db5b286df957af199ec94617f7\"," ++
  "\"DepositBlock\":1," ++
  "\"Token\":\"0x0000000000000000000000000000000000000000\"," ++
  "\"Amount\":5," ++
  "\"Raw\":\x7b\"address\":" ++
  "\"0x0000000000000000000000000000000000000000\"," ++
  "\"topics\":null,\"data\":\"0x\",\"blockNumber\":\"0x0\"," ++
  "\"transactionHash\":\"0x00000000000000000000000000000000" ++
  "00000000000000000000000000000000\",\"transactionIndex\":\"0x0\"," ++
  "\"blockHash\":\"0x00000000000000000000000000000000" ++
  "00000000000000000000000000000000\",\"logIndex\":\"0x0\"," ++
  "\"removed\":false\x7d\x7d\x7d"

/-- The digest of the text of the event. -/
def sampleHash : ContractEvent → EventHash × List UInt8 :=
  Sample.lookup
    [(sampleEvent,
      (0x7556c6e4ac6cee6ed43374df5b189dea, sampleText.toUTF8.toList))]
    (0, [])

/-- The run of the sample process. -/
def sampleRun (steps : List ClientStep) : Client × List LoopReport :=
  execute (step Sample.primitives Sample.signer sampleHash)
    (firstLaunch Sample.primitives true Sample.operatorAddr) steps

/-- The loop fetches the deposit, writes its block, stores and then deletes its
marker. -/
def deliveredRun : List ClientStep :=
  .mined 100 [.deposit ⟨Sample.alice, 1, 0, 5⟩] ::
    List.replicate 9 (.loop Sample.now true)

/-- Another goroutine opens a transaction before the handler is called and
commits it at the end. -/
def lossyRun : List ClientStep :=
  [.mined 100 [.deposit ⟨Sample.alice, 1, 0, 5⟩], .loop Sample.now true,
    .loop Sample.now true, .call .beginTx, .loop Sample.now true,
    .loop Sample.now true, .loop Sample.now true, .loop Sample.now true,
    .call (.commitTx true)]

end Client

end Plasma.Core
