import Plasma.Core.EventDelivery

/-!
# Repeated delivery of root chain events

How often the handler of an event is called.  The markers of the events of a
block are deleted when the block is done, and the loop of a restarted process
asks from a fixed block on again, so a restart repeats every handler whose
marker is gone.
-/

namespace Plasma.Core

open Plasma.Lib Plasma.Store

def LoopReport.called? : LoopReport → Option ContractEvent
  | .handled event _ => some event
  | .node _ => none

/-- The events whose handler was called, in order. -/
def calls (history : List LoopReport) : List ContractEvent :=
  history.filterMap LoopReport.called?

theorem calls_append (history extra : List LoopReport) :
    calls (history ++ extra) = calls history ++ calls extra :=
  List.filterMap_append

theorem calls_node (events : List NodeEvent) :
    calls (events.map LoopReport.node) = [] := by
  rw [calls, List.filterMap_eq_nil_iff]
  intro report member
  obtain ⟨event, _, rfl⟩ := List.mem_map.mp member
  rfl

namespace LoopPhase

/-- The events of the batch that are not done. -/
def pending : LoopPhase → List ContractEvent
  | .getContractEvents => []
  | .next events => events
  | .handle event rest => event :: rest
  | .putKey event rest => event :: rest
  | .putFromBlock rest => rest
  | .beginTx rest => rest
  | .delete _ rest => rest
  | .commitTx rest => rest
  | .rollbackTx rest => rest
  | .returned => []

/-- The phases in which no deletion of a marker can be buffered. -/
def keepsMarkers : LoopPhase → Bool
  | .delete _ _ => false
  | .commitTx _ => false
  | .rollbackTx _ => false
  | .returned => false
  | _ => true

end LoopPhase

/-- The handlers are called in the order of the log. -/
def InOrder (log called : List ContractEvent) : Prop :=
  log.Pairwise fun earlier later =>
    later ∈ called → firstBlock ≤ earlier.blockNum.toNat → earlier ∈ called

private theorem before_of_nodup {α : Type*} {done rest : List α} {item : α}
    (different : (done ++ item :: rest).Nodup) :
    (done ++ item :: rest).Pairwise fun earlier later =>
      later = item → earlier ∈ done := by
  have absent : item ∉ rest :=
    (List.nodup_cons.mp (List.nodup_append.mp different).2.1).1
  refine List.pairwise_append.mpr ⟨?_, List.pairwise_cons.mpr ⟨?_, ?_⟩, ?_⟩
  · exact List.pairwise_of_forall_mem_list fun _ before _ _ _ => before
  · rintro later member rfl
    exact (absent member).elim
  · refine List.pairwise_of_forall_mem_list ?_
    rintro _ _ later member rfl
    exact (absent member).elim
  · exact fun _ before _ _ _ => before

namespace InBatch

variable {log rest called : List ContractEvent} {event : ContractEvent}

/-- The call of the next handler keeps the order. -/
theorem inOrder (batch : InBatch log (· ∈ called) (event :: rest))
    (different : log.Nodup) (ordered : InOrder log called) :
    InOrder log (called ++ [event]) := by
  obtain ⟨done, grown, rfl, handled, _⟩ := batch
  simp only [List.append_assoc, List.cons_append] at different ordered ⊢
  refine (ordered.and (before_of_nodup different)).imp ?_
  rintro earlier later ⟨inOrder, before⟩ calledLater first
  rcases List.mem_append.mp calledLater with previous | current
  · exact List.mem_append_left _ (inOrder previous first)
  · exact List.mem_append_left _
      (handled earlier (before (List.mem_singleton.mp current)) first)

/-- When the next event of the batch has not been called, no event behind it
has. -/
theorem frontier (batch : InBatch log (· ∈ called) (event :: rest))
    (sorted : log.Pairwise fun earlier later =>
      earlier.blockNum ≤ later.blockNum)
    (ordered : InOrder log called)
    (first : firstBlock ≤ event.blockNum.toNat) (uncalled : event ∉ called) :
    (∀ other ∈ log, other ∈ called → other.blockNum ≤ event.blockNum) ∧
      ∀ other ∈ rest, other ∉ called := by
  obtain ⟨done, grown, rfl, _, _⟩ := batch
  simp only [List.append_assoc, List.cons_append] at sorted ordered
  have behind : ∀ other ∈ rest ++ grown, other ∉ called := by
    intro other member calledOther
    have order := (List.pairwise_cons.mp (List.pairwise_append.mp ordered).2.1).1
    exact uncalled (order other member calledOther first)
  refine ⟨?_, fun other member => behind other (List.mem_append_left _ member)⟩
  intro other logged calledOther
  simp only [List.append_assoc, List.cons_append] at logged
  rcases List.mem_append.mp logged with before | later
  · exact (List.pairwise_append.mp sorted).2.2 other before event
      List.mem_cons_self
  · rcases List.mem_cons.mp later with rfl | later
    · exact UInt64.le_refl _
    · exact (behind other later calledOther).elim

end InBatch

namespace Client

variable (p : Primitives) (signer : EIP155Signer)
  (hashEvent : ContractEvent → EventHash × List UInt8)

/-- The loop will not handle a called event again: it asks from a later block
on or finds the marker. -/
def Settled (called : List ContractEvent) (d : Database) (fromBlock : Int) :
    Prop :=
  ∀ event ∈ called, event.blockNum.toNat < fromBlock ∨
    d.has (.eventMarker (hashEvent event).1) = true

/-- Where the loop stands with respect to the called events. -/
def Position (called : List ContractEvent) (settled : Prop) (fromBlock : Int) :
    LoopPhase → Prop
  | .getContractEvents => settled
  | .next events => settled ∨ ∃ event ∈ events.head?, event ∉ called
  | .handle event _ => event ∉ called
  | .putKey event rest =>
      (∀ other ∈ called, other.blockNum ≤ event.blockNum) ∧
        ∀ other ∈ rest, other ∉ called
  | .returned => True
  | _ => ∀ event ∈ called, event.blockNum.toNat < fromBlock

/-- No handler was called twice, and none will be. -/
structure Once (called : List ContractEvent) (s : Client) : Prop where
  tracked : Tracked hashEvent (· ∈ called) s
  numbers : ∀ event ∈ s.log, event.blockNum.toNat + 1 < 2 ^ 63
  different : s.log.Nodup
  logged : called ⊆ s.log
  floor : firstBlock ≤ s.fromBlock
  ordered : InOrder s.log called
  once : called.Nodup
  kept : s.phase.keepsMarkers = true →
    ∀ key, .eventMarker key ∉ deletedKeys s.database.defaultBatch
  waits : ∀ event ∈ s.phase.pending, s.fromBlock ≤ event.blockNum.toNat
  position : Position called (Settled hashEvent called s.database s.fromBlock)
    s.fromBlock s.phase

/-- A restart finds the markers of all handled events, and the block numbers of
the root chain have a successor in an `int64`. -/
def Recovers (s : Client) (history : List LoopReport) : ClientStep → Prop
  | .mined number _ => number.toNat + 1 < 2 ^ 63
  | .restart _ => ∀ event ∈ calls history,
      s.database.has (.eventMarker (hashEvent event).1) = true
  | _ => True

instance (s : Client) (history : List LoopReport) :
    DecidablePred (Recovers hashEvent s history)
  | .mined number _ => inferInstanceAs (Decidable (number.toNat + 1 < 2 ^ 63))
  | .restart _ => inferInstanceAs (Decidable (∀ event ∈ calls history,
      s.database.has (.eventMarker (hashEvent event).1) = true))
  | .loop _ _ => isTrue trivial
  | .sealTxs _ _ _ _ => isTrue trivial
  | .deliver _ _ => isTrue trivial
  | .call _ => isTrue trivial

variable {p signer hashEvent} {s next : Client} {called : List ContractEvent}
  {history : List LoopReport}

theorem has_of_ne_none {d : Database} {key : DbKey} (present : d.db key ≠ none) :
    d.has key = true :=
  Option.isSome_iff_ne_none.mpr present

theorem Position.mono {settled settles : Prop} {fromBlock : Int}
    {phase : LoopPhase} (position : Position called settled fromBlock phase)
    (keeps : phase.keepsMarkers = true → settled → settles) :
    Position called settles fromBlock phase := by
  cases phase with
  | getContractEvents => exact keeps rfl position
  | next events => exact position.imp (keeps rfl) id
  | handle event rest => exact position
  | putKey event rest => exact position
  | putFromBlock rest => exact position
  | beginTx rest => exact position
  | delete keys rest => exact position
  | commitTx rest => exact position
  | rollbackTx rest => exact position
  | returned => trivial

/-- The next block number after one that fits. -/
theorem fromBlock_eq {blockNum : UInt64}
    (fits : blockNum.toNat + 1 < 2 ^ 63) :
    (blockNum + 1).toInt64.toInt = blockNum.toNat + 1 := by
  have bits : (blockNum + 1).toInt64.toInt =
      (blockNum + 1).toBitVec.toInt := rfl
  have sum : (blockNum + 1).toNat = blockNum.toNat + 1 := by
    rw [UInt64.toNat_add]
    exact Nat.mod_eq_of_lt (by simp; omega)
  have value : (blockNum + 1).toBitVec.toNat = blockNum.toNat + 1 := sum
  rw [bits, BitVec.toInt_eq_toNat_of_lt (by omega), value]
  rfl

namespace Once

/-- A step that calls no handler and leaves the log alone. -/
theorem moved (once : Once hashEvent called s)
    (tracked : Tracked hashEvent (· ∈ called) next) (log : next.log = s.log)
    (floor : firstBlock ≤ next.fromBlock)
    (kept : next.phase.keepsMarkers = true →
      ∀ key, .eventMarker key ∉ deletedKeys next.database.defaultBatch)
    (waits : ∀ event ∈ next.phase.pending,
      next.fromBlock ≤ event.blockNum.toNat)
    (position : Position called
      (Settled hashEvent called next.database next.fromBlock) next.fromBlock
      next.phase) :
    Once hashEvent called next := by
  refine ⟨tracked, ?_, ?_, ?_, floor, ?_, once.once, kept, waits, position⟩
  · rw [log]
    exact once.numbers
  · rw [log]
    exact once.different
  · rw [log]
    exact once.logged
  · rw [log]
    exact once.ordered

/-- A step outside the loop. -/
theorem spared (once : Once hashEvent called s)
    (tracked : Tracked hashEvent (· ∈ called) next) (log : next.log = s.log)
    (fromBlock : next.fromBlock = s.fromBlock) (phase : next.phase = s.phase)
    (spares : s.phase.keepsMarkers = true → ∀ key,
      .eventMarker key ∉ deletedKeys s.database.defaultBatch →
        .eventMarker key ∉ deletedKeys next.database.defaultBatch ∧
          (s.database.db (.eventMarker key) ≠ none →
            next.database.db (.eventMarker key) ≠ none)) :
    Once hashEvent called next := by
  refine once.moved tracked log ?_ ?_ ?_ ?_
  · rw [fromBlock]
    exact once.floor
  · rw [phase]
    intro keeps key
    exact (spares keeps key (once.kept keeps key)).1
  · rw [phase, fromBlock]
    exact once.waits
  · rw [phase, fromBlock]
    refine once.position.mono ?_
    intro keeps settled event member
    rcases settled event member with passed | stored
    · exact .inl passed
    · right
      apply has_of_ne_none
      apply (spares keeps _ (once.kept keeps _)).2
      exact Option.isSome_iff_ne_none.mp stored

theorem undeleted_perform (once : Once hashEvent called s)
    (keeps : s.phase.keepsMarkers = true) (call : DbCall DbKey DbValue)
    (spared : ∀ key, call.change? ≠ some (.delete (.eventMarker key)))
    (key : EventHash) :
    .eventMarker key ∉
      deletedKeys (s.withDatabase
        (s.database.perform call)).database.defaultBatch := by
  simp only [withDatabase, database_mk, Node.database_withDatabase]
  exact (LDBDatabase.perform_ne_none (once.kept keeps key) (spared key)).1

/-- The handler of the next event is called. -/
theorem called_handle (once : Once hashEvent called s)
    {event : ContractEvent} {rest : List ContractEvent}
    (phase : s.phase = .handle event rest) {node : Node}
    (tracked : Tracked hashEvent (· ∈ called ++ [event])
      { s with node := node, phase := .putKey event rest })
    (spares : Node.SparesEvents s.node.database node.database) :
    Once hashEvent (called ++ [event])
      { s with node := node, phase := .putKey event rest } := by
  have position := once.position
  have batch := once.tracked.phase
  have waits := once.waits
  have kept := once.kept
  rw [phase] at position batch waits kept
  have uncalled : event ∉ called := position
  have first : firstBlock ≤ event.blockNum.toNat :=
    le_trans once.floor (waits event List.mem_cons_self)
  obtain ⟨before, behind⟩ := batch.2.frontier once.tracked.sorted once.ordered
    first uncalled
  have restUncalled : event ∉ rest := by
    obtain ⟨done, grown, split, _⟩ := batch.2
    have different := once.different
    rw [split, List.append_assoc] at different
    have here := (List.nodup_append.mp different).2.1
    exact (List.nodup_cons.mp (List.nodup_append.mp here).1).1
  refine ⟨tracked, once.numbers, once.different, ?_, once.floor,
    batch.2.inOrder once.different once.ordered, ?_, ?_, waits, ?_, ?_⟩
  · refine List.append_subset.mpr ⟨once.logged, ?_⟩
    exact List.cons_subset.mpr ⟨batch.2.mem, List.nil_subset _⟩
  · refine List.nodup_append.mpr ⟨once.once, List.nodup_singleton event, ?_⟩
    rintro other member _ current rfl
    rw [List.mem_singleton.mp current] at member
    exact uncalled member
  · intro _ key
    exact spares.undeleted (kept rfl key)
  · intro other member
    rcases List.mem_append.mp member with earlier | current
    · exact before other (once.logged earlier) earlier
    · rw [List.mem_singleton.mp current]
      exact UInt64.le_refl _
  · intro other member again
    rcases List.mem_append.mp again with earlier | current
    · exact behind other member earlier
    · rw [List.mem_singleton.mp current] at member
      exact restUncalled member

/-- The end of a block: the next question starts behind every called event. -/
theorem passed_of_ended (once : Once hashEvent called s)
    {event : ContractEvent} {rest : List ContractEvent}
    (phase : s.phase = .putKey event rest)
    (last : endsBlock s.blockNum rest = true) :
    firstBlock ≤ (event.blockNum + 1).toInt64.toInt ∧
      (∀ other ∈ rest,
        (event.blockNum + 1).toInt64.toInt ≤ other.blockNum.toNat) ∧
      ∀ other ∈ called,
        other.blockNum.toNat < (event.blockNum + 1).toInt64.toInt := by
  have position := once.position
  have tracked := once.tracked.phase
  have waits := once.waits
  rw [phase] at position tracked waits
  obtain ⟨current, _, batch⟩ := tracked
  rw [current] at last
  rw [fromBlock_eq (once.numbers event batch.mem)]
  refine ⟨?_, ?_, ?_⟩
  · have first := le_trans once.floor (waits event List.mem_cons_self)
    exact le_trans first (by omega)
  · intro other member
    have later : event.blockNum.toNat < other.blockNum.toNat :=
      batch.rest_later once.tracked.sorted last member
    exact_mod_cast later
  · intro other member
    have order : other.blockNum.toNat ≤ event.blockNum.toNat :=
      position.1 other member
    exact_mod_cast Nat.lt_succ_of_le order

/-- An event whose marker is found was called before. -/
theorem called_of_stored (once : Once hashEvent called s)
    (distinct : Distinct hashEvent s.log) {event : ContractEvent}
    (logged : event ∈ s.log)
    (stored : s.database.has (.eventMarker (hashEvent event).1) = true) :
    event ∈ called := by
  have held : s.database.Holds (.eventMarker (hashEvent event).1) :=
    .inl (Option.isSome_iff_ne_none.mp stored)
  obtain ⟨owner, ownerLogged, equal, seen⟩ := once.tracked.marked _ held
  rw [distinct owner ownerLogged event logged equal] at seen
  exact seen

/-- An event whose marker is not found was not called before. -/
theorem uncalled_of_absent (once : Once hashEvent called s)
    {event : ContractEvent} {rest : List ContractEvent}
    (phase : s.phase = .next (event :: rest))
    (absent : s.database.has (.eventMarker (hashEvent event).1) = false) :
    event ∉ called := by
  have position := once.position
  have waits := once.waits
  rw [phase] at position waits
  intro again
  rcases position with settled | ⟨other, head, uncalled⟩
  · rcases settled event again with passed | stored
    · exact (not_lt_of_ge (waits event List.mem_cons_self) passed).elim
    · rw [absent] at stored
      cases stored
  · cases head
    exact uncalled again

theorem loop (once : Once hashEvent called s)
    (distinct : Distinct hashEvent s.log) {time : Int} {answer : Bool}
    {reports : List LoopReport}
    (moves : s.Moves p signer hashEvent time answer next reports) :
    Once hashEvent (called ++ calls reports) next := by
  have position := once.position
  have waits := once.waits
  have kept := once.kept
  have books := fun uncalled => once.tracked.loop distinct moves uncalled
  have same : called ++ calls [] = called := List.append_nil called
  cases moves with
  | called event rest phase =>
      have reported : calls ((s.node.sub p signer time answer event).2.1.map
          .node ++ [.handled event (s.node.sub p signer time answer
            event).2.2]) = [event] := by
        rw [calls_append, calls_node]
        rfl
      rw [reported]
      refine once.called_handle phase ?_
        (s.node.sub_sparesEvents p signer time answer event once.tracked.clean)
      refine (once.tracked.mono fun other member =>
        List.mem_append_left [event] member).loop distinct
        (Moves.called event rest phase) ?_
      intro other others phase'
      rw [phase] at phase'
      cases phase'
      exact List.mem_append_right called List.mem_cons_self
  | gaveUp blockNum hashList unchanged =>
      rw [same]
      exact once.moved (once.tracked.keep once.tracked.clean rfl rfl
        (fun _ held => held) trivial) rfl once.floor
        (by rintro ⟨⟩) (by rintro _ ⟨⟩) trivial
  | fetched phase =>
      rw [same]
      rw [phase] at position kept books
      have tracked := books (by rintro _ _ ⟨⟩)
      refine once.moved tracked rfl once.floor (fun _ => kept rfl) ?_
        (.inl position)
      intro event member
      exact of_decide_eq_true (List.mem_filter.mp member).2
  | exhausted phase =>
      rw [same]
      rw [phase] at position kept books
      have tracked := books (by rintro _ _ ⟨⟩)
      refine once.moved tracked rfl once.floor (fun _ => kept rfl)
        (by rintro _ ⟨⟩) ?_
      rcases position with settled | ⟨event, head, _⟩
      · exact settled
      · cases head
  | skipped event rest phase stored =>
      rw [same]
      rw [phase] at position kept waits books
      have tracked := books (by rintro _ _ ⟨⟩)
      refine once.moved tracked rfl once.floor (fun _ => kept rfl)
        (fun other member => waits other (List.mem_cons_of_mem event member)) ?_
      rcases position with settled | ⟨other, head, uncalled⟩
      · exact .inl settled
      · cases head
        have batch := once.tracked.phase
        rw [phase] at batch
        exact (uncalled (once.called_of_stored distinct batch.mem
          stored)).elim
  | found event rest phase absent =>
      rw [same]
      rw [phase] at kept waits books
      have tracked := books (by rintro _ _ ⟨⟩)
      exact once.moved tracked rfl once.floor (fun _ => kept rfl) waits
        (once.uncalled_of_absent phase absent)
  | marked event rest phase more =>
      rw [same]
      have undeleted := once.undeleted_perform (by rw [phase]; rfl)
        (.put answer (.eventMarker (hashEvent event).1)
          (.event (hashEvent event).2)) (by rintro _ ⟨⟩)
      rw [phase] at position waits books
      have tracked := books (by rintro _ _ ⟨⟩)
      refine once.moved tracked rfl once.floor (fun _ => undeleted)
        (fun other member => waits other (List.mem_cons_of_mem event member)) ?_
      cases rest with
      | nil => cases more
      | cons following tail =>
          exact .inr ⟨following, rfl,
            position.2 following List.mem_cons_self⟩
  | ended event rest phase last =>
      rw [same]
      have undeleted := once.undeleted_perform (by rw [phase]; rfl)
        (.put answer (.eventMarker (hashEvent event).1)
          (.event (hashEvent event).2)) (by rintro _ ⟨⟩)
      obtain ⟨floor, ahead, passed⟩ := once.passed_of_ended phase last
      rw [phase] at books
      have tracked := books (by rintro _ _ ⟨⟩)
      exact once.moved tracked rfl floor (fun _ => undeleted) ahead passed
  | numbered rest phase =>
      rw [same]
      have undeleted := once.undeleted_perform (by rw [phase]; rfl)
        (.put answer .fromBlock (.fromBlock s.fromBlock.natAbs)) (by rintro _ ⟨⟩)
      rw [phase] at position waits books
      have tracked := books (by rintro _ _ ⟨⟩)
      exact once.moved tracked rfl once.floor (fun _ => undeleted) waits
        position
  | refused rest phase =>
      rw [same]
      rw [phase] at position kept waits books
      have tracked := books (by rintro _ _ ⟨⟩)
      exact once.moved tracked rfl once.floor (fun _ => kept rfl) waits
        (.inl fun event member => .inl (position event member))
  | begun rest phase closed =>
      rw [same]
      rw [phase] at position waits books
      have tracked := books (by rintro _ _ ⟨⟩)
      exact once.moved tracked rfl once.floor (by rintro ⟨⟩) waits position
  | deleted key keys rest phase =>
      rw [same]
      rw [phase] at position waits books
      have tracked := books (by rintro _ _ ⟨⟩)
      exact once.moved tracked rfl once.floor (by rintro ⟨⟩) waits position
  | drained rest phase =>
      rw [same]
      rw [phase] at position waits books
      have tracked := books (by rintro _ _ ⟨⟩)
      exact once.moved tracked rfl once.floor (by rintro ⟨⟩) waits position
  | committed rest phase done =>
      rw [same]
      rw [phase] at position waits books
      have tracked := books (by rintro _ _ ⟨⟩)
      refine once.moved tracked rfl once.floor ?_ waits
        (.inl fun event member => .inl (position event member))
      intro _ key
      simp only [withDatabase, database_mk, Node.database_withDatabase]
      rw [done]
      exact List.not_mem_nil
  | uncommitted rest phase =>
      rw [same]
      rw [phase] at position waits books
      have tracked := books (by rintro _ _ ⟨⟩)
      exact once.moved tracked rfl once.floor (by rintro ⟨⟩) waits position
  | rolledBack rest phase =>
      rw [same]
      rw [phase] at position waits books
      have tracked := books (by rintro _ _ ⟨⟩)
      refine once.moved tracked rfl once.floor ?_ waits
        (.inl fun event member => .inl (position event member))
      intro _ key
      simp only [withDatabase, database_mk, Node.database_withDatabase]
      have empty : (s.database.perform .rollbackTx).defaultBatch = [] :=
        once.tracked.clean.rollbackTx
      rw [empty]
      exact List.not_mem_nil

theorem mined (once : Once hashEvent called s) {number : UInt64}
    (above : ∀ event ∈ s.log, event.blockNum < number)
    {values : List EventValue} (different : values.Nodup)
    (fits : number.toNat + 1 < 2 ^ 63) :
    Once hashEvent called
      { s with log := s.log ++ values.map (ContractEvent.mk number) } := by
  have number_eq : ∀ event ∈ values.map (ContractEvent.mk number),
      event.blockNum = number := by
    intro event member
    obtain ⟨value, _, rfl⟩ := List.mem_map.mp member
    rfl
  have new : ∀ event ∈ values.map (ContractEvent.mk number),
      event ∉ s.log := by
    intro event member logged
    have less := above event logged
    rw [number_eq event member] at less
    exact UInt64.lt_irrefl number less
  refine ⟨once.tracked.mined above values, ?_, ?_, ?_, once.floor, ?_,
    once.once, once.kept, once.waits, once.position⟩
  · intro event logged
    rcases List.mem_append.mp logged with old | member
    · exact once.numbers event old
    · rw [number_eq event member]
      exact fits
  · refine List.nodup_append.mpr ⟨once.different, ?_, ?_⟩
    · refine List.Nodup.map ?_ different
      intro first second equal
      exact (ContractEvent.mk.injEq _ _ _ _ ▸ equal).2
    · rintro event logged _ member rfl
      exact new event member logged
  · exact List.Subset.trans once.logged (List.subset_append_left _ _)
  · refine List.pairwise_append.mpr ⟨once.ordered, ?_, ?_⟩
    · refine List.pairwise_of_forall_mem_list ?_
      intro _ _ later member again
      exact (new later member (once.logged again)).elim
    · intro _ _ later member again
      exact (new later member (once.logged again)).elim

/-- A restart that finds the markers of all called events. -/
theorem restart (once : Once hashEvent called s)
    (distinct : Distinct hashEvent s.log) (disk : Bool)
    (stored : ∀ event ∈ called,
      s.database.has (.eventMarker (hashEvent event).1) = true) :
    Once hashEvent called
      (launch (s.node.step p signer (.restart disk)).1 s.log) := by
  have tracked : Tracked hashEvent (· ∈ called)
      (s.step p signer hashEvent (.restart disk)).1 :=
    once.tracked.step distinct (by rintro _ _ _ _ ⟨⟩)
  have gains : GainsStartData ⟨s.database.db, false, []⟩
      (s.node.step p signer (.restart disk)).1.database :=
    gainsStartData_start p disk s.node.role rfl
  have spares : Node.SparesEvents s.database
      (s.node.step p signer (.restart disk)).1.database := .of_gains gains
  refine once.moved tracked rfl (le_refl _) ?_ nofun ?_
  · intro _ key
    have empty : (launch (s.node.step p signer (.restart disk)).1
        s.log).database.defaultBatch = [] := gains.2.1
    rw [empty]
    exact List.not_mem_nil
  · intro event member
    right
    have same : (launch (s.node.step p signer (.restart disk)).1
        s.log).database.db (.eventMarker (hashEvent event).1) =
        s.database.db (.eventMarker (hashEvent event).1) := spares.get_eq rfl
    rw [LDBDatabase.has, same]
    exact stored event member

theorem step (once : Once hashEvent (calls history) s)
    (distinct : Distinct hashEvent s.log) {input : ClientStep}
    (recovers : Recovers hashEvent s history input) :
    Once hashEvent (calls (history ++ (s.step p signer hashEvent input).2))
      (s.step p signer hashEvent input).1 := by
  rw [calls_append]
  have silent : ∀ events : List NodeEvent,
      calls history ++ calls (events.map .node) = calls history := by
    intro events
    rw [calls_node, List.append_nil]
  have unreported : calls history ++ calls [] = calls history :=
    List.append_nil _
  have outside : ∀ input : NodeStep,
      Tracked hashEvent (· ∈ calls history) (s.nodeStep p signer input).1 →
        Once hashEvent (calls history) (s.nodeStep p signer input).1 := by
    intro input tracked
    have spares := s.node.step_sparesEvents p signer input once.tracked.clean
    refine once.spared tracked rfl rfl rfl ?_
    intro _ key undeleted
    refine ⟨spares.undeleted undeleted, fun present => ?_⟩
    have same : (s.nodeStep p signer input).1.database.db (.eventMarker key) =
        s.database.db (.eventMarker key) := spares.get_eq rfl
    rw [same]
    exact present
  cases input with
  | mined number values =>
      simp only [Client.step]
      split
      · rename_i grows
        rw [unreported]
        exact once.mined grows.1 grows.2 recovers
      · rw [unreported]
        exact once
  | loop time answer =>
      simp only [Client.step]
      split
      · rw [unreported]
        exact once
      · exact once.loop distinct
          (loopEvents_moves p signer hashEvent time answer s)
  | sealTxs time disk submits txs =>
      have tracked : Tracked hashEvent (· ∈ calls history)
          (s.step p signer hashEvent (.sealTxs time disk submits txs)).1 :=
        once.tracked.step distinct (by rintro _ _ _ _ ⟨⟩)
      simp only [Client.step, nodeStep, silent]
      exact outside _ tracked
  | deliver disk block =>
      have tracked : Tracked hashEvent (· ∈ calls history)
          (s.step p signer hashEvent (.deliver disk block)).1 :=
        once.tracked.step distinct (by rintro _ _ _ _ ⟨⟩)
      simp only [Client.step, nodeStep, silent]
      exact outside _ tracked
  | call call =>
      have tracked : Tracked hashEvent (· ∈ calls history)
          (s.step p signer hashEvent (.call call)).1 :=
        once.tracked.step distinct (by rintro _ _ _ _ ⟨⟩)
      simp only [Client.step] at tracked ⊢
      split
      · rw [unreported]
        exact once
      · rename_i other
        rw [unreported]
        split at tracked
        · rename_i key marker
          exact (other key marker).elim
        · refine once.spared tracked rfl rfl rfl ?_
          intro _ key undeleted
          simp only [withDatabase, database_mk, Node.database_withDatabase]
          refine LDBDatabase.perform_ne_none undeleted ?_
          intro asked
          exact other key (by rw [DbCall.key?, asked]; rfl)
  | restart disk =>
      simp only [Client.step, silent]
      exact once.restart distinct disk recovers

end Once

variable (p) in
/-- A process after its first start. -/
def started (disk : Bool) (role : Role) : Client :=
  launch (Node.start p disk role Database.empty) []

theorem once_started (disk : Bool) (role : Role) :
    Once hashEvent [] (started p disk role) := by
  have gains : GainsStartData Database.empty
      (Node.start p disk role Database.empty).database :=
    gainsStartData_start p disk role rfl
  have spares : Node.SparesEvents Database.empty
      (Node.start p disk role Database.empty).database := .of_gains gains
  refine ⟨tracked_launch ⟨gains.1, gains.2.1⟩ ?_, nofun, List.nodup_nil,
    List.nil_subset _, le_refl _, List.Pairwise.nil, List.nodup_nil, ?_, nofun,
    nofun⟩
  · intro key
    exact spares.get_eq rfl
  · intro _ key
    have empty : (started p disk role).database.defaultBatch = [] := gains.2.1
    rw [empty]
    exact List.not_mem_nil

theorem handled_at_most_once {disk : Bool} {role : Role}
    {steps : List ClientStep} {s : Client} {history : List LoopReport}
    (reached : (s, history) =
      execute (step p signer hashEvent) (started p disk role) steps)
    (recovers : RunMeets (step p signer hashEvent) (Recovers hashEvent)
      (started p disk role) [] steps)
    (distinct : Distinct hashEvent s.log) :
    (calls history).Nodup := by
  have final := runMeets_induction
    (fun s history => Distinct hashEvent s.log →
      Once hashEvent (calls history) s)
    (by
      intro s history input holds recovers distinct
      have before := distinct.of_subset (log_subset input)
      exact (holds before).step before recovers)
    (fun _ => once_started disk role) recovers
  rw [← reached] at final
  exact (final distinct).once

theorem sampleRun_started (steps : List ClientStep) :
    ((sampleRun steps).1, (sampleRun steps).2) =
      execute (step Sample.primitives Sample.signer sampleHash)
        (started Sample.primitives true (.operator Sample.operatorAddr))
        steps := rfl

/-- The process is restarted when the marker of the deposit is stored and not
yet deleted. -/
def recoveredRun : List ClientStep :=
  .mined 100 [.deposit ⟨Sample.alice, 1, 0, 5⟩] ::
    List.replicate 4 (.loop Sample.now true) ++
      .restart true :: List.replicate 3 (.loop Sample.now true)

theorem deposit_event_handled_once :
    calls (sampleRun recoveredRun).2 = [sampleEvent] ∧
      (calls (sampleRun recoveredRun).2).Nodup := by
  have recovers : RunMeets (step Sample.primitives Sample.signer sampleHash)
      (Recovers sampleHash)
      (started Sample.primitives true (.operator Sample.operatorAddr)) []
      recoveredRun := by
    decide +kernel
  have log : (sampleRun recoveredRun).1.log = [sampleEvent] := by
    decide +kernel
  refine ⟨by decide +kernel,
    handled_at_most_once (sampleRun_started recoveredRun) recovers ?_⟩
  rw [log]
  intro first firstLogged second secondLogged _
  rw [List.mem_singleton.mp firstLogged, List.mem_singleton.mp secondLogged]

/-- The process is restarted when the block of the deposit is done and its
marker is deleted. -/
def repeatedRun : List ClientStep :=
  deliveredRun ++ .restart true :: List.replicate 3 (.loop Sample.now true)

/-- The loop asks from the first block on again and calls the handler a second
time. -/
theorem deposit_event_handled_twice :
    (sampleRun deliveredRun).1.database.has .fromBlock = true ∧
      (sampleRun repeatedRun).2.filter
          (fun report => report.called?.isSome) =
        [.handled sampleEvent (.ok ()), .handled sampleEvent (.ok ())] ∧
      ¬ (calls (sampleRun repeatedRun).2).Nodup := by
  have twice : calls (sampleRun repeatedRun).2 =
      [sampleEvent, sampleEvent] := by
    decide +kernel
  refine ⟨by decide +kernel, by decide +kernel, ?_⟩
  rw [twice]
  decide

end Client

end Plasma.Core
