import Plasma.Contract.Numbering

/-!
# The order of finalisation

Exits leave the queue in the order of their packed elements.  Together with
the numbering of blocks and the two delays of `addExitToQueue` this gives the
users of older blocks the time to leave before anybody who exits from a newer
block or takes fees.
-/

namespace Plasma.Contract

open Plasma.Core Plasma.Lib PriorityQueue

def Effect.start? : Effect → Option (Word × Word)
  | .exitStarted _ utxoPos _ exitableAt => some (utxoPos, exitableAt)
  | _ => none

def Effect.removal? : Effect → Option Word
  | .removed utxoPos _ _ _ => some utxoPos
  | _ => none

def Effect.time? : Effect → Option Word
  | .hashed _ => none
  | .registered _ _ timestamp => some timestamp
  | .exitStarted _ _ timestamp _ => some timestamp
  | .challenged _ _ => none
  | .removed _ _ _ timestamp => some timestamp

/-- The positions of the exits started so far, with their priorities. -/
def starts (history : List Effect) : List (Word × Word) :=
  history.filterMap Effect.start?

/-- The positions removed from the queue so far. -/
def removals (history : List Effect) : List Word :=
  history.filterMap Effect.removal?

/-- The times of the effects that have one. -/
def times (history : List Effect) : List Word :=
  history.filterMap Effect.time?

section

variable (first second : List Effect)

@[simp] theorem starts_append :
    starts (first ++ second) = starts first ++ starts second :=
  List.filterMap_append

@[simp] theorem removals_append :
    removals (first ++ second) = removals first ++ removals second :=
  List.filterMap_append

@[simp] theorem times_append :
    times (first ++ second) = times first ++ times second :=
  List.filterMap_append

end

section

variable (inputs : List Bytes)

@[simp] theorem starts_hashed : starts (inputs.map Effect.hashed) = [] := by
  simp [starts, Effect.start?]

@[simp] theorem removals_hashed :
    removals (inputs.map Effect.hashed) = [] := by
  simp [removals, Effect.removal?]

@[simp] theorem times_hashed : times (inputs.map Effect.hashed) = [] := by
  simp [times, Effect.time?]

end

theorem mem_starts {history : List Effect} {entry : Word × Word} :
    entry ∈ starts history ↔
      ∃ kind timestamp, .exitStarted kind entry.1 timestamp entry.2 ∈ history := by
  rw [starts, List.mem_filterMap]
  constructor
  · rintro ⟨effect, member, read⟩
    cases effect <;> cases read
    exact ⟨_, _, member⟩
  · rintro ⟨kind, timestamp, member⟩
    exact ⟨_, member, rfl⟩

theorem mem_removals {history : List Effect} {utxoPos : Word} :
    utxoPos ∈ removals history ↔
      ∃ payee amount timestamp,
        .removed utxoPos payee amount timestamp ∈ history := by
  rw [removals, List.mem_filterMap]
  constructor
  · rintro ⟨effect, member, read⟩
    cases effect <;> cases read
    exact ⟨_, _, _, member⟩
  · rintro ⟨payee, amount, timestamp, member⟩
    exact ⟨_, member, rfl⟩

/-- The exits started so far fit the two halves of an element. -/
def Fits (history : List Effect) : Prop :=
  ∀ entry ∈ starts history,
    entry.1.toNat < 2 ^ 128 ∧ entry.2.toNat < 2 ^ 128

theorem Fits.of_append {first second : List Effect}
    (fits : Fits (first ++ second)) : Fits first := by
  intro entry member
  exact fits entry (by simp [member])

/-- A removed exit was mature, and every exit with a smaller element was
removed before it. -/
def InOrder (before : List Effect) : Effect → Prop
  | .removed utxoPos _ _ timestamp =>
      ∃ exitableAt, (utxoPos, exitableAt) ∈ starts before ∧
        exitableAt < timestamp ∧
        ∀ other ∈ starts before,
          element other.2 other.1 < element exitableAt utxoPos →
            other.1 ∈ removals before
  | _ => True

namespace RootChain

/-- The queue holds the elements of the exits that were started and not
removed. -/
structure Queued (past : List Effect) (s : RootChain) : Prop where
  wellFormed : s.queue.WellFormed
  nodup : s.queue.elements.Nodup
  held : ∀ packed, packed ∈ s.queue.elements ↔
    ∃ entry ∈ starts past, entry.1 ∉ removals past ∧
      packed = element entry.2 entry.1
  amounts : ∀ entry ∈ starts past, (s.exits entry.1).amount ≠ 0
  distinct : ((starts past).map Prod.fst).Nodup
  removed : ∀ utxoPos ∈ removals past,
    utxoPos ∈ (starts past).map Prod.fst
  order : Along InOrder past

namespace Queued

variable {c : Crypto} {m : Message} {past extra : List Effect}
  {s next : RootChain}

theorem new (deployer : Address) : Queued [] (RootChain.new deployer) := by
  refine ⟨wellFormed_new, Multiset.nodup_zero, ?_, ?_, List.nodup_nil, ?_,
    Along.nil⟩
  · intro packed
    constructor
    · intro member
      exact (Multiset.notMem_zero packed member).elim
    · rintro ⟨entry, member, _⟩
      cases member
  · intro entry member
    cases member
  · intro utxoPos member
    cases member

/-- Effects that start and remove nothing, and a storage with the same queue
and the same amounts. -/
theorem keep (holds : Queued past s) (quiet : starts extra = [])
    (silent : removals extra = []) (queue : next.queue = s.queue)
    (amounts : ∀ utxoPos,
      (next.exits utxoPos).amount = (s.exits utxoPos).amount) :
    Queued (past ++ extra) next := by
  have sameStarts : starts (past ++ extra) = starts past := by simp [quiet]
  have sameRemovals : removals (past ++ extra) = removals past := by
    simp [silent]
  refine ⟨?_, ?_, ?_, ?_, ?_, ?_, ?_⟩
  · rw [queue]
    exact holds.wellFormed
  · rw [queue]
    exact holds.nodup
  · rw [queue, sameStarts, sameRemovals]
    exact holds.held
  · rw [sameStarts]
    intro entry member
    rw [amounts]
    exact holds.amounts entry member
  · rw [sameStarts]
    exact holds.distinct
  · rw [sameStarts, sameRemovals]
    exact holds.removed
  · refine holds.order.append ?_
    intro effect member before
    cases effect with
    | removed utxoPos payee amount timestamp =>
        have listed : utxoPos ∈ removals extra :=
          mem_removals.mpr ⟨_, _, _, member⟩
        rw [silent] at listed
        cases listed
    | _ => trivial

/-- A new exit has a position that was not used before. -/
theorem fresh (holds : Queued past s) {utxoPos : Word}
    (unused : (s.exits utxoPos).amount = 0) :
    utxoPos ∉ (starts past).map Prod.fst := by
  intro member
  obtain ⟨entry, started, rfl⟩ := List.mem_map.mp member
  exact holds.amounts entry started unused

/-- An exit is started. -/
theorem start (holds : Queued past s) {utxoPos exitableAt : Word}
    (started : starts extra = [(utxoPos, exitableAt)])
    (silent : removals extra = [])
    (unused : (s.exits utxoPos).amount = 0)
    (queue : next.queue = s.queue.insert exitableAt utxoPos)
    (amount : (next.exits utxoPos).amount ≠ 0)
    (others : ∀ other, other ≠ utxoPos → next.exits other = s.exits other)
    (fits : Fits (past ++ extra)) :
    Queued (past ++ extra) next := by
  have split : starts (past ++ extra) =
      starts past ++ [(utxoPos, exitableAt)] := by simp [started]
  have sameRemovals : removals (past ++ extra) = removals past := by
    simp [silent]
  have new := holds.fresh unused
  obtain ⟨wellFormed, _, elements⟩ :=
    insert_spec holds.wellFormed exitableAt utxoPos
  rw [← queue] at wellFormed elements
  have small := fits (utxoPos, exitableAt) (by simp [split])
  have notHeld : element exitableAt utxoPos ∉ s.queue.elements := by
    intro member
    obtain ⟨entry, earlier, _, packed⟩ := (holds.held _).mp member
    have bounds := fits entry (by simp [split, earlier])
    have unpacked := congrArg splitElement packed
    rw [splitElement_element small.2 small.1,
      splitElement_element bounds.2 bounds.1] at unpacked
    refine new (List.mem_map.mpr ⟨entry, earlier, ?_⟩)
    exact (congrArg Prod.snd unpacked).symm
  refine ⟨wellFormed, ?_, ?_, ?_, ?_, ?_, ?_⟩
  · rw [elements]
    exact Multiset.nodup_cons.mpr ⟨notHeld, holds.nodup⟩
  · intro packed
    rw [elements, Multiset.mem_cons, holds.held, split, sameRemovals]
    constructor
    · rintro (rfl | ⟨entry, earlier, rest⟩)
      · refine ⟨(utxoPos, exitableAt), by simp, ?_, rfl⟩
        intro gone
        exact new (holds.removed utxoPos gone)
      · exact ⟨entry, by simp [earlier], rest⟩
    · rintro ⟨entry, member, rest⟩
      rcases List.mem_append.mp member with earlier | last
      · exact .inr ⟨entry, earlier, rest⟩
      · rw [List.mem_singleton.mp last] at rest
        exact .inl rest.2
  · rw [split]
    intro entry member
    rcases List.mem_append.mp member with earlier | last
    · have distinct : entry.1 ≠ utxoPos := by
        rintro rfl
        exact new (List.mem_map_of_mem earlier)
      rw [others entry.1 distinct]
      exact holds.amounts entry earlier
    · rw [List.mem_singleton.mp last]
      exact amount
  · rw [split, List.map_append]
    refine List.nodup_append.mpr ⟨holds.distinct, List.nodup_singleton _, ?_⟩
    intro first member second last same
    rw [List.map_singleton, List.mem_singleton] at last
    rw [same, last] at member
    exact new member
  · rw [split, sameRemovals]
    intro gone member
    simp [holds.removed gone member]
  · refine holds.order.append ?_
    intro effect member before
    cases effect with
    | removed gone payee paid timestamp =>
        have listed : gone ∈ removals extra :=
          mem_removals.mpr ⟨_, _, _, member⟩
        rw [silent] at listed
        cases listed
    | _ => trivial

/-- The positions of the exits determine their priorities. -/
theorem unique (holds : Queued past s) {first second : Word × Word}
    (left : first ∈ starts past) (right : second ∈ starts past)
    (same : first.1 = second.1) : first = second :=
  List.inj_on_of_nodup_map holds.distinct left right same

/-- The front of the queue is the least exit that was started and not
removed. -/
theorem front (holds : Queued past s) (fits : Fits past)
    {exitableAt utxoPos : Word}
    (read : s.queue.getMin = some (exitableAt, utxoPos)) :
    (utxoPos, exitableAt) ∈ starts past ∧ utxoPos ∉ removals past ∧
      element exitableAt utxoPos = s.queue.heapList 1 ∧
      1 ≤ s.queue.currentSize ∧
      ∀ packed ∈ s.queue.elements, element exitableAt utxoPos ≤ packed := by
  obtain ⟨least, member, minimal, shown, nonempty, first⟩ :=
    getMin_spec holds.wellFormed read
  obtain ⟨entry, started, pending, packed⟩ := (holds.held least).mp member
  have bounds := fits entry started
  rw [packed, splitElement_element bounds.2 bounds.1] at shown
  obtain ⟨rfl, rfl⟩ := Prod.mk.inj shown
  rw [← first, ← packed]
  exact ⟨started, pending, rfl, nonempty, minimal⟩

/-- A round removes the least exit. -/
theorem removes {effect : Effect} (holds : Queued past s) (fits : Fits past)
    (taken : Removes m s effect next) : Queued (past ++ [effect]) next := by
  cases taken with
  | @round exitableAt utxoPos queue front mature funded deleted =>
      obtain ⟨started, pending, first, nonempty, minimal⟩ :=
        holds.front fits front
      have bounds := fits (utxoPos, exitableAt) started
      obtain ⟨rest, popped, wellFormed, _, split⟩ :=
        delMin_spec holds.wellFormed nonempty
      rw [popped] at deleted
      obtain rfl : rest = queue :=
        congrArg Prod.fst (Option.some.inj deleted)
      rw [← first] at split
      have nodup := holds.nodup
      rw [split, Multiset.nodup_cons] at nodup
      have gone : removals [Effect.removed utxoPos (s.exits utxoPos).owner
          (s.exits utxoPos).amount m.timestamp] = [utxoPos] := rfl
      have quiet : starts [Effect.removed utxoPos (s.exits utxoPos).owner
          (s.exits utxoPos).amount m.timestamp] = [] := rfl
      refine ⟨wellFormed, nodup.2, ?_, ?_, ?_, ?_, ?_⟩
      · intro other
        rw [starts_append, removals_append, gone, quiet, List.append_nil]
        have before := holds.held other
        rw [split, Multiset.mem_cons] at before
        constructor
        · intro inside
          obtain ⟨candidate, listed, waiting, same⟩ :=
            before.mp (.inr inside)
          refine ⟨candidate, listed, ?_, same⟩
          intro removedNow
          rcases List.mem_append.mp removedNow with earlier | now
          · exact waiting earlier
          · have equal := holds.unique listed started
              (List.mem_singleton.mp now)
            rw [same, equal] at inside
            exact nodup.1 inside
        · rintro ⟨candidate, listed, waiting, same⟩
          simp only [List.mem_append, List.mem_singleton, not_or] at waiting
          rcases before.mpr ⟨candidate, listed, waiting.1, same⟩ with
            equal | inside
          · have fit := fits candidate listed
            rw [same] at equal
            have unpacked := congrArg splitElement equal
            rw [splitElement_element fit.2 fit.1,
              splitElement_element bounds.2 bounds.1] at unpacked
            exact (waiting.2 (congrArg Prod.snd unpacked)).elim
          · exact inside
      · intro candidate listed
        rw [starts_append, quiet, List.append_nil] at listed
        have positive := holds.amounts candidate listed
        by_cases here : candidate.1 = utxoPos
        · rw [here] at positive
          simpa [here] using positive
        · simpa [Function.update_of_ne here] using positive
      · rw [starts_append, quiet, List.append_nil]
        exact holds.distinct
      · rw [starts_append, removals_append, gone, quiet, List.append_nil]
        intro other listed
        rcases List.mem_append.mp listed with earlier | now
        · exact holds.removed other earlier
        · rw [List.mem_singleton.mp now]
          exact List.mem_map_of_mem started
      · refine holds.order.snoc ⟨exitableAt, started, mature, ?_⟩
        intro other listed smaller
        by_contra waiting
        have inside := (holds.held _).mpr ⟨other, listed, waiting, rfl⟩
        exact (not_lt.mpr (minimal _ inside)) smaller

theorem acts {inputs : List Bytes} {effect : Effect} (holds : Queued past s)
    (fits : Fits (past ++ (inputs.map Effect.hashed ++ [effect])))
    (act : Acts c m s inputs effect next) :
    Queued (past ++ (inputs.map Effect.hashed ++ [effect])) next := by
  cases act with
  | submitted call bound =>
      exact holds.keep (by simp; rfl) (by simp; rfl) rfl (fun _ => rfl)
  | deposited call room number =>
      exact holds.keep rfl rfl rfl (fun _ => rfl)
  | exitStarted source positive unused =>
      refine holds.start (by simp; rfl) (by simp; rfl) unused rfl ?_ ?_ fits
      · simpa using positive
      · intro other distinct
        exact Function.update_of_ne distinct _ _
  | @challenged _ _ _ utxoPos =>
      refine holds.keep (by simp; rfl) (by simp; rfl) rfl ?_
      intro other
      by_cases here : other = utxoPos
      · rw [here]
        simp
      · simp [Function.update_of_ne here]

end Queued

/-- A run whose exits fit the halves of an element keeps the queue in
order. -/
theorem queued_run {c : Crypto} {deployer : Address} {messages : List Message}
    (fits : Fits (execute (step c) (new deployer) messages).2) :
    Queued (execute (step c) (new deployer) messages).2
      (execute (step c) (new deployer) messages).1 := by
  refine run_induction (fun past s => Fits past → Queued past s) ?_ ?_
    (fun _ => Queued.new deployer)
    (stepsMeet_of_forall (fun _ _ _ => trivial) _ : StepsMeet (step c)
      (fun _ _ => True) _ messages) fits
  · intro past s m inputs effect next holds _ act fits
    exact (holds fits.of_append).acts fits act
  · intro past s m effect next holds taken fits
    exact (holds fits.of_append).removes fits.of_append taken

end RootChain

/-!
## Creation times and the clock
-/

/-- The creation time that entered the priority of an exit: the time of its
block, zero for a block that is not there, and the next second for a fee. -/
def CreatedFrom (before : List Effect) : Effect → Prop
  | .exitStarted kind utxoPos timestamp exitableAt =>
      ∃ createdAt, exitableAt = RootChain.exitableAt createdAt timestamp ∧
        (kind = .fee → createdAt = timestamp + 1) ∧
        (kind ≠ .fee →
          (∀ entry ∈ registrations before,
            entry.1 = utxoPos / 1000000000 →
              createdAt = entry.2.timestamp) ∧
          (utxoPos / 1000000000 ∉ (registrations before).map Prod.fst →
            createdAt = 0))
  | _ => True

namespace RootChain

variable {c : Crypto} {m : Message} {s next : RootChain}

theorem createdFrom_acts {past : List Effect} {inputs : List Bytes}
    {effect : Effect} (numbered : Numbered c past s)
    (act : Acts c m s inputs effect next) :
    CreatedFrom (past ++ inputs.map Effect.hashed) effect := by
  have block : ∀ utxoPos : Word,
      (∀ entry ∈ registrations (past ++ inputs.map Effect.hashed),
        entry.1 = utxoPos / 1000000000 →
          (s.childChain (utxoPos / 1000000000)).timestamp =
            entry.2.timestamp) ∧
      (utxoPos / 1000000000 ∉ (registrations
          (past ++ inputs.map Effect.hashed)).map Prod.fst →
        (s.childChain (utxoPos / 1000000000)).timestamp = 0) := by
    intro utxoPos
    simp only [registrations_append, registrations_hashed, List.append_nil]
    constructor
    · intro entry member same
      rw [← same, numbered.stored entry member]
    · intro absent
      rw [numbered.unset _ absent]
  cases act with
  | exitStarted source positive unused =>
      refine ⟨_, rfl, ?_, ?_⟩
      · rintro rfl
        cases source
        rfl
      · intro kind
        cases source with
        | deposit call odd root => exact block _
        | utxo call included => exact block _
        | fee call => exact (kind rfl).elim
  | _ => trivial

theorem createdFrom_run (c : Crypto) (deployer : Address)
    (messages : List Message) :
    Along CreatedFrom (execute (step c) (new deployer) messages).2 := by
  have both := run_induction
    (fun past s => Numbered c past s ∧ Along CreatedFrom past)
    (by
      intro past s m inputs effect next holds _ act
      refine ⟨holds.1.acts act, ?_⟩
      rw [← List.append_assoc]
      refine (holds.2.append ?_).snoc (createdFrom_acts holds.1 act)
      intro report member before
      obtain ⟨input, _, rfl⟩ := List.mem_map.mp member
      trivial)
    (by
      intro past s m effect next holds taken
      refine ⟨holds.1.removes taken, holds.2.snoc ?_⟩
      cases taken
      trivial)
    ⟨Numbered.new c deployer, Along.nil⟩
    (stepsMeet_of_forall (fun _ _ _ => trivial) _ : StepsMeet (step c)
      (fun _ _ => True) _ messages)
  exact both.2

/-- The effects of a call carry its time. -/
theorem step_times (c : Crypto) (s : RootChain) (m : Message) :
    ∀ time ∈ times (step c s m).2, time = m.timestamp := by
  have rounds : ∀ s effects next, Rounds m s effects next →
      ∀ time ∈ times effects, time = m.timestamp := by
    intro s effects next taken
    induction taken with
    | done s =>
        intro time member
        cases member
    | next first rest induction =>
        intro time member
        cases first
        rcases List.mem_cons.mp member with same | later
        · exact same
        · exact induction time later
  rcases step_cases c s m with same | ⟨inputs, effect, emitted, act⟩ | taken
  · rw [same]
    intro time member
    cases member
  · rw [emitted, times_append, times_hashed, List.nil_append]
    generalize (step c s m).1 = next at act
    intro time member
    cases act <;> simp_all [times, Effect.time?]
  · exact rounds s _ _ taken

/-- With a clock that never goes back the effects are in the order of their
times. -/
theorem times_run (c : Crypto) {messages : List Message}
    (clock : (messages.map Message.timestamp).Pairwise (· ≤ ·))
    (s : RootChain) :
    (times (execute (step c) s messages).2).Pairwise (· ≤ ·) ∧
      ∀ time ∈ times (execute (step c) s messages).2,
        time ∈ messages.map Message.timestamp := by
  induction messages generalizing s with
  | nil => exact ⟨List.Pairwise.nil, fun _ member => by cases member⟩
  | cons m messages induction =>
      rw [List.map_cons, List.pairwise_cons] at clock
      obtain ⟨sorted, known⟩ := induction clock.2 (step c s m).1
      have now := step_times c s m
      rw [execute_cons, times_append]
      constructor
      · rw [List.pairwise_append]
        refine ⟨?_, sorted, ?_⟩
        · refine List.pairwise_of_forall_mem_list ?_
          intro first left second right
          rw [now first left, now second right]
        · intro first left second right
          rw [now first left]
          exact clock.1 second (known second right)
      · intro time member
        rcases List.mem_append.mp member with first | later
        · rw [now time first]
          exact List.mem_cons_self
        · exact List.mem_cons_of_mem _ (known time later)

/-- The priority is the later one of the two delays. -/
theorem exitableAt_toNat {createdAt now : Word}
    (created : createdAt.toNat ≤ 2 ^ 127) (early : now.toNat < 2 ^ 127) :
    (createdAt.toNat + 1209600 ≤ (exitableAt createdAt now).toNat ∧
        now.toNat + 604800 ≤ (exitableAt createdAt now).toNat) ∧
      ((exitableAt createdAt now).toNat = createdAt.toNat + 1209600 ∨
        (exitableAt createdAt now).toNat = now.toNat + 604800) := by
  have two : (weeks 2).toNat = 1209600 := rfl
  have one : (weeks 1).toNat = 604800 := rfl
  have first : (createdAt + weeks 2).toNat = createdAt.toNat + 1209600 := by
    rw [BitVec.toNat_add, two]
    omega
  have second : (now + weeks 1).toNat = now.toNat + 604800 := by
    rw [BitVec.toNat_add, one]
    omega
  rw [exitableAt, max]
  split
  · next less =>
      rw [BitVec.le_def, first, second] at less
      omega
  · next more =>
      rw [BitVec.le_def, first, second] at more
      omega

end RootChain

/-!
## Older blocks leave first
-/

/-- An exit as the history records its start. -/
structure ExitRecord where
  kind : ExitKind
  utxoPos : Word
  timestamp : Word
  exitableAt : Word

namespace ExitRecord

def effect (e : ExitRecord) : Effect :=
  .exitStarted e.kind e.utxoPos e.timestamp e.exitableAt

def blknum (e : ExitRecord) : Word := e.utxoPos / 1000000000

/-- An exit of an output of a block is started when the block is there. -/
def OfBlock (e : ExitRecord) (history : List Effect) (block : Word × ChildBlock) :
    Prop :=
  e.kind ≠ .fee ∧ e.blknum = block.1 ∧
    ∃ before after, history = before ++ e.effect :: after ∧
      block ∈ registrations before

end ExitRecord

theorem Fits.record {history : List Effect} (fits : Fits history)
    {e : ExitRecord} (started : e.effect ∈ history) :
    e.utxoPos.toNat < 2 ^ 128 ∧ e.exitableAt.toNat < 2 ^ 128 :=
  fits (e.utxoPos, e.exitableAt) (mem_starts.mpr ⟨_, _, started⟩)

namespace RootChain

section Order

variable {c : Crypto} {deployer : Address} {messages : List Message}
  {history : List Effect}

theorem times_early
    (run : history = (execute (step c) (new deployer) messages).2)
    (clock : (messages.map Message.timestamp).Pairwise (· ≤ ·))
    (early : ∀ m ∈ messages, m.timestamp.toNat < 2 ^ 127) :
    ∀ time ∈ times history, time.toNat < 2 ^ 127 := by
  intro time member
  rw [run] at member
  have known := (times_run c clock (new deployer)).2 time member
  obtain ⟨m, sent, rfl⟩ := List.mem_map.mp known
  exact early m sent

theorem time_of_registration {block : Word × ChildBlock}
    {before : List Effect} (member : block ∈ registrations before) :
    block.2.timestamp ∈ times before :=
  List.mem_filterMap.mpr ⟨_, mem_registrations.mp member, rfl⟩

/-- The creation time of an exit and the bounds on it. -/
theorem created_bounds
    (run : history = (execute (step c) (new deployer) messages).2)
    (small : ∀ time ∈ times history, time.toNat < 2 ^ 127)
    (e : ExitRecord) {before after : List Effect}
    (split : history = before ++ e.effect :: after) :
    ∃ createdAt, e.exitableAt = exitableAt createdAt e.timestamp ∧
      createdAt.toNat ≤ 2 ^ 127 ∧ e.timestamp.toNat < 2 ^ 127 ∧
      (e.kind = .fee → createdAt.toNat = e.timestamp.toNat + 1) ∧
      (e.kind ≠ .fee →
        (∀ entry ∈ registrations before, entry.1 = e.blknum →
          createdAt = entry.2.timestamp) ∧
        (e.blknum ∉ (registrations before).map Prod.fst →
          createdAt = 0)) := by
  have along := createdFrom_run c deployer messages
  rw [← run] at along
  obtain ⟨createdAt, priority, fee, block⟩ := along before e.effect after split
  have now : e.timestamp.toNat < 2 ^ 127 := by
    refine small e.timestamp ?_
    rw [split, times_append]
    exact List.mem_append_right _ List.mem_cons_self
  have successor : e.kind = .fee →
      createdAt.toNat = e.timestamp.toNat + 1 := by
    intro kind
    have one : (1 : Word).toNat = 1 := rfl
    rw [fee kind, BitVec.toNat_add, one]
    omega
  refine ⟨createdAt, priority, ?_, now, successor, block⟩
  by_cases kind : e.kind = .fee
  · rw [successor kind]
    omega
  · obtain ⟨found, missing⟩ := block kind
    by_cases listed : e.blknum ∈ (registrations before).map Prod.fst
    · obtain ⟨entry, member, same⟩ := List.mem_map.mp listed
      rw [found entry member same]
      refine (small _ ?_).le
      rw [split, times_append]
      exact List.mem_append_left _ (time_of_registration member)
    · rw [missing listed]
      exact Nat.zero_le _

theorem fits_run
    (run : history = (execute (step c) (new deployer) messages).2)
    (small : ∀ time ∈ times history, time.toNat < 2 ^ 127)
    (positions : ∀ e : ExitRecord, e.effect ∈ history →
      e.utxoPos.toNat < 2 ^ 128) : Fits history := by
  intro entry member
  obtain ⟨kind, timestamp, started⟩ := mem_starts.mp member
  have position := positions ⟨kind, entry.1, timestamp, entry.2⟩ started
  refine ⟨position, ?_⟩
  obtain ⟨before, after, split⟩ := List.append_of_mem started
  obtain ⟨createdAt, priority, created, now, _⟩ := created_bounds run small
    ⟨kind, entry.1, timestamp, entry.2⟩ split
  obtain ⟨_, value⟩ := exitableAt_toNat created now
  rw [← priority] at value
  simp only at value now
  omega

/-- Registrations are named once. -/
theorem registration_unique
    (run : history = (execute (step c) (new deployer) messages).2)
    {first second : Word × ChildBlock} (left : first ∈ registrations history)
    (right : second ∈ registrations history) (same : first.1 = second.1) :
    first = second := by
  have numbered := numbered_run c deployer messages
  rw [← run] at numbered
  have entry := numbered.stored first left
  rw [same, numbered.stored second right] at entry
  exact Prod.ext same entry.symm

/-- The priority of an exit from a block that was registered by the time
`limit`, started within a week of it. -/
theorem priority_le
    (run : history = (execute (step c) (new deployer) messages).2)
    (small : ∀ time ∈ times history, time.toNat < 2 ^ 127)
    {e : ExitRecord} {block : Word × ChildBlock} {limit : Nat}
    (started : e.effect ∈ history) (kind : e.kind ≠ .fee)
    (listed : block ∈ registrations history) (output : e.blknum = block.1)
    (created : block.2.timestamp.toNat ≤ limit)
    (inTime : e.timestamp.toNat ≤ limit + 604800) :
    e.exitableAt.toNat ≤ limit + 1209600 := by
  obtain ⟨before, after, split⟩ := List.append_of_mem started
  obtain ⟨createdAt, priority, bound, now, _, source⟩ :=
    created_bounds run small e split
  obtain ⟨found, missing⟩ := source kind
  have old : createdAt.toNat ≤ limit := by
    by_cases there : e.blknum ∈ (registrations before).map Prod.fst
    · obtain ⟨entry, member, same⟩ := List.mem_map.mp there
      have whole : entry ∈ registrations history := by
        rw [split, registrations_append]
        exact List.mem_append_left _ member
      have equal := registration_unique run whole listed (same.trans output)
      rw [found entry member same, equal]
      exact created
    · rw [missing there]
      exact Nat.zero_le _
  obtain ⟨_, value⟩ := exitableAt_toNat bound now
  rw [← priority] at value
  omega

/-- The priority of an exit of an output of a block. -/
theorem le_priority
    (run : history = (execute (step c) (new deployer) messages).2)
    (small : ∀ time ∈ times history, time.toNat < 2 ^ 127)
    {e : ExitRecord} {block : Word × ChildBlock}
    (exit : e.OfBlock history block) :
    block.2.timestamp.toNat + 1209600 ≤ e.exitableAt.toNat := by
  obtain ⟨kind, output, before, after, split, listed⟩ := exit
  obtain ⟨createdAt, priority, bound, now, _, source⟩ :=
    created_bounds run small e split
  have created := (source kind).1 block listed output.symm
  obtain ⟨value, _⟩ := exitableAt_toNat bound now
  rw [← priority, created] at value
  exact value.1

/-- The priority of a fee exit. -/
theorem lt_priority_fee
    (run : history = (execute (step c) (new deployer) messages).2)
    (small : ∀ time ∈ times history, time.toNat < 2 ^ 127)
    {e : ExitRecord} (started : e.effect ∈ history) (kind : e.kind = .fee) :
    e.timestamp.toNat + 1209600 < e.exitableAt.toNat := by
  obtain ⟨before, after, split⟩ := List.append_of_mem started
  obtain ⟨createdAt, priority, bound, now, fee, _⟩ :=
    created_bounds run small e split
  obtain ⟨value, _⟩ := exitableAt_toNat bound now
  rw [← priority, fee kind] at value
  omega

/-- An exit with a smaller element that was started before another one is
removed has been removed itself. -/
theorem removed_of_element_lt
    (run : history = (execute (step c) (new deployer) messages).2)
    (fits : Fits history) {first second : ExitRecord}
    (secondStarted : second.effect ∈ history)
    (smaller : element first.exitableAt first.utxoPos <
      element second.exitableAt second.utxoPos)
    {before after : List Effect} {payee : Address} {amount time : Word}
    (removed : history =
      before ++ .removed second.utxoPos payee amount time :: after) :
    second.exitableAt < time ∧
      (first.effect ∈ before → first.utxoPos ∈ removals before) := by
  rw [run] at fits
  have queued := queued_run fits
  rw [← run] at queued
  obtain ⟨exitableAt, listed, mature, order⟩ :=
    queued.order before _ after removed
  have whole : (second.utxoPos, exitableAt) ∈ starts history := by
    rw [removed, starts_append]
    exact List.mem_append_left _ listed
  have recorded : (second.utxoPos, second.exitableAt) ∈ starts history :=
    mem_starts.mpr ⟨_, _, secondStarted⟩
  have same := congrArg Prod.snd (queued.unique whole recorded rfl)
  have equal : exitableAt = second.exitableAt := same
  rw [equal] at mature order
  refine ⟨mature, ?_⟩
  intro firstStarted
  exact order (first.utxoPos, first.exitableAt)
    (mem_starts.mpr ⟨_, _, firstStarted⟩) smaller

/-- The exits that have to wait for the older ones: exits of outputs of the
block or of a later block, and fee exits started at or after its
registration. -/
def Waits (e : ExitRecord) (history future : List Effect)
    (block : Word × ChildBlock) : Prop :=
  (e.kind = .fee ∧ e.effect ∈ history ∧ block.2.timestamp ≤ e.timestamp) ∨
    ∃ later, (later = block ∨ later ∈ registrations future) ∧
      e.OfBlock history later

theorem Waits.started {e : ExitRecord} {future : List Effect}
    {block : Word × ChildBlock} (waits : Waits e history future block) :
    e.effect ∈ history := by
  rcases waits with ⟨_, started, _⟩ | ⟨_, _, _, _, before, after, split, _⟩
  · exact started
  · rw [split]
    simp

/-- The blocks registered before and after a block, by number and by time. -/
theorem registered_in_order
    (run : history = (execute (step c) (new deployer) messages).2)
    (clock : (messages.map Message.timestamp).Pairwise (· ≤ ·))
    {past future : List Effect} {block : Word × ChildBlock}
    (registered : history = past ++
      .registered block.1 block.2.root block.2.timestamp :: future) :
    (∀ older ∈ registrations past, older.1.toNat < block.1.toNat ∧
        older.2.timestamp.toNat ≤ block.2.timestamp.toNat) ∧
      ∀ later ∈ registrations future, block.1.toNat < later.1.toNat ∧
        block.2.timestamp.toNat ≤ later.2.timestamp.toNat := by
  have sorted := (times_run c clock (new deployer)).1
  have clockSplit : times history =
      times past ++ block.2.timestamp :: times future := by
    rw [registered, times_append]
    rfl
  rw [← run, clockSplit, List.pairwise_append] at sorted
  have increasing := (numbered_run c deployer messages).increasing
  have blocks : registrations history =
      registrations past ++ block :: registrations future := by
    rw [registered, registrations_append]
    rfl
  rw [← run, blocks, List.pairwise_append] at increasing
  constructor
  · intro older member
    refine ⟨increasing.2.2 older member block List.mem_cons_self, ?_⟩
    exact BitVec.le_def.mp (sorted.2.2 _ (time_of_registration member) _
      List.mem_cons_self)
  · intro later member
    refine ⟨(List.pairwise_cons.mp increasing.2.1).1 later member, ?_⟩
    exact BitVec.le_def.mp ((List.pairwise_cons.mp sorted.2.1).1 _
      (time_of_registration member))

/-- Mass exits: an exit from a block registered before `block` and started
within a week of the registration of `block` leaves the queue before every
exit that has to wait. -/
theorem older_exits_removed_first
    (run : history = (execute (step c) (new deployer) messages).2)
    (clock : (messages.map Message.timestamp).Pairwise (· ≤ ·))
    (early : ∀ m ∈ messages, m.timestamp.toNat < 2 ^ 127)
    (positions : ∀ e : ExitRecord, e.effect ∈ history →
      e.utxoPos.toNat < 2 ^ 128)
    {past future : List Effect} {block older : Word × ChildBlock}
    (registered : history = past ++
      .registered block.1 block.2.root block.2.timestamp :: future)
    (registeredBefore : older ∈ registrations past)
    {first second : ExitRecord} (started : first.effect ∈ history)
    (kind : first.kind ≠ .fee) (output : first.blknum = older.1)
    (inTime : first.timestamp.toNat ≤ block.2.timestamp.toNat + 604800)
    (waits : Waits second history future block)
    {before after : List Effect} {payee : Address} {amount time : Word}
    (removed : history =
      before ++ .removed second.utxoPos payee amount time :: after) :
    ∃ payee amount time, .removed first.utxoPos payee amount time ∈ before := by
  have small := times_early run clock early
  have fits := fits_run run small positions
  have sorted := (times_run c clock (new deployer)).1
  rw [← run] at sorted
  obtain ⟨earlier, afterwards⟩ := registered_in_order run clock registered
  obtain ⟨olderNumber, olderTime⟩ := earlier older registeredBefore
  have olderListed : older ∈ registrations history := by
    rw [registered, registrations_append]
    exact List.mem_append_left _ registeredBefore
  have firstPriority := priority_le run small started kind olderListed output
    olderTime inTime
  have secondStarted := waits.started
  have secondPriority :
      block.2.timestamp.toNat + 1209600 < second.exitableAt.toNat ∨
      block.2.timestamp.toNat + 1209600 ≤ second.exitableAt.toNat ∧
        first.utxoPos.toNat < second.utxoPos.toNat := by
    rcases waits with ⟨fee, effect, notBefore⟩ | ⟨later, place, exit⟩
    · left
      have bound := lt_priority_fee run small effect fee
      have order := BitVec.le_def.mp notBefore
      omega
    · right
      have bound := le_priority run small exit
      have number : block.1.toNat ≤ later.1.toNat ∧
          block.2.timestamp.toNat ≤ later.2.timestamp.toNat := by
        rcases place with rfl | member
        · exact ⟨le_refl _, le_refl _⟩
        · obtain ⟨above, notBefore⟩ := afterwards later member
          exact ⟨above.le, notBefore⟩
      have firstBlock := congrArg BitVec.toNat output
      have secondBlock := congrArg BitVec.toNat exit.2.1
      simp only [ExitRecord.blknum, BitVec.toNat_udiv] at firstBlock secondBlock
      have scale : (1000000000 : Word).toNat = 1000000000 := rfl
      rw [scale] at firstBlock secondBlock
      omega
  have firstBounds := fits.record started
  have secondBounds := fits.record secondStarted
  have smaller : element first.exitableAt first.utxoPos <
      element second.exitableAt second.utxoPos := by
    rw [element_lt_iff firstBounds.2 firstBounds.1 secondBounds.2
      secondBounds.1, BitVec.lt_def, BitVec.lt_def, BitVec.toNat_eq]
    omega
  obtain ⟨mature, gone⟩ :=
    removed_of_element_lt run fits secondStarted smaller removed
  refine mem_removals.mp (gone ?_)
  rw [removed] at started
  rcases List.mem_append.mp started with earlier | later
  · exact earlier
  · rcases List.mem_cons.mp later with same | afterwards
    · cases same
    · have late : time ≤ first.timestamp := by
        rw [removed, times_append, List.pairwise_append] at sorted
        exact (List.pairwise_cons.mp sorted.2.1).1 _
          (List.mem_filterMap.mpr ⟨_, afterwards, rfl⟩)
      have bound := BitVec.le_def.mp late
      have ripe := BitVec.lt_def.mp mature
      omega

end Order

/-- Two deposits, a child block, the exit of the first deposit and a fee exit
after it, all finalised in the end. -/
def exitRun : List Message :=
  [Sample.depositMessage Sample.alice 5, Sample.depositMessage Sample.bob 7,
    Sample.submitMessage, Sample.depositExit 1000000000, Sample.feeExit,
    Sample.finalize]

def exitHistory : List Effect :=
  (execute (step Sample.crypto) (new Sample.alice) exitRun).2

def depositRecord : ExitRecord :=
  ⟨.deposit, 1000000000, Sample.start + 20, Sample.start + weeks 2⟩

def feeRecord : ExitRecord :=
  ⟨.fee, 1, Sample.start + 30, Sample.start + 31 + weeks 2⟩

theorem exitHistory_positions (e : ExitRecord)
    (started : e.effect ∈ exitHistory) : e.utxoPos.toNat < 2 ^ 128 := by
  have listed : e.utxoPos ∈ (starts exitHistory).map Prod.fst :=
    List.mem_map_of_mem (mem_starts.mpr ⟨_, _, started⟩ :
      (e.utxoPos, e.exitableAt) ∈ starts exitHistory)
  have both : (starts exitHistory).map Prod.fst = [1000000000, 1] := by
    decide +kernel
  rw [both] at listed
  rcases List.mem_cons.mp listed with same | rest
  · rw [same]
    decide
  · rw [List.mem_singleton.mp rest]
    decide

theorem deposit_exit_removed_before_fee_exit :
    exitHistory[9]? = some (.removed 1 Sample.alice 3
        (Sample.start + weeks 3)) ∧
      ∃ payee amount time,
        .removed 1000000000 payee amount time ∈ exitHistory.take 9 := by
  refine ⟨by decide +kernel, ?_⟩
  have run : exitHistory =
      (execute (step Sample.crypto) (new Sample.alice) exitRun).2 := rfl
  have clock : (exitRun.map Message.timestamp).Pairwise (· ≤ ·) := by
    decide +kernel
  have early : ∀ m ∈ exitRun, m.timestamp.toNat < 2 ^ 127 := by
    decide +kernel
  have registered : exitHistory = exitHistory.take 4 ++
      .registered 1000 Sample.spendRoot (Sample.start + 10) ::
        exitHistory.drop 5 := by
    decide +kernel
  have older : (1, ⟨Sample.crypto.keccak256 (depositInput Sample.alice 0 5),
      Sample.start⟩) ∈ registrations (exitHistory.take 4) := by
    decide +kernel
  have started : depositRecord.effect ∈ exitHistory := by decide +kernel
  have waits : Waits feeRecord exitHistory (exitHistory.drop 5)
      (1000, ⟨Sample.spendRoot, Sample.start + 10⟩) :=
    .inl ⟨rfl, by decide +kernel, by decide +kernel⟩
  have removed : exitHistory = exitHistory.take 9 ++
      .removed feeRecord.utxoPos Sample.alice 3 (Sample.start + weeks 3) ::
        [] := by
    decide +kernel
  exact older_exits_removed_first run clock early exitHistory_positions
    registered older
    started (by decide) (by decide +kernel) (by decide +kernel) waits removed

end RootChain

end Plasma.Contract
