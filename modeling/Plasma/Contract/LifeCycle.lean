import Plasma.Contract.Priority

/-!
# The life of an exit

An exit is started once, waits for the two delays and is paid once.  The exits
that one call pays leave the queue in the order of their priorities, and no
other exit was in front of them.
-/

namespace Plasma.Contract

open Plasma.Core Plasma.Lib PriorityQueue

/-- A digest of the history is zero, as the root of a block that is not
there. -/
def ZeroDigest (c : Crypto) (history : List Effect) : Prop :=
  ∃ input, .hashed input ∈ history ∧ c.keccak256 input = 0

/-- The block of an exit was registered before the exit was started. -/
def Founded (c : Crypto) (before : List Effect) : Effect → Prop
  | .exitStarted kind utxoPos _ _ => kind ≠ .fee →
      utxoPos / 1000000000 ∈ (registrations before).map Prod.fst ∨
        ZeroDigest c before
  | _ => True

def Precedes (first second : Word × Word) : Prop :=
  first.2 < second.2 ∨ first.2 = second.2 ∧ first.1 < second.1

def Delayed (c : Crypto) (history : List Effect) (e : ExitRecord)
    (time : Word) : Prop :=
  e.timestamp.toNat + 604800 < time.toNat ∧
    (e.kind = .fee → e.timestamp.toNat + 1 + 1209600 < time.toNat) ∧
    (e.kind ≠ .fee →
      (∃ block ∈ registrations history, block.1 = e.blknum ∧
        block.2.timestamp.toNat + 1209600 < time.toNat) ∨
      ZeroDigest c history)

/-- The exits that a call removes after `past`: all exits in front of one of
them are gone, and the later ones were behind it. -/
def RemovedInOrder (past effects : List Effect) : Prop :=
  ∀ before after utxoPos payee amount time,
    effects = before ++ .removed utxoPos payee amount time :: after →
      ∃ exitableAt, (utxoPos, exitableAt) ∈ starts past ∧
        (∀ other ∈ starts past, Precedes other (utxoPos, exitableAt) →
          other.1 ∈ removals (past ++ before)) ∧
        ∀ other ∈ starts past, other.1 ∈ removals after →
          Precedes (utxoPos, exitableAt) other

theorem ZeroDigest.mono {c : Crypto} {first second : List Effect}
    (zero : ZeroDigest c first) : ZeroDigest c (first ++ second) := by
  obtain ⟨input, hashed, digest⟩ := zero
  exact ⟨input, List.mem_append_left _ hashed, digest⟩

namespace RootChain

variable {c : Crypto} {m : Message} {s next : RootChain}

theorem founded_acts {past : List Effect} {inputs : List Bytes}
    {effect : Effect} (numbered : Numbered c past s)
    (act : Acts c m s inputs effect next) :
    Founded c (past ++ inputs.map Effect.hashed) effect := by
  have block : ∀ (utxoPos : Word) (input : Bytes), input ∈ inputs →
      c.keccak256 input = (s.childChain (utxoPos / 1000000000)).root →
      utxoPos / 1000000000 ∈ (registrations
          (past ++ inputs.map Effect.hashed)).map Prod.fst ∨
        ZeroDigest c (past ++ inputs.map Effect.hashed) := by
    intro utxoPos input hashed digest
    by_cases listed : utxoPos / 1000000000 ∈
        (registrations past).map Prod.fst
    · left
      simpa using listed
    · right
      refine ⟨input, ?_, ?_⟩
      · exact List.mem_append_right _ (List.mem_map_of_mem hashed)
      · rw [digest, numbered.unset _ listed]
  cases act with
  | exitStarted source positive unused =>
      intro kind
      cases source with
      | deposit call odd root =>
          exact block _ _ List.mem_cons_self root.symm
      | utxo call included =>
          obtain ⟨input, hashed, _, digest⟩ := included
          exact block _ input hashed digest
      | fee call => exact (kind rfl).elim
  | _ => trivial

theorem founded_run (c : Crypto) (deployer : Address)
    (messages : List Message) :
    Along (Founded c) (execute (step c) (new deployer) messages).2 := by
  have both := run_induction
    (fun past s => Numbered c past s ∧ Along (Founded c) past)
    (by
      intro past s m inputs effect next holds _ act
      refine ⟨holds.1.acts act, ?_⟩
      rw [← List.append_assoc]
      refine (holds.2.append ?_).snoc (founded_acts holds.1 act)
      intro report member before
      obtain ⟨input, _, rfl⟩ := List.mem_map.mp member
      trivial)
    (by
      intro past s m effect next holds taken
      refine ⟨holds.1.removes taken, holds.2.snoc ?_⟩
      cases taken
      trivial)
    ⟨Numbered.new c deployer, Along.nil⟩
    (stepsMeet_of_forall (fun _ _ _ => trivial) _ : StepsMeet (step c)
      (fun _ _ => True) _ messages)
  exact both.2

theorem removals_nodup {deployer : Address} {messages : List Message}
    (fits : Fits (execute (step c) (new deployer) messages).2) :
    (removals (execute (step c) (new deployer) messages).2).Nodup := by
  refine (run_induction
    (fun past s => Fits past → Queued past s ∧ (removals past).Nodup) ?_ ?_
    (fun _ => ⟨Queued.new deployer, List.nodup_nil⟩)
    (stepsMeet_of_forall (fun _ _ _ => trivial) _ : StepsMeet (step c)
      (fun _ _ => True) _ messages) fits).2
  · intro past s m inputs effect next holds _ act fits
    obtain ⟨queued, nodup⟩ := holds fits.of_append
    refine ⟨queued.acts fits act, ?_⟩
    have silent : removals [effect] = [] := by
      cases act <;> rfl
    simpa [silent] using nodup
  · intro past s m effect next holds taken fits
    obtain ⟨queued, nodup⟩ := holds fits.of_append
    refine ⟨queued.removes fits.of_append taken, ?_⟩
    cases taken with
    | round front mature funded deleted =>
        obtain ⟨_, pending, _⟩ := queued.front fits.of_append front
        rw [removals_append]
        refine List.nodup_append.mpr ⟨nodup, List.nodup_singleton _, ?_⟩
        rintro earlier member _ last rfl
        rw [List.mem_singleton.mp last] at member
        exact pending member

theorem starts_of_removal {utxoPos : Word} {payee : Address}
    {amount time : Word}
    (removed : .removed utxoPos payee amount time ∈ (step c s m).2) :
    starts (step c s m).2 = [] := by
  have rounds : ∀ s effects next, Rounds m s effects next →
      starts effects = [] := by
    intro s effects next taken
    induction taken with
    | done s => rfl
    | next first rest induction =>
        cases first
        exact induction
  rcases step_cases c s m with same | ⟨inputs, effect, emitted, act⟩ | taken
  · rw [same]
    rfl
  · rw [emitted] at removed
    generalize (step c s m).1 = next at act
    rcases List.mem_append.mp removed with hashed | last
    · obtain ⟨_, _, same⟩ := List.mem_map.mp hashed
      cases same
    · rw [← List.mem_singleton.mp last] at act
      cases act
  · exact rounds s _ _ taken

section

variable {deployer : Address} {messages : List Message}
  {history : List Effect}

/-- A paid exit was started before, and both its delays are over. -/
theorem delayed_of_removed
    (run : history = (execute (step c) (new deployer) messages).2)
    (small : ∀ time ∈ times history, time.toNat < 2 ^ 127)
    (fits : Fits history) {before after : List Effect} {utxoPos : Word}
    {payee : Address} {amount time : Word}
    (removed : history =
      before ++ .removed utxoPos payee amount time :: after) :
    ∃ e : ExitRecord, e.utxoPos = utxoPos ∧ e.effect ∈ before ∧
      Delayed c before e time := by
  have queued := queued_run (run ▸ fits)
  rw [← run] at queued
  obtain ⟨exitableAt, started, mature, _⟩ :=
    queued.order before _ after removed
  obtain ⟨kind, timestamp, effect⟩ := mem_starts.mp started
  refine ⟨⟨kind, utxoPos, timestamp, exitableAt⟩, rfl, effect, ?_⟩
  obtain ⟨past, future, split⟩ := List.append_of_mem effect
  have whole : history = past ++
      (⟨kind, utxoPos, timestamp, exitableAt⟩ : ExitRecord).effect ::
        (future ++ .removed utxoPos payee amount time :: after) := by
    rw [removed, split]
    simp [ExitRecord.effect]
  obtain ⟨createdAt, priority, bound, now, fee, source⟩ :=
    created_bounds run small _ whole
  obtain ⟨⟨afterCreation, afterStart⟩, _⟩ := exitableAt_toNat bound now
  rw [← priority] at afterCreation afterStart
  have ripe : exitableAt.toNat < time.toNat := mature
  refine ⟨afterStart.trans_lt ripe, ?_, ?_⟩
  · intro isFee
    rw [← fee isFee]
    exact afterCreation.trans_lt ripe
  · intro notFee
    have founded := founded_run c deployer messages
    rw [← run] at founded
    rcases founded _ _ _ whole notFee with listed | zero
    · left
      obtain ⟨block, member, same⟩ := List.mem_map.mp listed
      refine ⟨block, ?_, same, ?_⟩
      · rw [split, registrations_append]
        exact List.mem_append_left _ member
      · rw [← (source notFee).1 block member same]
        exact afterCreation.trans_lt ripe
    · right
      rw [split]
      exact zero.mono

theorem removedInOrder_step
    (run : history = (execute (step c) (new deployer) messages).2)
    (fits : Fits history) {first rest : List Message}
    (split : messages = first ++ m :: rest) :
    RemovedInOrder (execute (step c) (new deployer) first).2
      (step c (execute (step c) (new deployer) first).1 m).2 := by
  have queued := queued_run (run ▸ fits)
  have nodup := removals_nodup (run ▸ fits)
  rw [← run] at queued nodup
  obtain ⟨future, whole⟩ : ∃ future, history =
      (execute (step c) (new deployer) first).2 ++
        (step c (execute (step c) (new deployer) first).1 m).2 ++ future := by
    refine ⟨(execute (step c) (step c (execute (step c) (new deployer)
      first).1 m).1 rest).2, ?_⟩
    rw [run, split, execute_append, execute_cons, List.append_assoc]
  generalize (execute (step c) (new deployer) first).1 = s at *
  generalize (execute (step c) (new deployer) first).2 = past at *
  intro before after utxoPos payee amount time removed
  have member : .removed utxoPos payee amount time ∈ (step c s m).2 := by
    rw [removed]
    exact List.mem_append_right _ List.mem_cons_self
  have silent := starts_of_removal member
  rw [removed] at silent whole
  have quiet : starts (past ++ before) = starts past := by
    rw [starts_append, List.append_eq_nil_iff] at silent
    rw [starts_append, silent.1, List.append_nil]
  have here : history = (past ++ before) ++
      .removed utxoPos payee amount time :: (after ++ future) := by
    rw [whole]
    simp
  obtain ⟨exitableAt, started, _, order⟩ := queued.order _ _ _ here
  rw [quiet] at started order
  have bounds : ∀ entry ∈ starts past,
      entry.1.toNat < 2 ^ 128 ∧ entry.2.toNat < 2 ^ 128 := by
    intro entry member
    refine fits entry ?_
    rw [here, starts_append, quiet]
    exact List.mem_append_left _ member
  have small := bounds _ started
  refine ⟨exitableAt, started, ?_, ?_⟩
  · intro other listed precedes
    have fit := bounds other listed
    exact order other listed
      ((element_lt_iff fit.2 fit.1 small.2 small.1).mpr precedes)
  · intro other listed later
    have fit := bounds other listed
    have tail : removals (.removed utxoPos payee amount time ::
        (after ++ future)) =
        utxoPos :: (removals after ++ removals future) := by
      rw [← removals_append]
      rfl
    rw [here, removals_append, tail, List.nodup_append] at nodup
    have waiting : other.1 ∉ removals (past ++ before) := by
      intro gone
      exact nodup.2.2 _ gone _
        (List.mem_cons_of_mem _ (List.mem_append_left _ later)) rfl
    have different : other.1 ≠ utxoPos := by
      rintro same
      rw [same] at later
      exact (List.nodup_cons.mp nodup.2.1).1 (List.mem_append_left _ later)
    refine (element_lt_iff small.2 small.1 fit.2 fit.1).mp ?_
    rcases lt_trichotomy (element exitableAt utxoPos)
      (element other.2 other.1) with less | equal | greater
    · exact less
    · have unpacked := congrArg splitElement equal
      rw [splitElement_element small.2 small.1,
        splitElement_element fit.2 fit.1] at unpacked
      exact (different (congrArg Prod.snd unpacked).symm).elim
    · exact (waiting (order other listed greater)).elim

/-- The life cycle of the exits of every run. -/
theorem exit_life_cycle
    (run : history = (execute (step c) (new deployer) messages).2)
    (clock : (messages.map Message.timestamp).Pairwise (· ≤ ·))
    (early : ∀ m ∈ messages, m.timestamp.toNat < 2 ^ 127)
    (positions : ∀ e : ExitRecord, e.effect ∈ history →
      e.utxoPos.toNat < 2 ^ 128) :
    ((starts history).map Prod.fst).Nodup ∧ (removals history).Nodup ∧
      (∀ before after utxoPos payee amount time,
        history = before ++ .removed utxoPos payee amount time :: after →
          ∃ e : ExitRecord, e.utxoPos = utxoPos ∧ e.effect ∈ before ∧
            Delayed c before e time) ∧
      ∀ first m rest, messages = first ++ m :: rest →
        RemovedInOrder (execute (step c) (new deployer) first).2
          (step c (execute (step c) (new deployer) first).1 m).2 := by
  have small := times_early run clock early
  have fits := fits_run run small positions
  have distinct := (queued_run (run ▸ fits)).distinct
  have nodup := removals_nodup (run ▸ fits)
  rw [← run] at distinct nodup
  refine ⟨distinct, nodup, ?_, ?_⟩
  · intro before after utxoPos payee amount time removed
    exact delayed_of_removed run small fits removed
  · intro first m rest split
    exact removedInOrder_step run fits split

end

theorem sample_exits_life_cycle :
    removals exitHistory = [1000000000, 1] ∧ (removals exitHistory).Nodup := by
  refine ⟨by decide +kernel, ?_⟩
  exact (exit_life_cycle (rfl : exitHistory = _) (by decide +kernel)
    (by decide +kernel) exitHistory_positions).2.1

end RootChain

end Plasma.Contract
