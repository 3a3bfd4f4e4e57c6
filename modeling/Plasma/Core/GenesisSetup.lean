import Plasma.Core.OperatorRun

/-!
# Genesis set-up

`SetupGenesisBlock` with all it returns: the chain configuration, the hash of
the genesis block and the error.  `Commit` returns no block with its error, and
the caller asks this block for its hash before it looks at the error.
-/

namespace Plasma.Core

open Plasma.Lib Plasma.Store

/-- The configurations of the package `params`. -/
structure ChainParams (Config : Type) where
  mainnetChainConfig : Config
  allEthashProtocolChanges : Config

/-- A genesis specification; the pointer to the configuration can be nil. -/
structure GenesisSpec (Config : Type) where
  config : Option Config
  genesis : Genesis

inductive GenesisError where
  | noConfig
  | mismatch (stored new : Hash)
deriving DecidableEq, Repr

inductive SetupOutcome (Config : Type) where
  | returned (config : Option Config) (hash : Hash)
      (failure : Option GenesisError)
  | nilDereference
deriving DecidableEq, Repr

section

variable {Config : Type} (p : Primitives) (params : ChainParams Config)

def defaultGenesisSpec : GenesisSpec Config :=
  { config := some params.mainnetChainConfig
    genesis := Genesis.defaultGenesisBlock }

/-- The configuration is looked at first; a stored genesis block is only
compared with a given one. -/
def setupGenesis (disk : Bool) (genesis : Option (GenesisSpec Config))
    (d : Database) : Database × SetupOutcome Config :=
  if genesis.any fun spec => spec.config.isNone then
    (d, .returned (some params.allEthashProtocolChanges) 0 (some .noConfig))
  else
    let stored := Rawdb.readCanonicalHash d 0
    if stored = 0 then
      let spec := genesis.getD (defaultGenesisSpec params)
      match spec.genesis.commit p disk d with
      | .error _ => (d, .nilDereference)
      | .ok (d, block) => (d, .returned spec.config (block.hash p) none)
    else
      match genesis with
      | some spec =>
          let hash := (spec.genesis.toBlock p).hash p
          if hash ≠ stored then
            (d, .returned spec.config hash (some (.mismatch stored hash)))
          else (d, .returned (some params.mainnetChainConfig) 0 none)
      | none => (d, .returned (some params.mainnetChainConfig) 0 none)

/-- The block that would be committed. -/
def specBlock (genesis : Option (GenesisSpec Config)) : Block :=
  (genesis.getD (defaultGenesisSpec params)).genesis.toBlock p

/-- The set-up never dereferences a missing block, and after one that succeeds
the same call changes nothing and returns the same configuration and hash. -/
def Repeatable (genesis : Option (GenesisSpec Config)) (d : Database) :
    Prop :=
  (setupGenesis p params true genesis d).2 ≠ .nilDereference ∧
    ∀ config hash,
      (setupGenesis p params true genesis d).2 = .returned config hash none →
        setupGenesis p params true genesis
            (setupGenesis p params true genesis d).1 =
          ((setupGenesis p params true genesis d).1,
            .returned config hash none)

/-- The database has a genesis block, or the specification is refused for its
missing configuration; a block with the zero hash does not count as stored. -/
def RepeatsSetup (genesis : Option (GenesisSpec Config)) (d : Database) :
    Prop :=
  (genesis.any fun spec => spec.config.isNone) = true ∨
    Rawdb.readCanonicalHash d 0 ≠ 0 ∨
    ((specBlock p params genesis).number = 0 ∧
      (specBlock p params genesis).hash p = 0 ∧ d.inBatch = false)

/-!
## Committing the genesis block
-/

def genesisChanges (block : Block) : List (Change DbKey DbValue) :=
  Rawdb.blockChanges p block ++
    [.put (.canonicalHash block.numberU64) (.hash (block.hash p)),
      .put .headBlock (.hash (block.hash p)),
      .put .headHeader (.hash (block.hash p))]

variable {p params}

theorem commit_of_number {g : Genesis} (given : (g.toBlock p).number ≠ 0)
    (disk : Bool) (d : Database) :
    g.commit p disk d = .error .genesisNumber := by
  unfold Genesis.commit
  exact if_pos given

theorem commit_closed {g : Genesis} (zero : (g.toBlock p).number = 0)
    (contents : Contents) (batch : List (Change DbKey DbValue)) :
    g.commit p true ⟨contents, false, batch⟩ =
      .ok (⟨applyAll (genesisChanges p (g.toBlock p)) contents, false, batch⟩,
        g.toBlock p) := by
  unfold Genesis.commit
  exact if_neg (not_not.mpr zero)

theorem commit_inBatch {g : Genesis} (zero : (g.toBlock p).number = 0)
    (contents : Contents) (batch : List (Change DbKey DbValue)) :
    g.commit p true ⟨contents, true, batch⟩ =
      .ok (⟨contents, true, batch ++ genesisChanges p (g.toBlock p)⟩,
        g.toBlock p) := by
  unfold Genesis.commit
  refine (if_neg (not_not.mpr zero)).trans ?_
  simp [genesisChanges, Rawdb.writeBlock_inBatch, Rawdb.writeCanonicalHash,
    Rawdb.writeHeadBlockHash, Rawdb.writeHeadHeaderHash]

theorem canonical_genesisChanges {block : Block} (zero : block.number = 0)
    (contents : Contents) :
    applyAll (genesisChanges p block) contents (.canonicalHash 0) =
      some (.hash (block.hash p)) := by
  have number : block.numberU64 = 0 := by
    rw [Block.numberU64, show block.header.number = 0 from zero]
    rfl
  simp [genesisChanges, Rawdb.blockChanges, Change.apply, Change.key,
    Change.outcome, number]

theorem applyAll_twice (changes : List (Change DbKey DbValue))
    (contents : Contents) :
    applyAll changes (applyAll changes contents) =
      applyAll changes contents := by
  funext key
  rw [applyAll_eq_lastEffect, applyAll_eq_lastEffect changes contents]
  cases lastEffect changes key with
  | none => rfl
  | some outcome => rfl

/-!
## The second set-up
-/

theorem setupGenesis_noConfig {genesis : Option (GenesisSpec Config)}
    (missing : (genesis.any fun spec => spec.config.isNone) = true)
    (d : Database) :
    setupGenesis p params true genesis d =
      (d, .returned (some params.allEthashProtocolChanges) 0
        (some .noConfig)) := by
  unfold setupGenesis
  exact if_pos missing

theorem setupGenesis_stored {genesis : Option (GenesisSpec Config)}
    (given : ¬ (genesis.any fun spec => spec.config.isNone) = true)
    {d : Database} (stored : Rawdb.readCanonicalHash d 0 ≠ 0) :
    (setupGenesis p params true genesis d).1 = d ∧
      (setupGenesis p params true genesis d).2 ≠ .nilDereference := by
  unfold setupGenesis
  rw [if_neg given]
  simp only [stored, if_false]
  cases genesis with
  | none => exact ⟨rfl, by simp⟩
  | some spec =>
      dsimp only
      split
      · exact ⟨rfl, by simp⟩
      · exact ⟨rfl, by simp⟩

theorem setupGenesis_number {genesis : Option (GenesisSpec Config)}
    (given : ¬ (genesis.any fun spec => spec.config.isNone) = true)
    {d : Database} (absent : Rawdb.readCanonicalHash d 0 = 0)
    (number : (specBlock p params genesis).number ≠ 0) :
    setupGenesis p params true genesis d = (d, .nilDereference) := by
  unfold setupGenesis
  rw [if_neg given]
  simp only [absent, if_true]
  rw [commit_of_number number]

/-- Without a genesis block the set-up commits one. -/
theorem setupGenesis_commits {genesis : Option (GenesisSpec Config)}
    (given : ¬ (genesis.any fun spec => spec.config.isNone) = true)
    {d next : Database} (absent : Rawdb.readCanonicalHash d 0 = 0)
    (committed : (genesis.getD (defaultGenesisSpec params)).genesis.commit p
      true d = .ok (next, specBlock p params genesis)) :
    setupGenesis p params true genesis d =
      (next, .returned (genesis.getD (defaultGenesisSpec params)).config
        ((specBlock p params genesis).hash p) none) := by
  unfold setupGenesis
  rw [if_neg given]
  simp only [absent, if_true]
  rw [committed]

/-- A genesis block that was just committed is not committed again under
another hash than zero: the second call returns no hash. -/
theorem setupGenesis_again {genesis : Option (GenesisSpec Config)}
    (given : ¬ (genesis.any fun spec => spec.config.isNone) = true)
    {d : Database}
    (stored : Rawdb.readCanonicalHash d 0 =
      (specBlock p params genesis).hash p)
    (nonzero : (specBlock p params genesis).hash p ≠ 0) :
    setupGenesis p params true genesis d =
      (d, .returned (some params.mainnetChainConfig) 0 none) := by
  unfold setupGenesis
  rw [if_neg given]
  simp only [stored, nonzero, if_false]
  cases genesis with
  | none => rfl
  | some spec => simp [specBlock]

theorem repeatable_of_stored {genesis : Option (GenesisSpec Config)}
    (given : ¬ (genesis.any fun spec => spec.config.isNone) = true)
    {d : Database} (stored : Rawdb.readCanonicalHash d 0 ≠ 0) :
    Repeatable p params genesis d := by
  have kept : (setupGenesis p params true genesis d).1 = d ∧ _ :=
    setupGenesis_stored given stored
  obtain ⟨same, safe⟩ := kept
  refine ⟨safe, ?_⟩
  intro config hash done
  rw [same]
  exact Prod.ext same done

/-- In an open transaction the second call adds its writes to the batch once
more. -/
theorem not_repeatable_inBatch {genesis : Option (GenesisSpec Config)}
    (given : ¬ (genesis.any fun spec => spec.config.isNone) = true)
    {contents : Contents} {batch : List (Change DbKey DbValue)}
    (absent : Rawdb.readCanonicalHash ⟨contents, true, batch⟩ 0 = 0)
    (zero : (specBlock p params genesis).number = 0) :
    ¬ Repeatable p params genesis ⟨contents, true, batch⟩ := by
  rintro ⟨_, again⟩
  have first := setupGenesis_commits given absent
    (commit_inBatch zero contents batch)
  have second := setupGenesis_commits given
    (d := ⟨contents, true, batch ++
      genesisChanges p (specBlock p params genesis)⟩) absent
    (commit_inBatch zero contents _)
  have repeated := again _ _ (congrArg Prod.snd first)
  rw [first] at repeated
  have batches := congrArg
    (fun result => result.1.defaultBatch.length) (second.symm.trans repeated)
  simp [genesisChanges, Rawdb.blockChanges] at batches

/-- Outside a transaction the second call finds the committed block, unless its
hash is zero, and returns the zero hash. -/
theorem repeatable_closed_iff {genesis : Option (GenesisSpec Config)}
    (given : ¬ (genesis.any fun spec => spec.config.isNone) = true)
    {contents : Contents} {batch : List (Change DbKey DbValue)}
    (absent : Rawdb.readCanonicalHash ⟨contents, false, batch⟩ 0 = 0)
    (zero : (specBlock p params genesis).number = 0) :
    Repeatable p params genesis ⟨contents, false, batch⟩ ↔
      (specBlock p params genesis).hash p = 0 := by
  have committed : ∀ contents : Contents,
      (genesis.getD (defaultGenesisSpec params)).genesis.commit p true
          ⟨contents, false, batch⟩ =
        .ok (⟨applyAll (genesisChanges p (specBlock p params genesis)) contents,
          false, batch⟩, specBlock p params genesis) :=
    fun contents => commit_closed zero contents batch
  have first := setupGenesis_commits given absent (committed contents)
  have stored : Rawdb.readCanonicalHash
      ⟨applyAll (genesisChanges p (specBlock p params genesis)) contents,
        false, batch⟩ 0 = (specBlock p params genesis).hash p := by
    simp [Rawdb.readCanonicalHash, Rawdb.readHash, LDBDatabase.get,
      canonical_genesisChanges zero]
  constructor
  · rintro ⟨_, again⟩
    by_contra nonzero
    have second := setupGenesis_again given stored nonzero
    have repeated := again _ _ (congrArg Prod.snd first)
    rw [first] at repeated
    have outcomes := congrArg Prod.snd (second.symm.trans repeated)
    simp only [SetupOutcome.returned.injEq] at outcomes
    exact nonzero outcomes.2.1.symm
  · intro nothing
    have second := setupGenesis_commits given (stored.trans nothing)
      (committed _)
    refine ⟨by simp [first], ?_⟩
    intro config hash done
    rw [first] at done ⊢
    rw [applyAll_twice] at second
    exact second.trans (Prod.ext rfl done)

variable (p params) in
/-- Genesis set-up is repeatable exactly on a database with a genesis block and
for a specification without configuration. -/
theorem genesis_setup_repeatable_iff (genesis : Option (GenesisSpec Config))
    (d : Database) :
    Repeatable p params genesis d ↔ RepeatsSetup p params genesis d := by
  unfold RepeatsSetup
  by_cases missing : (genesis.any fun spec => spec.config.isNone) = true
  · refine iff_of_true ⟨?_, ?_⟩ (Or.inl missing)
    · simp [setupGenesis_noConfig missing]
    · simp [setupGenesis_noConfig missing]
  by_cases absent : Rawdb.readCanonicalHash d 0 = 0
  · simp only [missing, absent, ne_eq, not_true_eq_false, false_or,
      Bool.false_eq_true]
    by_cases zero : (specBlock p params genesis).number = 0
    · obtain ⟨contents, inBatch, batch⟩ := d
      cases inBatch with
      | true =>
          simp [not_repeatable_inBatch missing absent zero]
      | false =>
          simp [repeatable_closed_iff missing absent zero, zero]
    · refine iff_of_false ?_ (fun condition => zero condition.1)
      rintro ⟨safe, _⟩
      rw [setupGenesis_number missing absent zero] at safe
      exact safe rfl
  · exact iff_of_true (repeatable_of_stored missing absent)
      (Or.inr (Or.inl absent))

end

/-!
## Connection with the start of a node
-/

/-- The set-up that starts a node is the same function without what it
returns. -/
theorem setupGenesisBlock_eq_setupGenesis {Config : Type} (p : Primitives)
    (params : ChainParams Config) (disk : Bool)
    {genesis : Option (GenesisSpec Config)}
    (given : ¬ (genesis.any fun spec => spec.config.isNone) = true)
    (d : Database) :
    (setupGenesisBlock p disk (genesis.map GenesisSpec.genesis) d).1 =
        (setupGenesis p params disk genesis d).1 ∧
      ((setupGenesisBlock p disk (genesis.map GenesisSpec.genesis) d).2 =
          .ok () ↔
        ∃ config hash, (setupGenesis p params disk genesis d).2 =
          .returned config hash none) := by
  have chosen : (genesis.map GenesisSpec.genesis).getD
      Genesis.defaultGenesisBlock =
        (genesis.getD (defaultGenesisSpec params)).genesis := by
    cases genesis <;> rfl
  unfold setupGenesisBlock setupGenesis
  rw [if_neg given]
  by_cases absent : Rawdb.readCanonicalHash d 0 = 0
  · simp only [absent, if_true, chosen]
    cases (genesis.getD (defaultGenesisSpec params)).genesis.commit p disk d
      with
    | error failure => simp
    | ok committed => simp
  · simp only [absent, if_false]
    cases genesis with
    | none => simp
    | some spec =>
        dsimp only [Option.map_some]
        split <;> simp

namespace Sample

def chainParams : ChainParams Nat := ⟨1, 1337⟩

def customGenesis : GenesisSpec Nat :=
  ⟨some 15, Genesis.defaultGenesisBlock⟩

def numberedGenesis : GenesisSpec Nat :=
  ⟨some 15, { Genesis.defaultGenesisBlock with number := 1 }⟩

end Sample

/-- The second start returns another configuration and the zero hash, and a
genesis block with a number is dereferenced. -/
theorem second_setup_returns_mainnet :
    (setupGenesis Sample.primitives Sample.chainParams true
        (some Sample.customGenesis) Database.empty).2 =
        .returned (some 15) Sample.genesisHash none ∧
      (setupGenesis Sample.primitives Sample.chainParams true
        (some Sample.customGenesis)
        (setupGenesis Sample.primitives Sample.chainParams true
          (some Sample.customGenesis) Database.empty).1).2 =
        .returned (some 1) 0 none ∧
      (setupGenesis Sample.primitives Sample.chainParams true
        (some Sample.numberedGenesis) Database.empty).2 =
        .nilDereference := by
  refine ⟨?_, ?_, ?_⟩ <;> decide +kernel

end Plasma.Core
