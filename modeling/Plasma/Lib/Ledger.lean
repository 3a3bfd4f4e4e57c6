import Mathlib
import Plasma.Lib.Changes

/-!
# Ledgers of coins

A ledger assigns at most one coin to every identifier.  Its total worth is
conserved by a list of changes when the deleted identifiers are pairwise
different and every created one is fresh.  Without freshness the total still
never exceeds the account of the changes, because overwriting a coin only
loses worth.
-/

namespace Plasma.Lib

variable {Id Coin : Type*} (worth : Coin → ℕ)

/-- The worth a list of changes creates. -/
def putWorth : List (Change Id Coin) → ℕ
  | [] => 0
  | .delete _ :: changes => putWorth changes
  | .put _ coin :: changes => worth coin + putWorth changes

theorem putWorth_filter (real : Id → Bool) (changes : List (Change Id Coin))
    (putReal : ∀ id ∈ putKeys changes, real id = true) :
    putWorth worth (changes.filter fun change => real change.key) =
      putWorth worth changes := by
  induction changes with
  | nil => rfl
  | cons change changes induction =>
      cases change with
      | delete id =>
          have rest := induction putReal
          cases kept : real id <;> simp [putWorth, kept, rest]
      | put id coin =>
          have kept : real id = true := putReal id (by simp [putKeys])
          have rest := induction fun other member =>
            putReal other (by simp [putKeys, member])
          simp [putWorth, kept, rest]

def worthAt (ledger : Id → Option Coin) (id : Id) : ℕ :=
  (ledger id).elim 0 worth

section Total

variable [Fintype Id]

/-- The total worth of a ledger. -/
def total (ledger : Id → Option Coin) : ℕ :=
  ∑ id, worthAt worth ledger id

@[simp] theorem total_empty : total worth (fun _ : Id => none) = 0 := by
  simp [total, worthAt]

variable [DecidableEq Id]

omit [Fintype Id] in
theorem worthAt_apply (change : Change Id Coin) (ledger : Id → Option Coin)
    (id : Id) :
    worthAt worth (change.apply ledger) id =
      if id = change.key then change.outcome.elim 0 worth
      else worthAt worth ledger id := by
  by_cases same : id = change.key
  · subst same
    simp [worthAt, Change.apply]
  · simp [worthAt, Change.apply, same]

omit [Fintype Id] in
private theorem sum_worthAt_apply_of_notMem {change : Change Id Coin}
    (ledger : Id → Option Coin) {ids : Finset Id}
    (absent : change.key ∉ ids) :
    ∑ id ∈ ids, worthAt worth (change.apply ledger) id =
      ∑ id ∈ ids, worthAt worth ledger id := by
  apply Finset.sum_congr rfl
  intro id member
  rw [worthAt_apply, if_neg]
  intro same
  exact absent (same ▸ member)

/-- One change exchanges the worth held under its identifier. -/
theorem total_apply (change : Change Id Coin) (ledger : Id → Option Coin) :
    total worth (change.apply ledger) + worthAt worth ledger change.key =
      total worth ledger + change.outcome.elim 0 worth := by
  have others := sum_worthAt_apply_of_notMem worth ledger
    (Finset.notMem_erase change.key Finset.univ)
  have after := Finset.sum_erase_add Finset.univ
    (worthAt worth (change.apply ledger)) (Finset.mem_univ change.key)
  have before := Finset.sum_erase_add Finset.univ
    (worthAt worth ledger) (Finset.mem_univ change.key)
  rw [worthAt_apply, if_pos rfl] at after
  unfold total
  omega

/-- Conservation over fresh identifiers: the total moves by what was put
minus what was deleted. -/
theorem total_applyAll_of_fresh (changes : List (Change Id Coin))
    (ledger : Id → Option Coin)
    (deletedOnce : (deletedKeys changes).Nodup)
    (putOnce : (putKeys changes).Nodup)
    (separate : ∀ id ∈ putKeys changes, id ∉ deletedKeys changes)
    (fresh : ∀ id ∈ putKeys changes, ledger id = none) :
    total worth (applyAll changes ledger) +
        ((deletedKeys changes).map (worthAt worth ledger)).sum =
      total worth ledger + putWorth worth changes := by
  induction changes generalizing ledger with
  | nil => simp [deletedKeys, putWorth]
  | cons change changes induction =>
      have exchange := total_apply worth change ledger
      have keeps : ∀ ids : List Id, change.key ∉ ids →
          ids.map (worthAt worth (change.apply ledger)) =
            ids.map (worthAt worth ledger) := by
        intro ids absent
        apply List.map_congr_left
        intro id member
        rw [worthAt_apply, if_neg]
        intro same
        exact absent (same ▸ member)
      cases change with
      | delete id =>
          simp only [deletedKeys, List.nodup_cons] at deletedOnce
          have rest := induction ((Change.delete id).apply ledger)
            deletedOnce.2 putOnce
            (fun other member deleted => separate other member (by
              simp [deletedKeys, deleted]))
            (fun other member => by
              have different : other ≠ id := by
                intro same
                exact separate other member (by simp [deletedKeys, same])
              rw [Change.apply_of_ne different]
              exact fresh other member)
          rw [keeps _ deletedOnce.1] at rest
          simp only [Change.key, Change.outcome, Option.elim] at exchange
          simp only [applyAll_cons, deletedKeys, List.map_cons, List.sum_cons,
            putWorth]
          omega
      | put id coin =>
          simp only [putKeys, List.nodup_cons] at putOnce
          have undeleted : id ∉ deletedKeys changes := by
            intro deleted
            exact separate id (by simp [putKeys]) (by
              simpa [deletedKeys] using deleted)
          have rest := induction ((Change.put id coin).apply ledger)
            (by simpa [deletedKeys] using deletedOnce) putOnce.2
            (fun other member deleted => separate other
              (by simp [putKeys, member])
              (by simpa [deletedKeys] using deleted))
            (fun other member => by
              have different : other ≠ id := by
                intro same
                exact putOnce.1 (same ▸ member)
              rw [Change.apply_of_ne different]
              exact fresh other (by simp [putKeys, member]))
          rw [keeps _ undeleted] at rest
          have empty : worthAt worth ledger id = 0 := by
            simp [worthAt, fresh id (by simp [putKeys])]
          simp only [Change.key, Change.outcome, Option.elim] at exchange
          simp only [applyAll_cons, deletedKeys, putWorth]
          omega

omit [Fintype Id] in
private theorem touched_cons (change : Change Id Coin)
    (changes : List (Change Id Coin)) :
    ((change :: changes).map Change.key).toFinset =
      insert change.key (changes.map Change.key).toFinset := by
  simp

/-- Without freshness the total is at most what the untouched identifiers
keep plus what the changes create. -/
theorem total_applyAll_le (changes : List (Change Id Coin))
    (ledger : Id → Option Coin) :
    total worth (applyAll changes ledger) +
        ∑ id ∈ (changes.map Change.key).toFinset, worthAt worth ledger id ≤
      total worth ledger + putWorth worth changes := by
  induction changes generalizing ledger with
  | nil => simp [putWorth]
  | cons change changes induction =>
      have exchange := total_apply worth change ledger
      have rest := induction (change.apply ledger)
      have created : putWorth worth (change :: changes) =
          change.outcome.elim 0 worth + putWorth worth changes := by
        cases change <;> simp [putWorth, Change.outcome]
      rw [applyAll_cons, created, touched_cons]
      by_cases again : change.key ∈ (changes.map Change.key).toFinset
      · rw [Finset.insert_eq_of_mem again]
        have before := Finset.sum_erase_add _ (worthAt worth ledger) again
        have after := Finset.sum_erase_add _
          (worthAt worth (change.apply ledger)) again
        have others := sum_worthAt_apply_of_notMem worth ledger
          (Finset.notMem_erase change.key
            (changes.map Change.key).toFinset)
        rw [worthAt_apply, if_pos rfl] at after
        omega
      · have others := sum_worthAt_apply_of_notMem worth ledger again
        rw [Finset.sum_insert again]
        omega

/-- Changing pairwise different identifiers takes at least their worth. -/
theorem total_applyAll_le_of_touched (changes : List (Change Id Coin))
    (ledger : Id → Option Coin) {ids : List Id} (once : ids.Nodup)
    (touched : ∀ id ∈ ids, id ∈ changes.map Change.key) :
    total worth (applyAll changes ledger) +
        (ids.map (worthAt worth ledger)).sum ≤
      total worth ledger + putWorth worth changes := by
  have bound := total_applyAll_le worth changes ledger
  have subset : ids.toFinset ⊆ (changes.map Change.key).toFinset := by
    intro id member
    exact List.mem_toFinset.mpr (touched id (List.mem_toFinset.mp member))
  have part : ∑ id ∈ ids.toFinset, worthAt worth ledger id ≤
      ∑ id ∈ (changes.map Change.key).toFinset, worthAt worth ledger id :=
    Finset.sum_le_sum_of_subset subset
  have listed : ∑ id ∈ ids.toFinset, worthAt worth ledger id =
      (ids.map (worthAt worth ledger)).sum :=
    List.sum_toFinset _ once
  omega

end Total

end Plasma.Lib
