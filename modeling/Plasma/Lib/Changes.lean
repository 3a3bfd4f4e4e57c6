import Mathlib

/-!
# Changes of a keyed store

A store holds at most one value under every key and is changed by deletions
and puts.  A list of changes is related here to its last effect on each key.
-/

namespace Plasma.Lib

inductive Change (Key Value : Type*) where
  | delete (key : Key)
  | put (key : Key) (value : Value)
deriving DecidableEq

variable {Key Value : Type*}

namespace Change

def key : Change Key Value → Key
  | .delete key => key
  | .put key _ => key

@[simp] theorem key_delete (key : Key) :
    (delete key : Change Key Value).key = key := rfl

@[simp] theorem key_put (key : Key) (value : Value) :
    (put key value).key = key := rfl

/-- What the touched key holds after the change. -/
def outcome : Change Key Value → Option Value
  | .delete _ => none
  | .put _ value => some value

/-- The change of an encoded store. -/
def map {EncodedKey EncodedValue : Type*} (encodeKey : Key → EncodedKey)
    (encodeValue : Value → EncodedValue) :
    Change Key Value → Change EncodedKey EncodedValue
  | .delete key => .delete (encodeKey key)
  | .put key value => .put (encodeKey key) (encodeValue value)

theorem key_map {EncodedKey EncodedValue : Type*}
    (encodeKey : Key → EncodedKey) (encodeValue : Value → EncodedValue)
    (change : Change Key Value) :
    (change.map encodeKey encodeValue).key = encodeKey change.key := by
  cases change <;> rfl

theorem outcome_map {EncodedKey EncodedValue : Type*}
    (encodeKey : Key → EncodedKey) (encodeValue : Value → EncodedValue)
    (change : Change Key Value) :
    (change.map encodeKey encodeValue).outcome =
      change.outcome.map encodeValue := by
  cases change <;> rfl

end Change

def deletedKeys : List (Change Key Value) → List Key
  | [] => []
  | .delete key :: changes => key :: deletedKeys changes
  | .put _ _ :: changes => deletedKeys changes

def putKeys : List (Change Key Value) → List Key
  | [] => []
  | .delete _ :: changes => putKeys changes
  | .put key _ :: changes => key :: putKeys changes

theorem deletedKeys_append (first second : List (Change Key Value)) :
    deletedKeys (first ++ second) =
      deletedKeys first ++ deletedKeys second := by
  induction first with
  | nil => rfl
  | cons change changes induction =>
      cases change <;> simp [deletedKeys, induction]

theorem deletedKeys_subset (changes : List (Change Key Value)) :
    deletedKeys changes ⊆ changes.map Change.key := by
  induction changes with
  | nil => exact List.Subset.refl _
  | cons change changes induction =>
      cases change with
      | delete key => exact List.cons_subset_cons key induction
      | put key value => exact List.subset_cons_of_subset key induction

theorem putKeys_append (first second : List (Change Key Value)) :
    putKeys (first ++ second) = putKeys first ++ putKeys second := by
  induction first with
  | nil => rfl
  | cons change changes induction =>
      cases change <;> simp [putKeys, induction]

theorem deletedKeys_filter (real : Key → Bool)
    (changes : List (Change Key Value)) :
    deletedKeys (changes.filter fun change => real change.key) =
      (deletedKeys changes).filter real := by
  induction changes with
  | nil => rfl
  | cons change changes induction =>
      cases change with
      | delete key =>
          cases kept : real key <;> simp [deletedKeys, kept, induction]
      | put key value =>
          cases kept : real key <;> simp [deletedKeys, kept, induction]

theorem putKeys_filter (real : Key → Bool)
    (changes : List (Change Key Value)) :
    putKeys (changes.filter fun change => real change.key) =
      (putKeys changes).filter real := by
  induction changes with
  | nil => rfl
  | cons change changes induction =>
      cases change with
      | delete key =>
          cases kept : real key <;> simp [putKeys, kept, induction]
      | put key value =>
          cases kept : real key <;> simp [putKeys, kept, induction]

section Effects

variable [DecidableEq Key]

def Change.apply (change : Change Key Value)
    (contents : Key → Option Value) : Key → Option Value :=
  Function.update contents change.key change.outcome

/-- Apply a list of changes from left to right. -/
def applyAll :
    List (Change Key Value) → (Key → Option Value) → Key → Option Value
  | [], contents => contents
  | change :: changes, contents => applyAll changes (change.apply contents)

@[simp] theorem applyAll_nil (contents : Key → Option Value) :
    applyAll [] contents = contents := rfl

@[simp] theorem applyAll_cons (change : Change Key Value)
    (changes : List (Change Key Value)) (contents : Key → Option Value) :
    applyAll (change :: changes) contents =
      applyAll changes (change.apply contents) := rfl

theorem applyAll_append (first second : List (Change Key Value))
    (contents : Key → Option Value) :
    applyAll (first ++ second) contents =
      applyAll second (applyAll first contents) := by
  induction first generalizing contents with
  | nil => rfl
  | cons change changes induction => simp [induction]

theorem Change.apply_of_ne {change : Change Key Value} {key : Key}
    (different : key ≠ change.key) (contents : Key → Option Value) :
    change.apply contents key = contents key := by
  simp [Change.apply, different]

/-- The last effect of a list of changes on a key, or `none` when the key is
not touched. -/
def lastEffect : List (Change Key Value) → Key → Option (Option Value)
  | [], _ => none
  | change :: changes, key =>
      match lastEffect changes key with
      | some outcome => some outcome
      | none => if key = change.key then some change.outcome else none

theorem applyAll_eq_lastEffect (changes : List (Change Key Value))
    (contents : Key → Option Value) (key : Key) :
    applyAll changes contents key =
      (lastEffect changes key).getD (contents key) := by
  induction changes generalizing contents with
  | nil => rfl
  | cons change changes induction =>
      rw [applyAll_cons, induction, lastEffect]
      cases lastEffect changes key with
      | some outcome => rfl
      | none =>
          by_cases here : key = change.key
          · subst here
            simp [Change.apply]
          · simp [Change.apply, here]

/-- A store whose keys are encoded one to one holds the encoding of every
value of the store it encodes, and keeps doing so under the same changes. -/
theorem applyAll_map {EncodedKey EncodedValue : Type*}
    [DecidableEq EncodedKey] {encodeKey : Key → EncodedKey}
    (apart : Function.Injective encodeKey)
    (encodeValue : Value → EncodedValue) (changes : List (Change Key Value))
    {contents : Key → Option Value}
    {encoded : EncodedKey → Option EncodedValue}
    (holds : ∀ key, encoded (encodeKey key) = (contents key).map encodeValue)
    (key : Key) :
    applyAll (changes.map (Change.map encodeKey encodeValue)) encoded
        (encodeKey key) =
      (applyAll changes contents key).map encodeValue := by
  induction changes generalizing contents encoded with
  | nil => exact holds key
  | cons change changes induction =>
      rw [List.map_cons, applyAll_cons, applyAll_cons]
      apply induction
      intro other
      by_cases same : other = change.key
      · subst same
        simp [Change.apply, Change.key_map, Change.outcome_map]
      · have different :
            encodeKey other ≠ (change.map encodeKey encodeValue).key := by
          rw [Change.key_map]
          exact apart.ne same
        rw [Change.apply_of_ne different, Change.apply_of_ne same]
        exact holds other

theorem lastEffect_append (first second : List (Change Key Value))
    (key : Key) :
    lastEffect (first ++ second) key =
      (lastEffect second key).or (lastEffect first key) := by
  induction first with
  | nil => exact Option.or_none.symm
  | cons change changes induction =>
      rw [List.cons_append, lastEffect, induction, lastEffect]
      cases lastEffect second key <;> simp

theorem lastEffect_singleton (change : Change Key Value) (key : Key) :
    lastEffect [change] key =
      if key = change.key then some change.outcome else none := rfl

theorem mem_of_lastEffect (changes : List (Change Key Value)) {key : Key}
    {outcome : Option Value} (effect : lastEffect changes key = some outcome) :
    ∃ change ∈ changes, change.key = key := by
  induction changes with
  | nil => cases effect
  | cons change changes induction =>
      cases later : lastEffect changes key with
      | some other =>
          rw [lastEffect, later] at effect
          obtain ⟨found, member, same⟩ := induction (later.trans effect)
          exact ⟨found, List.mem_cons_of_mem change member, same⟩
      | none =>
          simp only [lastEffect, later] at effect
          split at effect
          · rename_i here
            exact ⟨change, List.mem_cons_self, here.symm⟩
          · cases effect

/-- Replaying changes is invisible exactly when the store already holds their
last effect on every key they touch. -/
theorem applyAll_eq_self_iff (changes : List (Change Key Value))
    (contents : Key → Option Value) :
    applyAll changes contents = contents ↔
      ∀ key outcome, lastEffect changes key = some outcome →
        contents key = outcome := by
  constructor
  · intro unchanged key outcome effect
    have value := applyAll_eq_lastEffect changes contents key
    rw [unchanged, effect] at value
    exact value
  · intro settled
    funext key
    rw [applyAll_eq_lastEffect]
    cases effect : lastEffect changes key with
    | none => rfl
    | some outcome => exact (settled key outcome effect).symm

theorem applyAll_of_untouched (changes : List (Change Key Value))
    (contents : Key → Option Value) {key : Key}
    (undeleted : key ∉ deletedKeys changes)
    (unput : key ∉ putKeys changes) :
    applyAll changes contents key = contents key := by
  induction changes generalizing contents with
  | nil => rfl
  | cons change changes induction =>
      cases change with
      | delete other =>
          simp only [deletedKeys, List.mem_cons, not_or] at undeleted
          rw [applyAll_cons, induction _ undeleted.2 unput]
          exact Change.apply_of_ne undeleted.1 contents
      | put other value =>
          simp only [putKeys, List.mem_cons, not_or] at unput
          rw [applyAll_cons, induction _ undeleted unput.2]
          exact Change.apply_of_ne unput.1 contents

theorem applyAll_of_keys (changes : List (Change Key Value))
    (contents : Key → Option Value) {key : Key}
    (others : ∀ change ∈ changes, change.key ≠ key) :
    applyAll changes contents key = contents key := by
  induction changes generalizing contents with
  | nil => rfl
  | cons change changes induction =>
      have rest : ∀ other ∈ changes, other.key ≠ key := by
        intro other member
        exact others other (List.mem_cons_of_mem change member)
      have different : key ≠ change.key :=
        (others change List.mem_cons_self).symm
      rw [applyAll_cons, induction _ rest]
      exact Change.apply_of_ne different contents

/-- A value present after some changes was present before or was put. -/
theorem put_of_applyAll (changes : List (Change Key Value))
    (contents : Key → Option Value) {key : Key} {value : Value}
    (present : applyAll changes contents key = some value) :
    contents key = some value ∨ .put key value ∈ changes := by
  induction changes generalizing contents with
  | nil => exact .inl present
  | cons change changes induction =>
      rcases induction _ present with before | later
      · by_cases same : key = change.key
        · rw [Change.apply, same, Function.update_self] at before
          cases change with
          | delete other => cases before
          | put other stored =>
              cases before
              cases same
              exact .inr List.mem_cons_self
        · left
          rwa [Change.apply_of_ne same] at before
      · exact .inr (List.mem_cons_of_mem change later)

omit [DecidableEq Key] in
theorem mem_putKeys {changes : List (Change Key Value)} {key : Key} :
    key ∈ putKeys changes ↔ ∃ value, .put key value ∈ changes := by
  induction changes with
  | nil => simp [putKeys]
  | cons change changes induction =>
      cases change with
      | delete other => simp [putKeys, induction]
      | put other stored =>
          simp only [putKeys, List.mem_cons, induction, Change.put.injEq]
          constructor
          · rintro (rfl | ⟨value, later⟩)
            · exact ⟨stored, .inl ⟨rfl, rfl⟩⟩
            · exact ⟨value, .inr later⟩
          · rintro ⟨value, ⟨same, _⟩ | later⟩
            · exact .inl same
            · exact .inr ⟨value, later⟩

theorem mem_of_applyAll (changes : List (Change Key Value))
    (contents : Key → Option Value) {key : Key} {value : Value}
    (present : applyAll changes contents key = some value) :
    contents key = some value ∨ key ∈ putKeys changes := by
  rcases put_of_applyAll changes contents present with before | put
  · exact .inl before
  · exact .inr (mem_putKeys.mpr ⟨value, put⟩)

/-- A put under a key that is put once and never deleted stays. -/
theorem applyAll_of_put (changes : List (Change Key Value))
    (contents : Key → Option Value) {key : Key} {value : Value}
    (put : .put key value ∈ changes) (undeleted : key ∉ deletedKeys changes)
    (once : (putKeys changes).Nodup) :
    applyAll changes contents key = some value := by
  induction changes generalizing contents with
  | nil => cases put
  | cons change changes induction =>
      cases change with
      | delete other =>
          simp only [deletedKeys, List.mem_cons, not_or] at undeleted
          refine induction _ ?_ undeleted.2 once
          exact (List.mem_cons.mp put).resolve_left nofun
      | put other stored =>
          obtain ⟨absent, rest⟩ := List.nodup_cons.mp once
          rcases List.mem_cons.mp put with same | later
          · cases same
            have kept := applyAll_of_untouched changes
              ((Change.put key value).apply contents) undeleted absent
            rw [applyAll_cons, kept, Change.apply]
            exact Function.update_self ..
          · exact induction _ later undeleted rest

/-- A key that is not deleted stays present. -/
theorem applyAll_ne_none (changes : List (Change Key Value))
    (contents : Key → Option Value) {key : Key}
    (present : contents key ≠ none) (undeleted : key ∉ deletedKeys changes) :
    applyAll changes contents key ≠ none := by
  induction changes generalizing contents with
  | nil => exact present
  | cons change changes induction =>
      cases change with
      | delete other =>
          simp only [deletedKeys, List.mem_cons, not_or] at undeleted
          apply induction _ _ undeleted.2
          rw [Change.apply_of_ne undeleted.1]
          exact present
      | put other value =>
          refine induction _ ?_ undeleted
          by_cases same : key = other
          · simp [Change.apply, Change.outcome, same]
          · rw [Change.apply_of_ne same]
            exact present

/-- Under a key that is never deleted the changes alone or the contents before
them decide. -/
theorem applyAll_of_undeleted (changes : List (Change Key Value))
    (contents : Key → Option Value) {key : Key}
    (undeleted : key ∉ deletedKeys changes) :
    applyAll changes contents key =
      (applyAll changes (fun _ => none) key).or (contents key) := by
  induction changes generalizing contents with
  | nil => rfl
  | cons change changes induction =>
      have rest : key ∉ deletedKeys changes := by
        cases change with
        | delete other => exact fun member => undeleted (.tail _ member)
        | put other value => exact undeleted
      rw [applyAll_cons, applyAll_cons, induction _ rest,
        induction (change.apply fun _ => none) rest, Option.or_assoc]
      congr 1
      cases change with
      | delete other =>
          have different : key ≠ other := by
            rintro rfl
            exact undeleted List.mem_cons_self
          rw [Change.apply_of_ne different, Change.apply_of_ne different]
          rfl
      | put other value =>
          by_cases same : key = other
          · simp [Change.apply, same]
            rfl
          · rw [Change.apply_of_ne same, Change.apply_of_ne same]
            rfl

theorem applyAll_of_deleted (changes : List (Change Key Value))
    (contents : Key → Option Value) {key : Key}
    (deleted : key ∈ deletedKeys changes) (unput : key ∉ putKeys changes) :
    applyAll changes contents key = none := by
  induction changes generalizing contents with
  | nil => simp [deletedKeys] at deleted
  | cons change changes induction =>
      cases change with
      | delete other =>
          by_cases later : key ∈ deletedKeys changes
          · exact induction _ later unput
          · have same : key = other := by
              simpa [deletedKeys, later] using deleted
            rw [applyAll_cons, applyAll_of_untouched _ _ later unput]
            simp [Change.apply, Change.key, Change.outcome, same]
      | put other value =>
          simp only [putKeys, List.mem_cons, not_or] at unput
          exact induction _ deleted unput.2

/-- Deletions of keys that are neither held nor put have no effect. -/
theorem applyAll_filter (real : Key → Bool)
    (changes : List (Change Key Value)) (contents : Key → Option Value)
    (absent : ∀ key, real key = false → contents key = none)
    (putReal : ∀ key ∈ putKeys changes, real key = true) :
    applyAll (changes.filter fun change => real change.key) contents =
      applyAll changes contents := by
  induction changes generalizing contents with
  | nil => rfl
  | cons change changes induction =>
      cases kept : real change.key with
      | true =>
          have later : ∀ key ∈ putKeys changes, real key = true := by
            intro key member
            apply putReal
            cases change <;> simp [putKeys, member]
          rw [List.filter_cons, if_pos kept, applyAll_cons, applyAll_cons]
          refine induction _ ?_ later
          intro key dropped
          have different : key ≠ change.key := by
            intro same
            rw [same, kept] at dropped
            cases dropped
          rw [Change.apply_of_ne different]
          exact absent key dropped
      | false =>
          cases change with
          | put key value =>
              rw [Change.key_put, putReal key (by simp [putKeys])] at kept
              cases kept
          | delete key =>
              rw [Change.key_delete] at kept
              have unchanged :
                  (Change.delete key : Change Key Value).apply contents =
                    contents := by
                rw [Change.apply, Change.key, Change.outcome,
                  Function.update_eq_self_iff]
                exact (absent key kept).symm
              rw [List.filter_cons, if_neg (by simp [kept]), applyAll_cons,
                unchanged]
              exact induction _ absent putReal

end Effects

end Plasma.Lib
