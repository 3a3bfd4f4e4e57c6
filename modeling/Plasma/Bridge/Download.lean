import Plasma.Contract.Numbering
import Plasma.Lib.BigInt

/-!
# Downloading the registered blocks

A validator asks its peers for the blocks that the root chain contract has
registered.  One pass of `downloadBlocks` counts from the number of its head to
the largest number the contract has given out, and jumps to the next multiple
of the interval where it finds no root.  The contract goes on between any two
queries of the node.
-/

namespace Plasma.Bridge

open Plasma.Core Plasma.Contract Plasma.Lib

/-- The root that `childChain` holds under an `int64`; the argument is encoded
as a 256-bit word. -/
def getRootChainBlockByBlockNum (contract : RootChain) (blockNum : Int) : Hash :=
  (contract.childChain (BitVec.ofInt 256 blockNum)).root

/-- The two counters are read one after the other. -/
def getMaxBlockNum (first second : RootChain) : Int :=
  wrap64 (int64 first.currentChildBlock.toNat - 1000 +
    int64 second.currentDepositBlock.toNat - 1)

/-- The counter before the next round, one below the next submitted block. -/
def jump (blockNum : Int) : Int :=
  wrap64 (blockNum.tdiv 1000 * 1000 + 1000 - 1)

/-- The inner loop of `downloadBlocks` when every request is answered and
accepted: the numbers it requests.  `root` answers the queries in their
order. -/
def requests (root : Nat → Int → Hash) (maxBlockNum : Int) :
    Nat → Nat → Int → Option (List Int)
  | 0, _, _ => none
  | rounds + 1, clock, blockNum =>
      if blockNum ≤ maxBlockNum then
        if root clock blockNum = 0 then
          requests root maxBlockNum rounds (clock + 1)
            (wrap64 (jump blockNum + 1))
        else
          (requests root maxBlockNum rounds (clock + 1)
            (wrap64 (blockNum + 1))).map (blockNum :: ·)
      else some []

/-- One pass over a contract that is seen in the given states; the first two
queries read the counters. -/
def downloadPass (contract : Nat → RootChain) (head : Int) (rounds : Nat) :
    Option (List Int) :=
  requests (fun clock => getRootChainBlockByBlockNum (contract clock))
    (getMaxBlockNum (contract 0) (contract 1)) rounds 2
    (wrap64 (int64 head + 1))

section Enumeration

theorem jump_add_one {blockNum : Int} (positive : 1 ≤ blockNum)
    (small : blockNum / 1000 * 1000 + 1000 < 2 ^ 63) :
    wrap64 (jump blockNum + 1) = blockNum / 1000 * 1000 + 1000 := by
  have division : blockNum.tdiv 1000 = blockNum / 1000 :=
    Int.tdiv_eq_ediv_of_nonneg (by omega)
  have inner : jump blockNum = blockNum / 1000 * 1000 + 1000 - 1 := by
    rw [jump, division, wrap64_of_small (by omega) (by omega)]
  rw [inner, wrap64_of_small (by omega) (by omega)]
  omega

theorem requests_mono {root : Nat → Int → Hash} {maxBlockNum : Int}
    {rounds more clock : Nat} {blockNum : Int} {numbers : List Int}
    (le : rounds ≤ more)
    (ended : requests root maxBlockNum rounds clock blockNum = some numbers) :
    requests root maxBlockNum more clock blockNum = some numbers := by
  induction rounds generalizing more clock blockNum numbers with
  | zero => cases ended
  | succ rounds induction =>
      obtain ⟨more, rfl⟩ : ∃ fewer, more = fewer + 1 := ⟨more - 1, by omega⟩
      rw [requests] at ended ⊢
      split
      · next inside =>
          rw [if_pos inside] at ended
          split
          · next empty =>
              rw [if_pos empty] at ended
              exact induction (by omega) ended
          · next found =>
              rw [if_neg found, Option.map_eq_some_iff] at ended
              obtain ⟨rest, run, rfl⟩ := ended
              rw [induction (by omega) run]
              rfl
      · next outside =>
          rw [if_neg outside] at ended
          exact ended

/-- The loop requests the wanted numbers when the answers tell which ones are
wanted and a number that is not wanted ends its interval. -/
theorem requests_spec (root : Nat → Int → Hash) (Wanted : Int → Prop)
    {maxBlockNum : Int} (small : maxBlockNum / 1000 * 1000 + 1000 < 2 ^ 63)
    (reads : ∀ clock blockNum, 2 ≤ clock → 1 ≤ blockNum →
      blockNum ≤ maxBlockNum → (root clock blockNum ≠ 0 ↔ Wanted blockNum))
    (gaps : ∀ blockNum other, 1 ≤ blockNum → blockNum ≤ maxBlockNum →
      ¬ Wanted blockNum → blockNum ≤ other → other ≤ maxBlockNum →
      other < blockNum / 1000 * 1000 + 1000 → ¬ Wanted other)
    (rounds clock : Nat) (blockNum : Int) (later : 2 ≤ clock)
    (positive : 1 ≤ blockNum)
    (enough : (maxBlockNum + 1 - blockNum).toNat < rounds) :
    ∃ numbers, requests root maxBlockNum rounds clock blockNum =
        some numbers ∧
      (∀ number, number ∈ numbers ↔
        (blockNum ≤ number ∧ number ≤ maxBlockNum) ∧ Wanted number) ∧
      numbers.Pairwise (· < ·) := by
  induction rounds generalizing clock blockNum with
  | zero => omega
  | succ rounds induction =>
      rw [requests]
      by_cases inside : blockNum ≤ maxBlockNum
      · rw [if_pos inside]
        have answer := reads clock blockNum later positive inside
        by_cases empty : root clock blockNum = 0
        · rw [if_pos empty, jump_add_one positive (by omega)]
          have unwanted : ¬ Wanted blockNum := by
            rw [← answer, not_not]
            exact empty
          obtain ⟨numbers, run, members, increasing⟩ := induction (clock + 1)
            (blockNum / 1000 * 1000 + 1000) (by omega) (by omega) (by omega)
          refine ⟨numbers, run, ?_, increasing⟩
          intro number
          rw [members]
          constructor
          · rintro ⟨⟨above, below⟩, wanted⟩
            exact ⟨⟨by omega, below⟩, wanted⟩
          · rintro ⟨⟨above, below⟩, wanted⟩
            refine ⟨⟨?_, below⟩, wanted⟩
            by_contra inGap
            exact gaps blockNum number positive inside unwanted above below
              (by omega) wanted
        · rw [if_neg empty, wrap64_of_small (by omega) (by omega)]
          obtain ⟨numbers, run, members, increasing⟩ := induction (clock + 1)
            (blockNum + 1) (by omega) (by omega) (by omega)
          rw [run]
          refine ⟨blockNum :: numbers, rfl, ?_, ?_⟩
          · intro number
            rw [List.mem_cons, members]
            constructor
            · rintro (rfl | ⟨⟨above, below⟩, wanted⟩)
              · exact ⟨⟨le_refl _, inside⟩, answer.mp empty⟩
              · exact ⟨⟨by omega, below⟩, wanted⟩
            · rintro ⟨⟨above, below⟩, wanted⟩
              by_cases first : number = blockNum
              · exact .inl first
              · exact .inr ⟨⟨by omega, below⟩, wanted⟩
          · refine List.pairwise_cons.mpr ⟨?_, increasing⟩
            intro number member
            have range := (members number).mp member
            omega
      · rw [if_neg inside]
        refine ⟨[], rfl, ?_, List.Pairwise.nil⟩
        intro number
        constructor
        · intro member
          cases member
        · rintro ⟨⟨above, below⟩, _⟩
          omega

end Enumeration

def registeredNumbers (history : List Effect) : List Nat :=
  (registrations history).map fun entry => entry.1.toNat

section Contract

open Contract.RootChain

variable {c : Crypto} {deployer : Address}

theorem root_ne_zero_iff {history : List Effect} {s : RootChain}
    (numbered : Numbered c history s)
    (roots : ∀ entry ∈ registrations history, entry.2.root ≠ 0)
    {blockNum : Int} (nonneg : 0 ≤ blockNum) (small : blockNum < 2 ^ 63) :
    getRootChainBlockByBlockNum s blockNum ≠ 0 ↔
      blockNum.toNat ∈ registeredNumbers history := by
  have word : (BitVec.ofInt 256 blockNum).toNat = blockNum.toNat := by
    rw [BitVec.toNat_ofInt]
    omega
  rw [getRootChainBlockByBlockNum, registeredNumbers, List.mem_map]
  constructor
  · intro found
    by_contra absent
    apply found
    rw [numbered.unset]
    intro member
    obtain ⟨entry, registered, same⟩ := List.mem_map.mp member
    exact absent ⟨entry, registered, by rw [same, word]⟩
  · rintro ⟨entry, registered, same⟩
    have key : BitVec.ofInt 256 blockNum = entry.1 :=
      BitVec.eq_of_toNat_eq (word.trans same.symm)
    rw [key, numbered.stored entry registered]
    exact roots entry registered

theorem unregistered_gap {history : List Effect} {s : RootChain}
    {counts : Nat → Nat} (numbered : Numbered c history s)
    (registered : Registered history s counts) {blockNum other : Nat}
    (positive : 1 ≤ blockNum) (below : blockNum + 1000 <
      s.currentChildBlock.toNat + s.currentDepositBlock.toNat)
    (unregistered : blockNum ∉ registeredNumbers history)
    (above : blockNum ≤ other)
    (inGap : other < blockNum / 1000 * 1000 + 1000) :
    other ∉ registeredNumbers history := by
  have room := numbered.room
  obtain ⟨k, _, multiple⟩ := numbered.interval
  rw [registeredNumbers, registered.numbers] at unregistered ⊢
  rintro (⟨zero, _, _⟩ | ⟨period, began, after, upTo⟩)
  · have same : other = blockNum := by omega
    exact unregistered (.inl ⟨by omega, by omega, by omega⟩)
  · have short := registered.bounded period
    by_cases submitted : blockNum % 1000 = 0
    · exact unregistered (.inl ⟨submitted, by omega, by omega⟩)
    · exact unregistered (.inr ⟨period, began, by omega, by omega⟩)

variable (c deployer) in
def contractAfter (calls : List Message) : RootChain :=
  (execute (step c) (new deployer) calls).1

variable (c deployer) in
def historyAfter (calls : List Message) : List Effect :=
  (execute (step c) (new deployer) calls).2

variable (c deployer) in
theorem numbered_after (calls : List Message) :
    Numbered c (historyAfter c deployer calls)
      (contractAfter c deployer calls) :=
  numbered_run c deployer calls

/-- Further calls do not lower the counters and register above the numbers
given out. -/
theorem after_append {before after : List Message} (grows : before <+: after) :
    (contractAfter c deployer before).currentChildBlock.toNat ≤
        (contractAfter c deployer after).currentChildBlock.toNat ∧
      ∃ extra, historyAfter c deployer after =
          historyAfter c deployer before ++ extra ∧
        ∀ entry ∈ registrations extra,
          (contractAfter c deployer before).currentChildBlock.toNat +
              (contractAfter c deployer before).currentDepositBlock.toNat ≤
            entry.1.toNat + 1000 := by
  obtain ⟨rest, rfl⟩ := grows
  obtain ⟨_, child, _, above⟩ :=
    later_registrations (numbered_after c deployer before) rest
  simp only [contractAfter, historyAfter, execute_append] at child above ⊢
  exact ⟨child, _, rfl, above⟩

theorem registered_stable {before after : List Message}
    (grows : before <+: after) {number : Nat} (settled : number + 1000 <
      (contractAfter c deployer before).currentChildBlock.toNat +
        (contractAfter c deployer before).currentDepositBlock.toNat) :
    number ∈ registeredNumbers (historyAfter c deployer after) ↔
      number ∈ registeredNumbers (historyAfter c deployer before) := by
  obtain ⟨_, extra, split, above⟩ := after_append grows
  rw [split, registeredNumbers, registrations_append, List.map_append,
    List.mem_append]
  constructor
  · rintro (earlier | later)
    · exact earlier
    · obtain ⟨entry, member, rfl⟩ := List.mem_map.mp later
      have bound := above entry member
      omega
  · exact .inl

theorem getMaxBlockNum_eq {before : List Message} (after : List Message)
    (fits : (contractAfter c deployer before).currentChildBlock.toNat <
      2 ^ 63) :
    getMaxBlockNum (contractAfter c deployer before)
        (contractAfter c deployer after) =
      (contractAfter c deployer before).currentChildBlock.toNat - 1000 +
        (contractAfter c deployer after).currentDepositBlock.toNat - 1 := by
  have room := (numbered_after c deployer after).room
  rw [getMaxBlockNum, int64_of_small (by omega) (by omega),
    int64_of_small (by omega) (by omega),
    wrap64_of_small (by omega) (by omega)]

/-- Whatever the contract does between the two queries, the numbers up to the
largest one have been given out at the second. -/
theorem settled_of_le_max {before after : List Message}
    (grows : before <+: after)
    (fits : (contractAfter c deployer before).currentChildBlock.toNat <
      2 ^ 63) :
    getMaxBlockNum (contractAfter c deployer before)
        (contractAfter c deployer after) / 1000 * 1000 + 1000 < 2 ^ 63 ∧
      ∀ number : Int, 0 ≤ number → number ≤ getMaxBlockNum
        (contractAfter c deployer before) (contractAfter c deployer after) →
        number.toNat + 1000 <
          (contractAfter c deployer after).currentChildBlock.toNat +
            (contractAfter c deployer after).currentDepositBlock.toNat := by
  have room := (numbered_after c deployer after).room
  obtain ⟨growth, _⟩ := @after_append c deployer before after grows
  obtain ⟨k, _, multiple⟩ := (numbered_after c deployer before).interval
  rw [getMaxBlockNum_eq _ fits]
  refine ⟨by omega, ?_⟩
  intro number nonneg below
  omega

/-- One pass of `downloadBlocks` ends and requests exactly the registered
numbers between its head and the largest number given out, in increasing
order. -/
theorem download_pass_enumerates {calls : Nat → List Message}
    (grows : ∀ i, calls i <+: calls (i + 1))
    (roots : ∀ i, ∀ entry ∈ registrations (historyAfter c deployer (calls i)),
      entry.2.root ≠ 0)
    {head : Int} (nonneg : 0 ≤ head) (headFits : head + 1 < 2 ^ 63)
    (childFits : (contractAfter c deployer
      (calls 0)).currentChildBlock.toNat < 2 ^ 63) :
    ∃ numbers rounds, (∀ more, rounds ≤ more →
        downloadPass (fun i => contractAfter c deployer (calls i)) head more =
          some numbers) ∧
      (∀ i, 1 ≤ i → ∀ number : Int, number ∈ numbers ↔
        (head < number ∧ number ≤ getMaxBlockNum
          (contractAfter c deployer (calls 0))
          (contractAfter c deployer (calls 1))) ∧
        number.toNat ∈
          registeredNumbers (historyAfter c deployer (calls i))) ∧
      numbers.Pairwise (· < ·) := by
  have prefixed : ∀ i j, i ≤ j → calls i <+: calls j := by
    intro i j le
    induction le with
    | refl => exact List.prefix_refl _
    | step _ induction => exact induction.trans (grows _)
  obtain ⟨small, settled⟩ :=
    settled_of_le_max (show calls 0 <+: calls 1 from grows 0) childFits
  obtain ⟨counts, registered⟩ := registered_run c deployer (calls 1)
  have numbered := numbered_after c deployer (calls 1)
  simp only [downloadPass]
  generalize getMaxBlockNum (contractAfter c deployer (calls 0))
    (contractAfter c deployer (calls 1)) = maxBlockNum at small settled ⊢
  have stable : ∀ i, 1 ≤ i → ∀ number : Int, 0 ≤ number →
      number ≤ maxBlockNum →
      (number.toNat ∈
          registeredNumbers (historyAfter c deployer (calls i)) ↔
        number.toNat ∈
          registeredNumbers (historyAfter c deployer (calls 1))) := by
    intro i later number positive below
    exact registered_stable (prefixed 1 i later)
      (settled number positive below)
  have run := requests_spec
    (fun clock => getRootChainBlockByBlockNum
      (contractAfter c deployer (calls clock)))
    (fun number => number.toNat ∈
      registeredNumbers (historyAfter c deployer (calls 1))) small
    (by
      intro clock blockNum later positive below
      rw [root_ne_zero_iff (numbered_after c deployer (calls clock))
        (roots clock) (by omega) (by omega)]
      exact stable clock (by omega) blockNum (by omega) below)
    (by
      intro blockNum other positive below unwanted above upTo inGap
      exact unregistered_gap numbered registered (by omega)
        (settled blockNum (by omega) below) unwanted (by omega) (by omega))
  have start : wrap64 (int64 head + 1) = head + 1 := by
    rw [int64_of_small nonneg (by omega),
      wrap64_of_small (by omega) (by omega)]
  obtain ⟨numbers, ended, members, increasing⟩ := run
    ((maxBlockNum + 1 - (head + 1)).toNat + 1) 2 (head + 1) (le_refl 2)
    (by omega) (by omega)
  rw [start]
  refine ⟨numbers, _, fun more enough => requests_mono enough ended, ?_,
    increasing⟩
  intro i later number
  rw [members]
  constructor
  · rintro ⟨⟨above, below⟩, wanted⟩
    exact ⟨⟨by omega, below⟩,
      (stable i later number (by omega) below).mpr wanted⟩
  · rintro ⟨⟨above, below⟩, wanted⟩
    exact ⟨⟨by omega, below⟩,
      (stable i later number (by omega) below).mp wanted⟩

def growingCalls : Nat → List Message
  | 0 => [Sample.depositMessage Sample.alice 5]
  | 1 => [Sample.depositMessage Sample.alice 5]
  | _ => [Sample.depositMessage Sample.alice 5,
      Sample.depositMessage Sample.bob 7]

theorem growingCalls_enumerated :
    (downloadPass (fun i => contractAfter Sample.crypto Sample.alice
        (growingCalls i)) 0 2 = some [1]) ∧
    ∃ numbers rounds, (∀ more, rounds ≤ more →
        downloadPass (fun i => contractAfter Sample.crypto Sample.alice
          (growingCalls i)) 0 more = some numbers) ∧
      (∀ i, 1 ≤ i → ∀ number : Int, number ∈ numbers ↔
        (0 < number ∧ number ≤ getMaxBlockNum
          (contractAfter Sample.crypto Sample.alice (growingCalls 0))
          (contractAfter Sample.crypto Sample.alice (growingCalls 1))) ∧
        number.toNat ∈ registeredNumbers
          (historyAfter Sample.crypto Sample.alice (growingCalls i))) ∧
      numbers.Pairwise (· < ·) := by
  refine ⟨by decide +kernel, download_pass_enumerates ?_ ?_ (le_refl 0)
    (by decide) (by decide +kernel)⟩
  · rintro (_ | _ | i)
    · exact List.prefix_refl _
    · exact ⟨[Sample.depositMessage Sample.bob 7], rfl⟩
    · exact List.prefix_refl _
  · rintro (_ | _ | i)
    · decide +kernel
    · decide +kernel
    · change ∀ entry ∈ registrations (historyAfter Sample.crypto Sample.alice
        (growingCalls 2)), entry.2.root ≠ 0
      decide +kernel

/-- A head number beyond 64 bits is truncated, and the pass requests a block
below the head again. -/
theorem huge_head_requests_again :
    downloadPass (fun _ => contractAfter Sample.crypto Sample.alice
        [Sample.depositMessage Sample.alice 5]) (2 ^ 64) 2 = some [1] ∧
      ¬ ((2 : Int) ^ 64 < 1) := by
  refine ⟨by decide +kernel, by decide⟩

end Contract

end Plasma.Bridge
