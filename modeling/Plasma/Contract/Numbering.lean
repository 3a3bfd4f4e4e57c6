import Plasma.Contract.Run

/-!
# Block numbers of the contract

Submissions take the multiples of the interval and deposits the numbers in
between, both in increasing order.  A number is given out once, so the entry
of `childChain` it names is written once.
-/

namespace Plasma.Contract

open Plasma.Core Plasma.Lib

def Effect.registration? : Effect → Option (Word × ChildBlock)
  | .registered blknum root timestamp => some (blknum, ⟨root, timestamp⟩)
  | _ => none

/-- The entries of `childChain` in the order in which they were written. -/
def registrations (history : List Effect) : List (Word × ChildBlock) :=
  history.filterMap Effect.registration?

@[simp] theorem registrations_append (first second : List Effect) :
    registrations (first ++ second) =
      registrations first ++ registrations second :=
  List.filterMap_append

@[simp] theorem registrations_hashed (inputs : List Bytes) :
    registrations (inputs.map Effect.hashed) = [] := by
  simp [registrations, Effect.registration?]

theorem mem_registrations {history : List Effect} {entry : Word × ChildBlock} :
    entry ∈ registrations history ↔
      .registered entry.1 entry.2.root entry.2.timestamp ∈ history := by
  rw [registrations, List.mem_filterMap]
  constructor
  · rintro ⟨effect, member, read⟩
    cases effect <;> cases read
    exact member
  · intro member
    exact ⟨_, member, rfl⟩

namespace RootChain

/-- The numbers given out lie below the next ones, and `childChain` holds what
was registered. -/
structure Numbered (c : Crypto) (past : List Effect) (s : RootChain) :
    Prop where
  interval : ∃ k, 1 ≤ k ∧ s.currentChildBlock.toNat = 1000 * k
  room : 1 ≤ s.currentDepositBlock.toNat ∧ s.currentDepositBlock.toNat ≤ 1000
  stored : ∀ entry ∈ registrations past, s.childChain entry.1 = entry.2
  below : ∀ entry ∈ registrations past, entry.1.toNat + 1000 <
    s.currentChildBlock.toNat + s.currentDepositBlock.toNat
  unset : ∀ blknum, blknum ∉ (registrations past).map Prod.fst →
    s.childChain blknum = ⟨0, 0⟩
  increasing : (registrations past).Pairwise fun earlier later =>
    earlier.1.toNat < later.1.toNat
  deposits : ∀ entry ∈ registrations past, entry.1.toNat % 1000 ≠ 0 →
    ∃ input, .hashed input ∈ past ∧ input.length = 72 ∧
      c.keccak256 input = entry.2.root

theorem length_depositInput (sender token : Address) (amount : Word) :
    (depositInput sender token amount).length = 72 := by
  simp [depositInput, length_addressBytes, length_wordBytes]

theorem getDepositBlock_toNat {s : RootChain} {depositBlock : Word}
    (number : s.getDepositBlock = some depositBlock) :
    depositBlock.toNat + 1000 =
      s.currentChildBlock.toNat + s.currentDepositBlock.toNat := by
  simp only [getDepositBlock, Option.bind_eq_bind, Option.bind_eq_some_iff,
    SafeMath.sub_eq_some, SafeMath.add_eq_some] at number
  obtain ⟨_, ⟨large, rfl⟩, fits, rfl⟩ := number
  have interval : childBlockInterval.toNat = 1000 := rfl
  have difference : (s.currentChildBlock - childBlockInterval).toNat =
      s.currentChildBlock.toNat - 1000 := by
    rw [BitVec.toNat_sub, interval]
    omega
  rw [BitVec.toNat_add, Nat.mod_eq_of_lt fits, difference]
  omega

private theorem rounds_register {m : Message} {s next : RootChain}
    {effects : List Effect} (taken : Rounds m s effects next) :
    registrations effects = [] ∧ next.childChain = s.childChain ∧
      next.currentChildBlock = s.currentChildBlock ∧
      next.currentDepositBlock = s.currentDepositBlock := by
  induction taken with
  | done s => exact ⟨rfl, rfl, rfl, rfl⟩
  | next first rest induction =>
      obtain ⟨silent, childChain, child, deposit⟩ := induction
      cases first with
      | round front mature funded deleted =>
          exact ⟨silent, childChain, child, deposit⟩

/-- What one call can do to the numbers and to `childChain`: nothing, submit
under the next child number, or deposit under the next deposit number. -/
theorem step_registers (c : Crypto) (s : RootChain) (m : Message) :
    (registrations (step c s m).2 = [] ∧
      (step c s m).1.childChain = s.childChain ∧
      (step c s m).1.currentChildBlock = s.currentChildBlock ∧
      (step c s m).1.currentDepositBlock = s.currentDepositBlock) ∨
    (∃ root, m.call = .submitBlock root ∧
      s.currentChildBlock.toNat + 1000 < 2 ^ 256 ∧
      registrations (step c s m).2 =
        [(s.currentChildBlock, ⟨root, m.timestamp⟩)] ∧
      (step c s m).1.childChain = Function.update s.childChain
        s.currentChildBlock ⟨root, m.timestamp⟩ ∧
      (step c s m).1.currentChildBlock =
        s.currentChildBlock + childBlockInterval ∧
      (step c s m).1.currentDepositBlock = 1) ∨
    (∃ depositBlock entry, m.call = .deposit ∧
      s.currentDepositBlock.toNat < 1000 ∧
      s.getDepositBlock = some depositBlock ∧
      registrations (step c s m).2 = [(depositBlock, entry)] ∧
      (step c s m).1.childChain =
        Function.update s.childChain depositBlock entry ∧
      (step c s m).1.currentChildBlock = s.currentChildBlock ∧
      (step c s m).1.currentDepositBlock = s.currentDepositBlock + 1) := by
  rcases step_cases c s m with same | ⟨inputs, effect, emitted, act⟩ | taken
  · left
    rw [same]
    exact ⟨rfl, rfl, rfl, rfl⟩
  · rw [emitted]
    generalize (step c s m).1 = next at act
    cases act with
    | @submitted root call fits =>
        exact .inr (.inl ⟨root, call, fits, rfl, rfl, rfl, rfl⟩)
    | @deposited depositBlock call room number =>
        exact .inr (.inr ⟨depositBlock, _, call, room, number, rfl, rfl, rfl,
          rfl⟩)
    | exitStarted source positive fresh =>
        exact .inl ⟨by simp; rfl, rfl, rfl, rfl⟩
    | challenged call => exact .inl ⟨by simp; rfl, rfl, rfl, rfl⟩
  · exact .inl (rounds_register taken)

namespace Numbered

variable {c : Crypto} {past extra : List Effect} {s next : RootChain}

theorem new (c : Crypto) (deployer : Address) :
    Numbered c [] (RootChain.new deployer) := by
  refine ⟨⟨1, le_refl _, rfl⟩, ⟨le_refl 1, Nat.le_of_ble_eq_true rfl⟩,
    ?_, ?_, ?_, ?_, ?_⟩
  · intro entry member
    cases member
  · intro entry member
    cases member
  · intro blknum _
    rfl
  · exact List.Pairwise.nil
  · intro entry member
    cases member

/-- Effects that register nothing. -/
theorem keep (holds : Numbered c past s) (silent : registrations extra = [])
    (childChain : next.childChain = s.childChain)
    (child : next.currentChildBlock = s.currentChildBlock)
    (deposit : next.currentDepositBlock = s.currentDepositBlock) :
    Numbered c (past ++ extra) next := by
  have same : registrations (past ++ extra) = registrations past := by
    simp [silent]
  constructor
  · rw [child]
    exact holds.interval
  · rw [deposit]
    exact holds.room
  · rw [same, childChain]
    exact holds.stored
  · rw [same, child, deposit]
    exact holds.below
  · rw [same, childChain]
    exact holds.unset
  · rw [same]
    exact holds.increasing
  · rw [same]
    intro entry member odd
    obtain ⟨input, hashed, rest⟩ := holds.deposits entry member odd
    exact ⟨input, List.mem_append_left _ hashed, rest⟩

/-- A registration under a number above all earlier ones. -/
theorem register (holds : Numbered c past s) (entry : Word × ChildBlock)
    (registered : registrations extra = [entry])
    (childChain : next.childChain =
      Function.update s.childChain entry.1 entry.2)
    (above : s.currentChildBlock.toNat + s.currentDepositBlock.toNat ≤
      entry.1.toNat + 1000)
    (under : entry.1.toNat + 1000 <
      next.currentChildBlock.toNat + next.currentDepositBlock.toNat)
    (interval : ∃ k, 1 ≤ k ∧ next.currentChildBlock.toNat = 1000 * k)
    (room : 1 ≤ next.currentDepositBlock.toNat ∧
      next.currentDepositBlock.toNat ≤ 1000)
    (deposit : entry.1.toNat % 1000 ≠ 0 → ∃ input, .hashed input ∈ extra ∧
      input.length = 72 ∧ c.keccak256 input = entry.2.root) :
    Numbered c (past ++ extra) next := by
  have split : registrations (past ++ extra) =
      registrations past ++ [entry] := by
    simp [registered]
  have fresh : ∀ other ∈ registrations past, other.1.toNat < entry.1.toNat := by
    intro other member
    have bound := holds.below other member
    omega
  refine ⟨interval, room, ?_, ?_, ?_, ?_, ?_⟩
  · rw [split, childChain]
    intro other member
    rcases List.mem_append.mp member with earlier | last
    · have distinct : other.1 ≠ entry.1 := by
        intro same
        have less := fresh other earlier
        rw [same] at less
        exact lt_irrefl _ less
      rw [Function.update_of_ne distinct]
      exact holds.stored other earlier
    · rw [List.mem_singleton.mp last, Function.update_self]
  · rw [split]
    intro other member
    rcases List.mem_append.mp member with earlier | last
    · have less := fresh other earlier
      omega
    · rw [List.mem_singleton.mp last]
      exact under
  · rw [split, childChain]
    intro blknum absent
    simp only [List.map_append, List.map_cons, List.map_nil, List.mem_append,
      List.mem_singleton, not_or] at absent
    rw [Function.update_of_ne absent.2]
    exact holds.unset blknum absent.1
  · rw [split, List.pairwise_append]
    refine ⟨holds.increasing, List.pairwise_singleton _ _, ?_⟩
    intro other member last equal
    rw [List.mem_singleton.mp equal]
    exact fresh other member
  · rw [split]
    intro other member odd
    rcases List.mem_append.mp member with earlier | last
    · obtain ⟨input, hashed, rest⟩ := holds.deposits other earlier odd
      exact ⟨input, List.mem_append_left _ hashed, rest⟩
    · rw [List.mem_singleton.mp last] at odd ⊢
      obtain ⟨input, hashed, rest⟩ := deposit odd
      exact ⟨input, List.mem_append_right _ hashed, rest⟩

theorem acts {m : Message} {inputs : List Bytes} {effect : Effect}
    (holds : Numbered c past s) (act : Acts c m s inputs effect next) :
    Numbered c (past ++ (inputs.map Effect.hashed ++ [effect])) next := by
  obtain ⟨k, positive, multiple⟩ := holds.interval
  obtain ⟨least, most⟩ := holds.room
  have interval : childBlockInterval.toNat = 1000 := rfl
  cases act with
  | @submitted root call fits =>
      have sum : (s.currentChildBlock + childBlockInterval).toNat =
          s.currentChildBlock.toNat + 1000 := by
        rw [BitVec.toNat_add, interval, Nat.mod_eq_of_lt fits]
      have one : (1 : Word).toNat = 1 := rfl
      refine holds.register (s.currentChildBlock, ⟨root, m.timestamp⟩) rfl rfl
        ?_ ?_ ⟨k + 1, by omega, ?_⟩ ?_ ?_
      · exact Nat.add_le_add_left most _
      · simp only [sum, one]
        omega
      · simp only [sum]
        omega
      · simp only [one]
        omega
      · intro odd
        exact (odd (by simp only [multiple]; omega)).elim
  | @deposited depositBlock call room number =>
      have place := getDepositBlock_toNat number
      have small : s.currentDepositBlock.toNat < 1000 := room
      have sum : (s.currentDepositBlock + 1).toNat =
          s.currentDepositBlock.toNat + 1 := by
        have one : (1 : Word).toNat = 1 := rfl
        rw [BitVec.toNat_add, one]
        omega
      refine holds.register (depositBlock,
        ⟨c.keccak256 (depositInput m.sender 0 m.value), m.timestamp⟩) rfl rfl
        ?_ ?_ holds.interval ?_ ?_
      · exact place.ge
      · simp only [sum]
        omega
      · simp only [sum]
        omega
      · intro _
        exact ⟨_, List.mem_cons_self, length_depositInput _ _ _, rfl⟩
  | exitStarted source positive fresh =>
      exact holds.keep (by simp; rfl) rfl rfl rfl
  | challenged call =>
      exact holds.keep (by simp; rfl) rfl rfl rfl

theorem removes {m : Message} {effect : Effect} (holds : Numbered c past s)
    (removed : Removes m s effect next) : Numbered c (past ++ [effect]) next := by
  cases removed with
  | round front mature funded deleted =>
      exact holds.keep rfl rfl rfl rfl

theorem step (holds : Numbered c past s) (m : Message) :
    Numbered c (past ++ (RootChain.step c s m).2) (RootChain.step c s m).1 := by
  rcases step_cases c s m with same | ⟨inputs, effect, emitted, act⟩ | taken
  · rw [same]
    exact holds.keep rfl rfl rfl rfl
  · rw [emitted]
    exact holds.acts act
  · obtain ⟨silent, childChain, child, deposit⟩ := rounds_register taken
    exact holds.keep silent childChain child deposit

end Numbered

/-- Every run keeps the numbering. -/
theorem numbered_run (c : Crypto) (deployer : Address)
    (messages : List Message) :
    Numbered c (execute (step c) (new deployer) messages).2
      (execute (step c) (new deployer) messages).1 := by
  refine execute_induction (step c) (fun _ _ => True)
    (fun _ s history => Numbered c history s) ?_ (Numbered.new c deployer)
    (stepsMeet_of_forall (fun _ _ _ => trivial) _)
  intro _ s history m holds _
  exact holds.step m

/-!
## The registered numbers

Submissions leave no multiple of the interval out, and between two of them the
deposits of one period follow each other.
-/

/-- The numbers given out when `counts` tells the deposits of each period. -/
def Given (child : Nat) (counts : Nat → Nat) (number : Nat) : Prop :=
  (number % 1000 = 0 ∧ 0 < number ∧ number < child) ∨
    ∃ k, 1000 * k < child ∧ 1000 * k < number ∧ number ≤ 1000 * k + counts k

/-- The numbers in the history are the ones given out. -/
structure Registered (past : List Effect) (s : RootChain)
    (counts : Nat → Nat) : Prop where
  bounded : ∀ k, counts k ≤ 999
  numbers : ∀ number,
    number ∈ (registrations past).map (fun entry => entry.1.toNat) ↔
      Given s.currentChildBlock.toNat counts number
  current : ∀ k, s.currentChildBlock.toNat = 1000 * (k + 1) →
    counts k + 1 = s.currentDepositBlock.toNat

namespace Registered

variable {past extra : List Effect} {s next : RootChain} {counts : Nat → Nat}

theorem new (deployer : Address) :
    Registered [] (RootChain.new deployer) fun _ => 0 := by
  have child : (RootChain.new deployer).currentChildBlock.toNat = 1000 := rfl
  refine ⟨fun _ => Nat.zero_le _, ?_, fun _ _ => rfl⟩
  intro number
  rw [child]
  constructor
  · intro member
    cases member
  · rintro (⟨multiple, positive, below⟩ | ⟨k, _, above, below⟩)
    · omega
    · exact (not_lt_of_ge below above).elim

theorem keep (holds : Registered past s counts)
    (silent : registrations extra = [])
    (child : next.currentChildBlock = s.currentChildBlock)
    (deposit : next.currentDepositBlock = s.currentDepositBlock) :
    Registered (past ++ extra) next counts := by
  refine ⟨holds.bounded, ?_, ?_⟩
  · rw [registrations_append, silent, List.append_nil, child]
    exact holds.numbers
  · rw [child, deposit]
    exact holds.current

/-- A submission opens a period without deposits. -/
theorem submit (holds : Registered past s counts) {k : Nat}
    (multiple : s.currentChildBlock.toNat = 1000 * (k + 1))
    {entry : Word × ChildBlock} (registered : registrations extra = [entry])
    (named : entry.1.toNat = s.currentChildBlock.toNat)
    (child : next.currentChildBlock.toNat = 1000 * (k + 2))
    (deposit : next.currentDepositBlock.toNat = 1) :
    Registered (past ++ extra) next (Function.update counts (k + 1) 0) := by
  refine ⟨?_, ?_, ?_⟩
  · intro period
    by_cases opened : period = k + 1
    · rw [opened, Function.update_self]
      exact Nat.zero_le _
    · rw [Function.update_of_ne opened]
      exact holds.bounded period
  · intro number
    rw [registrations_append, registered, List.map_append, List.mem_append,
      holds.numbers, List.map_singleton, List.mem_singleton, named, multiple,
      child]
    constructor
    · rintro ((⟨zero, positive, below⟩ | ⟨period, began, above, below⟩) |
        submitted)
      · exact .inl ⟨zero, positive, by omega⟩
      · refine .inr ⟨period, by omega, above, ?_⟩
        rwa [Function.update_of_ne (by omega)]
      · exact .inl ⟨by omega, by omega, by omega⟩
    · rintro (⟨zero, positive, below⟩ | ⟨period, began, above, below⟩)
      · by_cases submitted : number = 1000 * (k + 1)
        · exact .inr submitted
        · exact .inl (.inl ⟨zero, positive, by omega⟩)
      · by_cases opened : period = k + 1
        · rw [opened, Function.update_self] at below
          omega
        · rw [Function.update_of_ne opened] at below
          exact .inl (.inr ⟨period, by omega, above, below⟩)
  · intro period last
    have opened : period = k + 1 := by omega
    rw [opened, Function.update_self, deposit]

/-- A deposit takes the next number of its period. -/
theorem deposit (holds : Registered past s counts) {k : Nat}
    (multiple : s.currentChildBlock.toNat = 1000 * (k + 1))
    (room : s.currentDepositBlock.toNat < 1000)
    {entry : Word × ChildBlock} (registered : registrations extra = [entry])
    (named : entry.1.toNat + 1000 =
      s.currentChildBlock.toNat + s.currentDepositBlock.toNat)
    (child : next.currentChildBlock = s.currentChildBlock)
    (counted : next.currentDepositBlock.toNat =
      s.currentDepositBlock.toNat + 1) :
    Registered (past ++ extra) next
      (Function.update counts k s.currentDepositBlock.toNat) := by
  have last := holds.current k multiple
  refine ⟨?_, ?_, ?_⟩
  · intro period
    by_cases open' : period = k
    · rw [open', Function.update_self]
      omega
    · rw [Function.update_of_ne open']
      exact holds.bounded period
  · intro number
    rw [registrations_append, registered, List.map_append, List.mem_append,
      holds.numbers, List.map_singleton, List.mem_singleton, child]
    constructor
    · rintro ((child | ⟨period, began, above, below⟩) | deposited)
      · exact .inl child
      · refine .inr ⟨period, began, above, ?_⟩
        by_cases open' : period = k
        · subst open'
          rw [Function.update_self]
          omega
        · rwa [Function.update_of_ne open']
      · refine .inr ⟨k, by omega, by omega, ?_⟩
        rw [Function.update_self]
        omega
    · rintro (child | ⟨period, began, above, below⟩)
      · exact .inl (.inl child)
      · by_cases open' : period = k
        · subst open'
          rw [Function.update_self] at below
          by_cases deposited : number = entry.1.toNat
          · exact .inr deposited
          · exact .inl (.inr ⟨period, began, above, by omega⟩)
        · rw [Function.update_of_ne open'] at below
          exact .inl (.inr ⟨period, began, above, below⟩)
  · intro period current
    rw [child, multiple] at current
    have open' : period = k := by omega
    rw [open', Function.update_self, counted]

theorem step {c : Crypto} (holds : Registered past s counts)
    (numbered : Numbered c past s) (m : Message) :
    ∃ counts, Registered (past ++ (RootChain.step c s m).2)
      (RootChain.step c s m).1 counts := by
  obtain ⟨k, positive, multiple⟩ := numbered.interval
  obtain ⟨k, rfl⟩ := Nat.exists_eq_add_of_le' positive
  have interval : childBlockInterval.toNat = 1000 := rfl
  rcases step_registers c s m with ⟨silent, _, child, deposit⟩ |
    ⟨root, _, fits, registered, _, child, deposit⟩ |
    ⟨depositBlock, entry, _, room, number, registered, _, child, deposit⟩
  · exact ⟨counts, holds.keep silent child deposit⟩
  · refine ⟨_, holds.submit multiple registered rfl ?_ ?_⟩
    · rw [child, BitVec.toNat_add, interval, Nat.mod_eq_of_lt fits]
      omega
    · rw [deposit]
      rfl
  · refine ⟨_, holds.deposit multiple room registered
      (getDepositBlock_toNat number) child ?_⟩
    have one : (1 : Word).toNat = 1 := rfl
    rw [deposit, BitVec.toNat_add, one]
    omega

end Registered

/-- Every run gives out the numbers of its periods. -/
theorem registered_run (c : Crypto) (deployer : Address)
    (messages : List Message) :
    ∃ counts, Registered (execute (step c) (new deployer) messages).2
      (execute (step c) (new deployer) messages).1 counts := by
  refine (execute_invariant (step c) (fun _ s history =>
    Numbered c history s ∧ ∃ counts, Registered history s counts) ?_
    ⟨Numbered.new c deployer, _, Registered.new deployer⟩ messages).2
  rintro _ s history m ⟨numbered, counts, holds⟩
  exact ⟨numbered.step m, holds.step numbered m⟩

/-- A later call registers above all numbers given out so far, and what is
registered stays. -/
theorem later_registrations {c : Crypto} {past : List Effect} {s : RootChain}
    (numbered : Numbered c past s) (messages : List Message) :
    Numbered c (past ++ (execute (step c) s messages).2)
        (execute (step c) s messages).1 ∧
      s.currentChildBlock.toNat ≤
        (execute (step c) s messages).1.currentChildBlock.toNat ∧
      s.currentChildBlock.toNat + s.currentDepositBlock.toNat ≤
        (execute (step c) s messages).1.currentChildBlock.toNat +
          (execute (step c) s messages).1.currentDepositBlock.toNat ∧
      ∀ entry ∈ registrations (execute (step c) s messages).2,
        s.currentChildBlock.toNat + s.currentDepositBlock.toNat ≤
          entry.1.toNat + 1000 := by
  refine execute_invariant (step c) (fun _ now history =>
    Numbered c (past ++ history) now ∧
      s.currentChildBlock.toNat ≤ now.currentChildBlock.toNat ∧
      s.currentChildBlock.toNat + s.currentDepositBlock.toNat ≤
        now.currentChildBlock.toNat + now.currentDepositBlock.toNat ∧
      ∀ entry ∈ registrations history,
        s.currentChildBlock.toNat + s.currentDepositBlock.toNat ≤
          entry.1.toNat + 1000) ?_ 
    ⟨by simpa using numbered, le_refl _, le_refl _, ?_⟩
    messages
  · rintro _ now history m ⟨holds, child0, grown, above⟩
    have room := holds.room
    have interval : childBlockInterval.toNat = 1000 := rfl
    have one : (1 : Word).toNat = 1 := rfl
    refine ⟨by simpa using holds.step m, ?_⟩
    rw [registrations_append]
    rcases step_registers c now m with ⟨silent, _, child, deposit⟩ |
      ⟨root, _, fits, registered, _, child, deposit⟩ |
      ⟨depositBlock, entry, _, small, number, registered, _, child, deposit⟩
    · rw [silent, child, deposit, List.append_nil]
      exact ⟨child0, grown, above⟩
    · rw [registered, child, deposit, BitVec.toNat_add, interval,
        Nat.mod_eq_of_lt fits, one]
      refine ⟨by omega, by omega, ?_⟩
      intro entry member
      rcases List.mem_append.mp member with earlier | last
      · exact above entry earlier
      · rw [List.mem_singleton.mp last]
        dsimp only
        omega
    · have place := getDepositBlock_toNat number
      rw [registered, child, deposit, BitVec.toNat_add, one]
      refine ⟨by omega, by omega, ?_⟩
      intro other member
      rcases List.mem_append.mp member with earlier | last
      · exact above other earlier
      · rw [List.mem_singleton.mp last]
        dsimp only
        omega
  · intro entry member
    cases member

/-- The numbers of every run: `childChain` holds what was registered under
them, each once and in increasing order. -/
theorem block_numbering (c : Crypto) (deployer : Address)
    (messages : List Message) :
    let history := (execute (step c) (new deployer) messages).2
    let s := (execute (step c) (new deployer) messages).1
    (∃ k, 1 ≤ k ∧ s.currentChildBlock.toNat = 1000 * k) ∧
      (1 ≤ s.currentDepositBlock.toNat ∧
        s.currentDepositBlock.toNat ≤ 1000) ∧
      (∀ entry ∈ registrations history, s.childChain entry.1 = entry.2) ∧
      (∀ blknum, blknum ∉ (registrations history).map Prod.fst →
        s.childChain blknum = ⟨0, 0⟩) ∧
      (registrations history).Pairwise (fun earlier later =>
        earlier.1.toNat < later.1.toNat) ∧
      ∃ counts : Nat → Nat, (∀ k, counts k ≤ 999) ∧ ∀ number,
        number ∈ (registrations history).map (fun entry => entry.1.toNat) ↔
          Given s.currentChildBlock.toNat counts number := by
  have numbered := numbered_run c deployer messages
  obtain ⟨counts, holds⟩ := registered_run c deployer messages
  exact ⟨numbered.interval, numbered.room, numbered.stored, numbered.unset,
    numbered.increasing, counts, holds.bounded, holds.numbers⟩

end RootChain

end Plasma.Contract
