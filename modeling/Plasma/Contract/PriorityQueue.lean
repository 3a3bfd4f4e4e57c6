import Plasma.Contract.Evm
import Plasma.Lib.Heap

/-!
# The exit queue

`PriorityQueue` keeps packed elements, the priority in the high and the value
in the low 128 bits, in a binary heap whose cell 0 is a sentinel.  The loops of
the source only read cells below the length of the array; the number of rounds
is bounded by the index for the way up and by the size for the way down.
-/

namespace Plasma.Contract

open Plasma.Lib Plasma.Lib.Heap

structure PriorityQueue where
  heapList : Nat → Word
  length : Nat
  currentSize : Nat

namespace PriorityQueue

def new : PriorityQueue :=
  { heapList := fun _ => 0, length := 1, currentSize := 0 }

def element (priority value : Word) : Word := priority <<< 128 ||| value

def splitElement (element : Word) : Word × Word :=
  (element >>> 128, (element.setWidth 128).setWidth 256)

def minChild (currentSize : Nat) (heapList : Nat → Word) (index : Nat) : Nat :=
  if currentSize < index * 2 + 1 then index * 2
  else if heapList (index * 2) < heapList (index * 2 + 1) then index * 2
  else index * 2 + 1

def percUpLoop (newVal : Word) :
    Nat → (Nat → Word) → Nat → (Nat → Word) × Nat
  | 0, heapList, index => (heapList, index)
  | rounds + 1, heapList, index =>
      if newVal < heapList (index / 2) then
        percUpLoop newVal rounds
          (Function.update heapList index (heapList (index / 2))) (index / 2)
      else (heapList, index)

def percUp (q : PriorityQueue) (j : Nat) : PriorityQueue :=
  let newVal := q.heapList j
  let (heapList, index) := percUpLoop newVal j q.heapList j
  { q with
    heapList :=
      if index ≠ j then Function.update heapList index newVal
      else heapList }

def percDownLoop (newVal : Word) (currentSize : Nat) :
    Nat → (Nat → Word) → Nat → (Nat → Word) × Nat
  | 0, heapList, index => (heapList, index)
  | rounds + 1, heapList, index =>
      let mc := minChild currentSize heapList index
      if mc ≤ currentSize ∧ heapList mc < newVal then
        percDownLoop newVal currentSize rounds
          (Function.update heapList index (heapList mc)) mc
      else (heapList, index)

def percDown (q : PriorityQueue) (j : Nat) : PriorityQueue :=
  let newVal := q.heapList j
  let (heapList, index) :=
    percDownLoop newVal q.currentSize q.currentSize q.heapList j
  { q with
    heapList :=
      if index ≠ j then Function.update heapList index newVal
      else heapList }

def insert (q : PriorityQueue) (priority value : Word) : PriorityQueue :=
  let pushed :=
    { heapList :=
        Function.update q.heapList q.length (element priority value)
      length := q.length + 1
      currentSize := q.currentSize + 1 }
  percUp pushed pushed.currentSize

/-- Reading the first cell of an empty queue is out of bounds. -/
def getMin (q : PriorityQueue) : Option (Word × Word) :=
  if 1 < q.length then some (splitElement (q.heapList 1)) else none

def delMin (q : PriorityQueue) : Option (PriorityQueue × Word × Word) :=
  if 1 < q.length then
    let retVal := q.heapList 1
    let heapList := Function.update q.heapList 1 (q.heapList q.currentSize)
    let heapList := Function.update heapList q.currentSize 0
    let q := percDown
      { q with heapList := heapList, currentSize := q.currentSize - 1 } 1
    some ({ q with length := q.length - 1 }, splitElement retVal)
  else none

/-- The packed elements in the queue. -/
def elements (q : PriorityQueue) : Multiset Word :=
  contents q.currentSize q.heapList

structure WellFormed (q : PriorityQueue) : Prop where
  length_eq : q.length = q.currentSize + 1
  sentinel : q.heapList 0 = 0
  ordered : Ordered q.currentSize q.heapList

theorem wellFormed_new : WellFormed new := by
  refine ⟨rfl, rfl, ?_⟩
  intro i large bound
  have empty : i ≤ 0 := bound
  omega

theorem elements_new : new.elements = 0 := rfl

/-- The result of a sifting loop: the carried value may stand in the cell at
which the loop stopped, and together with it the table kept its contents. -/
structure Settled (size : Nat) (newVal : Word) (heapList : Nat → Word)
    (index : Nat) (result : (Nat → Word) × Nat) : Prop where
  positive : 1 ≤ result.2
  unmoved : result.2 = index → result.1 = heapList
  sentinel : result.1 0 = heapList 0
  ordered : Ordered size (Function.update result.1 result.2 newVal)
  same : contents size (Function.update result.1 result.2 newVal) =
    contents size (Function.update heapList index newVal)

/-- A move of the hole before a settled rest. -/
theorem Settled.move {size index next : Nat} {newVal : Word}
    {heapList : Nat → Word} {result : (Nat → Word) × Nat}
    (rest : Settled size newVal
      (Function.update heapList index (heapList next)) next result)
    (inside : 1 ≤ index ∧ index ≤ size) (nextInside : 1 ≤ next ∧ next ≤ size)
    (distinct : next ≠ index) (moved : result.2 ≠ index) :
    Settled size newVal heapList index result := by
  refine ⟨rest.positive, fun stayed => (moved stayed).elim, ?_, rest.ordered,
    rest.same.trans (contents_move heapList inside nextInside distinct newVal)⟩
  rw [rest.sentinel, Function.update_of_ne (by omega)]

/-- What a sifting function achieves after its last write. -/
theorem Settled.write {size index : Nat} {heapList : Nat → Word}
    {result : (Nat → Word) × Nat}
    (settled : Settled size (heapList index) heapList index result) :
    let final :=
      if result.2 ≠ index then
        Function.update result.1 result.2 (heapList index)
      else result.1
    final 0 = heapList 0 ∧ Ordered size final ∧
      contents size final = contents size heapList := by
  have written : (if result.2 ≠ index then
        Function.update result.1 result.2 (heapList index)
      else result.1) =
      Function.update result.1 result.2 (heapList index) := by
    split
    · rfl
    · next stayed =>
        have place : result.2 = index := not_not.mp stayed
        rw [place, settled.unmoved place, Function.update_eq_self]
  have positive := settled.positive
  have same := settled.same
  rw [Function.update_eq_self] at same
  simp only [written]
  refine ⟨?_, settled.ordered, same⟩
  rw [Function.update_of_ne (by omega), settled.sentinel]

section Up

/-- The way up ends where the carried value may stand. -/
theorem percUpLoop_spec {size : Nat} {newVal : Word} (rounds : Nat)
    (heapList : Nat → Word) (index : Nat) (sentinel : heapList 0 = 0)
    (inside : 1 ≤ index ∧ index ≤ size) (enough : index ≤ rounds)
    (above : OrderedAbove size index
      (Function.update heapList index newVal)) :
    (percUpLoop newVal rounds heapList index).2 ≤ index ∧
      Settled size newVal heapList index
        (percUpLoop newVal rounds heapList index) := by
  induction rounds generalizing heapList index with
  | zero => omega
  | succ rounds induction =>
      by_cases smaller : newVal < heapList (index / 2)
      · rw [percUpLoop, if_pos smaller]
        have large : 2 ≤ index := by
          by_contra root
          have first : index / 2 = 0 := by omega
          rw [first, sentinel] at smaller
          exact BitVec.not_lt_zero smaller
        obtain ⟨bound, settled⟩ := induction
          (Function.update heapList index (heapList (index / 2))) (index / 2)
          (by rw [Function.update_of_ne (by omega)]; exact sentinel)
          (by omega) (by omega) (above.moveUp large inside.2 smaller)
        exact ⟨by omega,
          settled.move inside (by omega) (by omega) (by omega)⟩
      · rw [percUpLoop, if_neg smaller]
        refine ⟨le_refl _, inside.1, fun _ => rfl, rfl, above.ordered ?_, rfl⟩
        intro large
        rw [Function.update_self, Function.update_of_ne (by omega)]
        exact not_lt.mp smaller

theorem percUp_spec {size j : Nat} (q : PriorityQueue)
    (sentinel : q.heapList 0 = 0) (inside : 1 ≤ j ∧ j ≤ size)
    (above : OrderedAbove size j q.heapList) :
    (q.percUp j).heapList 0 = 0 ∧ Ordered size (q.percUp j).heapList ∧
      contents size (q.percUp j).heapList = contents size q.heapList := by
  have carried : OrderedAbove size j
      (Function.update q.heapList j (q.heapList j)) := by
    rw [Function.update_eq_self]
    exact above
  have settled :=
    (percUpLoop_spec j q.heapList j sentinel inside (le_refl _) carried).2
  rw [← sentinel]
  exact settled.write

end Up

section Down

theorem minChild_div (currentSize : Nat) (heapList : Nat → Word)
    (index : Nat) : minChild currentSize heapList index / 2 = index := by
  rw [minChild]
  split
  · omega
  · split <;> omega

/-- The chosen child is the least one. -/
theorem minChild_le {currentSize : Nat} {heapList : Nat → Word}
    {index i : Nat} (bound : i ≤ currentSize) (child : i / 2 = index) :
    heapList (minChild currentSize heapList index) ≤ heapList i := by
  rw [minChild]
  split
  · next single =>
      have only : i = index * 2 := by omega
      rw [only]
  · split
    · next less =>
        rcases (by omega : i = index * 2 ∨ i = index * 2 + 1) with rfl | rfl
        · exact le_refl _
        · exact less.le
    · next notLess =>
        rcases (by omega : i = index * 2 ∨ i = index * 2 + 1) with rfl | rfl
        · exact not_lt.mp notLess
        · exact le_refl _

/-- Without a child inside the queue there is nothing below. -/
theorem minChild_le_of_child {currentSize : Nat} {heapList : Nat → Word}
    {index i : Nat} (bound : i ≤ currentSize) (child : i / 2 = index) :
    minChild currentSize heapList index ≤ currentSize := by
  rw [minChild]
  split
  · omega
  · split <;> omega

/-- The way down ends where the carried value may stand. -/
theorem percDownLoop_spec {size : Nat} {newVal : Word} (rounds : Nat)
    (heapList : Nat → Word) (index : Nat)
    (inside : 1 ≤ index ∧ index ≤ size) (enough : size < index + rounds)
    (below : OrderedBelow size index
      (Function.update heapList index newVal)) :
    index ≤ (percDownLoop newVal size rounds heapList index).2 ∧
      Settled size newVal heapList index
        (percDownLoop newVal size rounds heapList index) := by
  induction rounds generalizing heapList index with
  | zero => omega
  | succ rounds induction =>
      have child := minChild_div size heapList index
      by_cases smaller : minChild size heapList index ≤ size ∧
          heapList (minChild size heapList index) < newVal
      · rw [percDownLoop, if_pos smaller]
        have moved := below.moveDown inside.1 smaller.1 child
          (fun i bound isChild => minChild_le bound isChild) smaller.2
        obtain ⟨bound, settled⟩ := induction
          (Function.update heapList index
            (heapList (minChild size heapList index)))
          (minChild size heapList index) (by omega) (by omega) moved
        exact ⟨by omega,
          settled.move inside (by omega) (by omega) (by omega)⟩
      · rw [percDownLoop, if_neg smaller]
        refine ⟨le_refl _, inside.1, fun _ => rfl, rfl, below.ordered ?_, rfl⟩
        intro i large bound isChild
        rw [Function.update_self, Function.update_of_ne (by omega)]
        have reached : minChild size heapList index ≤ size :=
          minChild_le_of_child bound isChild
        have notSmaller : newVal ≤
            heapList (minChild size heapList index) := by
          by_contra less
          exact smaller ⟨reached, not_le.mp less⟩
        exact notSmaller.trans (minChild_le bound isChild)

theorem percDown_spec {j : Nat} (q : PriorityQueue)
    (inside : 1 ≤ j ∧ j ≤ q.currentSize)
    (below : OrderedBelow q.currentSize j q.heapList) :
    (q.percDown j).heapList 0 = q.heapList 0 ∧
      Ordered q.currentSize (q.percDown j).heapList ∧
      contents q.currentSize (q.percDown j).heapList =
        contents q.currentSize q.heapList := by
  have carried : OrderedBelow q.currentSize j
      (Function.update q.heapList j (q.heapList j)) := by
    rw [Function.update_eq_self]
    exact below
  exact (percDownLoop_spec q.currentSize q.heapList j inside (by omega)
    carried).2.write

end Down

section Packing

theorem element_toNat {priority value : Word} (small : priority.toNat < 2 ^ 128)
    (fits : value.toNat < 2 ^ 128) :
    (element priority value).toNat = priority.toNat * 2 ^ 128 + value.toNat := by
  rw [element, BitVec.toNat_or, BitVec.toNat_shiftLeft, Nat.shiftLeft_eq,
    Nat.mod_eq_of_lt (by omega), ← Nat.shiftLeft_eq,
    Nat.shiftLeft_add_eq_or_of_lt fits]

/-- A packed element gives back its priority and its value. -/
theorem splitElement_element {priority value : Word}
    (small : priority.toNat < 2 ^ 128) (fits : value.toNat < 2 ^ 128) :
    splitElement (element priority value) = (priority, value) := by
  have packed := element_toNat small fits
  refine Prod.ext (BitVec.eq_of_toNat_eq ?_) (BitVec.eq_of_toNat_eq ?_)
  · simp only [splitElement, BitVec.toNat_ushiftRight, packed,
      Nat.shiftRight_eq_div_pow]
    omega
  · simp only [splitElement, BitVec.toNat_setWidth, packed]
    omega

/-- Packed elements are compared by priority first and by value second. -/
theorem element_lt_iff {priority value priority' value' : Word}
    (small : priority.toNat < 2 ^ 128) (fits : value.toNat < 2 ^ 128)
    (small' : priority'.toNat < 2 ^ 128) (fits' : value'.toNat < 2 ^ 128) :
    element priority value < element priority' value' ↔
      priority < priority' ∨ priority = priority' ∧ value < value' := by
  have equal : priority = priority' ↔ priority.toNat = priority'.toNat :=
    BitVec.toNat_eq
  rw [BitVec.lt_def, BitVec.lt_def, BitVec.lt_def, equal,
    element_toNat small fits, element_toNat small' fits']
  omega

end Packing

section Operations

variable {q : PriorityQueue}

theorem insert_spec (wellFormed : q.WellFormed) (priority value : Word) :
    (q.insert priority value).WellFormed ∧
      (q.insert priority value).currentSize = q.currentSize + 1 ∧
      (q.insert priority value).elements =
        element priority value ::ₘ q.elements := by
  obtain ⟨length_eq, sentinel, ordered⟩ := wellFormed
  have kept : Function.update q.heapList q.length (element priority value) 0 =
      0 := by
    rw [Function.update_of_ne (by omega), sentinel]
  have above := ordered.push (element priority value)
  rw [← length_eq] at above
  obtain ⟨first, sorted, same⟩ := percUp_spec
    { heapList := Function.update q.heapList q.length (element priority value)
      length := q.length + 1
      currentSize := q.currentSize + 1 }
    kept ⟨by omega, le_refl _⟩ above
  have place : q.insert priority value = percUp
      { heapList := Function.update q.heapList q.length
          (element priority value)
        length := q.length + 1
        currentSize := q.currentSize + 1 } q.length := by
    rw [insert, length_eq]
  rw [place]
  rw [length_eq] at first sorted same ⊢
  refine ⟨⟨rfl, first, sorted⟩, rfl, ?_⟩
  refine same.trans ((contents_succ _ _).trans ?_)
  refine congrArg₂ _ (Function.update_self _ _ _) (contents_congr ?_)
  intro i _ bound
  exact Function.update_of_ne (by omega) _ _

/-- The first cell of a queue that is not empty is its least element. -/
theorem getMin_spec (wellFormed : q.WellFormed) {front : Word × Word}
    (read : q.getMin = some front) :
    ∃ least ∈ q.elements, (∀ other ∈ q.elements, least ≤ other) ∧
      front = splitElement least ∧ 1 ≤ q.currentSize ∧
      least = q.heapList 1 := by
  rw [getMin, wellFormed.length_eq] at read
  split at read
  · next nonempty =>
      refine ⟨q.heapList 1, mem_contents.mpr ⟨1, by omega, rfl⟩, ?_,
        (Option.some.inj read).symm, by omega, rfl⟩
      intro other member
      exact wellFormed.ordered.le_of_mem member
  · cases read

/-- Deleting removes exactly the least element. -/
theorem delMin_spec (wellFormed : q.WellFormed)
    (nonempty : 1 ≤ q.currentSize) :
    ∃ rest, q.delMin = some (rest, splitElement (q.heapList 1)) ∧
      rest.WellFormed ∧ rest.currentSize + 1 = q.currentSize ∧
      q.elements = q.heapList 1 ::ₘ rest.elements := by
  obtain ⟨length_eq, sentinel, ordered⟩ := wellFormed
  obtain ⟨size, size_eq⟩ : ∃ size, q.currentSize = size + 1 :=
    ⟨q.currentSize - 1, by omega⟩
  rw [delMin, if_pos (by omega)]
  refine ⟨_, rfl, ?_⟩
  simp only [size_eq, Nat.add_sub_cancel]
  rw [size_eq] at length_eq ordered
  cases size with
  | zero =>
      refine ⟨⟨by simp [percDown, percDownLoop, length_eq], ?_, ?_⟩, rfl, ?_⟩
      · simpa [percDown, percDownLoop] using sentinel
      · intro i large bound
        have empty : i ≤ 0 := bound
        omega
      · rw [elements, size_eq, contents_succ]
        rfl
  | succ size =>
      have cleared : Ordered (size + 1)
          (Function.update q.heapList (size + 1 + 1) 0) := by
        refine ordered.shrink.congr ?_
        intro i _ bound
        exact Function.update_of_ne (by omega) _ _
      have swap := Function.update_comm (show (1 : Nat) ≠ size + 1 + 1 by omega)
        (q.heapList (size + 1 + 1)) 0 q.heapList
      obtain ⟨first, sorted, same⟩ := percDown_spec
        { q with
          heapList := Function.update
            (Function.update q.heapList 1 (q.heapList (size + 1 + 1)))
            (size + 1 + 1) 0
          currentSize := size + 1 }
        ⟨le_refl 1, Nat.le_add_left 1 size⟩
        (swap ▸ cleared.replaceRoot (q.heapList (size + 1 + 1)))
      refine ⟨⟨?_, ?_, sorted⟩, rfl, ?_⟩
      · exact congrArg (· - 1) length_eq
      · have kept : Function.update
            (Function.update q.heapList 1 (q.heapList (size + 1 + 1)))
            (size + 1 + 1) 0 0 = 0 := by
          rw [Function.update_of_ne (by omega),
            Function.update_of_ne (by omega), sentinel]
        exact first.trans kept
      · have exchange := contents_update
          (Function.update q.heapList (size + 1 + 1) 0)
          ⟨le_refl 1, Nat.le_add_left 1 size⟩ (q.heapList (size + 1 + 1))
        rw [Function.update_of_ne (by omega), ← swap] at exchange
        have low : contents (size + 1)
            (Function.update q.heapList (size + 1 + 1) 0) =
            contents (size + 1) q.heapList := by
          refine contents_congr ?_
          intro i _ bound
          exact Function.update_of_ne (by omega) _ _
        rw [elements, size_eq, contents_succ, ← low, ← exchange]
        exact congrArg _ same.symm

end Operations

end PriorityQueue

end Plasma.Contract
