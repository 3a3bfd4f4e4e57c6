import Plasma.Contract.PriorityQueue

/-!
# Runs of the exit queue

Here the storage array of the queue has a length: an access at or above it
fails, and so does a sifting loop that is still running when its rounds are
over.  Every operation on this array follows the operation on the unbounded
table, so a run on the array never fails and has the results of the heap.
-/

namespace Plasma.Contract

open Plasma.Lib.Heap

/-- The storage of the contract. -/
structure QueueStorage where
  heapList : List Word
  currentSize : Nat
deriving DecidableEq

namespace QueueStorage

open PriorityQueue (element splitElement)

def new : QueueStorage :=
  { heapList := [0], currentSize := 0 }

/-- An assignment to a cell of the array. -/
def assign (heapList : List Word) (index : Nat) (value : Word) :
    Option (List Word) :=
  if index < heapList.length then some (heapList.set index value) else none

/-- The last statement of both sifting functions. -/
def place (heapList : List Word) (index j : Nat) (newVal : Word) :
    Option (List Word) :=
  if index ≠ j then assign heapList index newVal else some heapList

def minChild (currentSize : Nat) (heapList : List Word) (index : Nat) :
    Option Nat :=
  if index * 2 + 1 > currentSize then some (index * 2)
  else do
    let left ← heapList[index * 2]?
    let right ← heapList[index * 2 + 1]?
    if left < right then some (index * 2) else some (index * 2 + 1)

def percUpLoop (newVal : Word) :
    Nat → List Word → Nat → Option (List Word × Nat)
  | 0, _, _ => none
  | rounds + 1, heapList, index => do
      let parent ← heapList[index / 2]?
      if newVal < parent then
        let heapList ← assign heapList index parent
        percUpLoop newVal rounds heapList (index / 2)
      else some (heapList, index)

def percUp (q : QueueStorage) (j : Nat) : Option QueueStorage := do
  let newVal ← q.heapList[j]?
  let (heapList, index) ← percUpLoop newVal (j + 1) q.heapList j
  let heapList ← place heapList index j newVal
  return { q with heapList := heapList }

def percDownLoop (newVal : Word) (currentSize : Nat) :
    Nat → List Word → Nat → Option (List Word × Nat)
  | 0, _, _ => none
  | rounds + 1, heapList, index => do
      let mc ← minChild currentSize heapList index
      if mc ≤ currentSize then
        let child ← heapList[mc]?
        if newVal > child then
          let heapList ← assign heapList index child
          percDownLoop newVal currentSize rounds heapList mc
        else some (heapList, index)
      else some (heapList, index)

def percDown (q : QueueStorage) (j : Nat) : Option QueueStorage := do
  let newVal ← q.heapList[j]?
  let (heapList, index) ←
    percDownLoop newVal q.currentSize (q.currentSize + 1) q.heapList j
  let heapList ← place heapList index j newVal
  return { q with heapList := heapList }

def insert (q : QueueStorage) (priority value : Word) :
    Option QueueStorage :=
  let pushed :=
    { heapList := q.heapList ++ [element priority value]
      currentSize := q.currentSize + 1 : QueueStorage }
  percUp pushed pushed.currentSize

def getMin (q : QueueStorage) : Option (Word × Word) := do
  let front ← q.heapList[1]?
  return splitElement front

/-- `SafeMath.sub` reverts below zero. -/
def sub (a b : Nat) : Option Nat :=
  if b ≤ a then some (a - b) else none

def delMin (q : QueueStorage) :
    Option (QueueStorage × Word × Word) := do
  let retVal ← q.heapList[1]?
  let last ← q.heapList[q.currentSize]?
  let heapList ← assign q.heapList 1 last
  let heapList ← assign heapList q.currentSize 0
  let currentSize ← sub q.currentSize 1
  let q ← percDown { heapList, currentSize } 1
  let length ← sub q.heapList.length 1
  return ({ q with heapList := q.heapList.take length }, splitElement retVal)

/-- The pairs in the queue. -/
def pairs (q : QueueStorage) : Multiset (Word × Word) :=
  ((q.heapList.drop 1 : List Word) : Multiset Word).map splitElement

end QueueStorage

namespace PriorityQueue

/-- The array holds the cells of the table below its length. -/
def Cells (array : List Word) (table : Nat → Word) : Prop :=
  ∀ i, i < array.length → array[i]? = some (table i)

namespace Cells

variable {array : List Word} {table : Nat → Word}

theorem assign (cells : Cells array table) {index : Nat}
    (inside : index < array.length) (value : Word) :
    QueueStorage.assign array index value = some (array.set index value) ∧
      Cells (array.set index value) (Function.update table index value) ∧
      (array.set index value).length = array.length := by
  refine ⟨if_pos inside, ?_, List.length_set⟩
  intro i bound
  rw [List.length_set] at bound
  by_cases same : i = index
  · subst same
    rw [List.getElem?_set_self bound, Function.update_self]
  · rw [List.getElem?_set_ne (Ne.symm same), Function.update_of_ne same]
    exact cells i bound

theorem push (cells : Cells array table) (value : Word) :
    Cells (array ++ [value]) (Function.update table array.length value) := by
  intro i bound
  rw [List.length_append, List.length_singleton] at bound
  by_cases last : i = array.length
  · subst last
    simp
  · rw [List.getElem?_append_left (by omega), Function.update_of_ne last]
    exact cells i (by omega)

theorem take (cells : Cells array table) (length : Nat) :
    Cells (array.take length) table := by
  intro i bound
  rw [List.length_take] at bound
  rw [List.getElem?_take_of_lt (by omega)]
  exact cells i (by omega)

/-- The cells after the sentinel are the contents of the heap. -/
theorem drop_one {size : Nat} (cells : Cells array table)
    (length : array.length = size + 1) :
    ((array.drop 1 : List Word) : Multiset Word) = contents size table := by
  have listed : array.drop 1 = (List.range' 1 size).map table := by
    apply List.ext_getElem?
    intro i
    rw [List.getElem?_drop, List.getElem?_map]
    by_cases bound : i < size
    · rw [cells (1 + i) (by omega), List.getElem?_range' bound]
      simp
    · rw [List.getElem?_eq_none (by omega),
        List.getElem?_eq_none (by rw [List.length_range']; omega)]
      rfl
  rw [listed]
  exact (Multiset.map_coe table (List.range' 1 size)).symm

end Cells

section Loops

variable {array : List Word} {table : Nat → Word}

/-- The way up stays inside the array and stops at the sentinel. -/
theorem percUpLoop_cells (newVal : Word) (rounds : Nat) {index : Nat}
    (cells : Cells array table) (sentinel : table 0 = 0)
    (inside : index < array.length) (enough : index ≤ rounds) :
    ∃ result : List Word,
      QueueStorage.percUpLoop newVal (rounds + 1) array index =
        some (result, (percUpLoop newVal rounds table index).2) ∧
      Cells result (percUpLoop newVal rounds table index).1 ∧
      result.length = array.length ∧
      (percUpLoop newVal rounds table index).2 < array.length := by
  induction rounds generalizing array table index with
  | zero =>
      obtain rfl : index = 0 := by omega
      have read := cells 0 inside
      rw [sentinel] at read
      refine ⟨array, ?_, cells, rfl, inside⟩
      simp [QueueStorage.percUpLoop, percUpLoop, read]
  | succ rounds induction =>
      have read := cells (index / 2) (by omega)
      rw [QueueStorage.percUpLoop, percUpLoop, read]
      by_cases smaller : newVal < table (index / 2)
      · have positive : index ≠ 0 := by
          rintro rfl
          rw [Nat.zero_div, sentinel] at smaller
          exact BitVec.not_lt_zero smaller
        obtain ⟨assigned, next, length⟩ :=
          cells.assign inside (table (index / 2))
        obtain ⟨result, run, final, same, stopped⟩ := induction next
          (by rw [Function.update_of_ne positive.symm]; exact sentinel)
          (by rw [length]; omega) (show index / 2 ≤ rounds by omega)
        refine ⟨result, ?_, ?_, same.trans length, ?_⟩
        · simp only [Option.bind_eq_bind, Option.bind_some, if_pos smaller,
            assigned]
          exact run
        · rw [if_pos smaller]
          exact final
        · rw [if_pos smaller, ← length]
          exact stopped
      · refine ⟨array, ?_, ?_, rfl, ?_⟩
        · simp [if_neg smaller]
        · rw [if_neg smaller]
          exact cells
        · rw [if_neg smaller]
          exact inside

theorem minChild_cells {currentSize index : Nat} (cells : Cells array table)
    (inside : currentSize < array.length) :
    QueueStorage.minChild currentSize array index =
      some (minChild currentSize table index) := by
  rw [QueueStorage.minChild, minChild]
  by_cases single : index * 2 + 1 > currentSize
  · rw [if_pos single, if_pos single]
  · rw [if_neg single, if_neg single, cells (index * 2) (by omega),
      cells (index * 2 + 1) (by omega)]
    simp only [Option.bind_eq_bind, Option.bind_some, apply_ite some]

/-- The way down stays inside the array and stops below the last cell. -/
theorem percDownLoop_cells (newVal : Word) {currentSize : Nat}
    (rounds : Nat) {index : Nat} (cells : Cells array table)
    (sized : currentSize < array.length) (inside : 1 ≤ index ∧
      index < array.length) (enough : currentSize < index + rounds) :
    ∃ result : List Word,
      QueueStorage.percDownLoop newVal currentSize (rounds + 1) array index =
        some (result, (percDownLoop newVal currentSize rounds table index).2) ∧
      Cells result (percDownLoop newVal currentSize rounds table index).1 ∧
      result.length = array.length ∧
      (percDownLoop newVal currentSize rounds table index).2 <
        array.length := by
  induction rounds generalizing array table index with
  | zero =>
      have outside : ¬ minChild currentSize table index ≤ currentSize := by
        have half := minChild_div currentSize table index
        omega
      refine ⟨array, ?_, cells, rfl, inside.2⟩
      simp [QueueStorage.percDownLoop, percDownLoop,
        minChild_cells cells sized, outside]
  | succ rounds induction =>
      have child := minChild_div currentSize table index
      rw [QueueStorage.percDownLoop, percDownLoop, minChild_cells cells sized]
      generalize minChild currentSize table index = mc at child ⊢
      by_cases within : mc ≤ currentSize
      · have read := cells mc (by omega)
        by_cases smaller : table mc < newVal
        · obtain ⟨assigned, next, length⟩ := cells.assign inside.2 (table mc)
          obtain ⟨result, run, final, same, stopped⟩ := induction next
            (by rw [length]; exact sized)
            (show 1 ≤ mc ∧ mc < (array.set index (table mc)).length by
              rw [length]; omega) (by omega)
          refine ⟨result, ?_, ?_, same.trans length, ?_⟩
          · simp only [Option.bind_eq_bind, Option.bind_some, if_pos within,
              read, gt_iff_lt, if_pos smaller, assigned,
              if_pos (And.intro within smaller)]
            exact run
          · rw [if_pos ⟨within, smaller⟩]
            exact final
          · rw [if_pos ⟨within, smaller⟩, ← length]
            exact stopped
        · refine ⟨array, ?_, ?_, rfl, ?_⟩
          · simp [within, read, smaller]
          · simpa [smaller] using cells
          · simpa [smaller] using inside.2
      · refine ⟨array, ?_, ?_, rfl, ?_⟩
        · simp [within]
        · simpa [within] using cells
        · simpa [within] using inside.2

end Loops

/-- The array and the counter of the contract follow the heap. -/
structure Stores (s : QueueStorage) (q : PriorityQueue) : Prop where
  cells : Cells s.heapList q.heapList
  length_eq : s.heapList.length = q.length
  size_eq : s.currentSize = q.currentSize

namespace Stores

variable {s : QueueStorage} {q : PriorityQueue}

theorem place {array : List Word} {table : Nat → Word} {index j : Nat}
    (cells : Cells array table) (inside : index < array.length)
    (newVal : Word) :
    ∃ final,
      QueueStorage.place array index j newVal = some final ∧
      Cells final (if index ≠ j then Function.update table index newVal
        else table) ∧ final.length = array.length := by
  rw [QueueStorage.place]
  by_cases moved : index ≠ j
  · rw [if_pos moved, if_pos moved]
    exact ⟨_, cells.assign inside newVal⟩
  · rw [if_neg moved, if_neg moved]
    exact ⟨array, rfl, cells, rfl⟩

theorem percUp (stores : Stores s q) (sentinel : q.heapList 0 = 0) {j : Nat}
    (inside : j < q.length) :
    ∃ next, s.percUp j = some next ∧ Stores next (q.percUp j) := by
  rw [← stores.length_eq] at inside
  obtain ⟨array, run, cells, length, stopped⟩ := percUpLoop_cells
    (q.heapList j) j stores.cells sentinel inside (le_refl j)
  obtain ⟨final, written, finalCells, finalLength⟩ :=
    place cells (by rw [length]; exact stopped) (q.heapList j)
  refine ⟨{ s with heapList := final }, ?_, finalCells, ?_, stores.size_eq⟩
  · simp only [QueueStorage.percUp, stores.cells j inside, run, written,
      Option.bind_eq_bind, Option.bind_some, Option.pure_def]
  · exact (finalLength.trans length).trans stores.length_eq

theorem percDown (stores : Stores s q) (sized : q.currentSize < q.length)
    {j : Nat} (inside : 1 ≤ j ∧ j < q.length) :
    ∃ next, s.percDown j = some next ∧ Stores next (q.percDown j) := by
  rw [← stores.length_eq] at inside sized
  obtain ⟨array, run, cells, length, stopped⟩ := percDownLoop_cells
    (q.heapList j) q.currentSize stores.cells sized inside (by omega)
  obtain ⟨final, written, finalCells, finalLength⟩ :=
    place cells (by rw [length]; exact stopped) (q.heapList j)
  refine ⟨{ s with heapList := final }, ?_, finalCells, ?_, stores.size_eq⟩
  · simp only [QueueStorage.percDown, stores.cells j inside.2, stores.size_eq,
      run, written, Option.bind_eq_bind, Option.bind_some, Option.pure_def]
  · exact (finalLength.trans length).trans stores.length_eq

theorem insert (stores : Stores s q) (wellFormed : q.WellFormed)
    (priority value : Word) :
    ∃ next, s.insert priority value = some next ∧
      Stores next (q.insert priority value) := by
  have pushed : Stores
      { heapList := s.heapList ++ [element priority value]
        currentSize := s.currentSize + 1 }
      { heapList :=
          Function.update q.heapList q.length (element priority value)
        length := q.length + 1
        currentSize := q.currentSize + 1 } := by
    refine ⟨?_, ?_, congrArg (· + 1) stores.size_eq⟩
    · rw [← stores.length_eq]
      exact stores.cells.push _
    · simp [stores.length_eq]
  have length_eq := wellFormed.length_eq
  rw [QueueStorage.insert, PriorityQueue.insert, stores.size_eq]
  rw [stores.size_eq] at pushed
  refine pushed.percUp ?_ (show q.currentSize + 1 < q.length + 1 by omega)
  exact (Function.update_of_ne (by omega) _ _).trans wellFormed.sentinel

theorem delMin (stores : Stores s q) (wellFormed : q.WellFormed)
    {rest : PriorityQueue} {front : Word × Word}
    (deleted : q.delMin = some (rest, front)) :
    ∃ next, s.delMin = some (next, front) ∧ Stores next rest := by
  have length_eq := wellFormed.length_eq
  have stored := stores.length_eq
  rw [PriorityQueue.delMin] at deleted
  split at deleted
  · next nonempty =>
      obtain ⟨first, firstCells, firstLength⟩ := stores.cells.assign
        (show 1 < s.heapList.length by omega) (q.heapList q.currentSize)
      obtain ⟨second, secondCells, secondLength⟩ := firstCells.assign
        (show q.currentSize < _ by rw [firstLength]; omega) 0
      have cleared : Stores
          { heapList := (s.heapList.set 1 (q.heapList q.currentSize)).set
              q.currentSize 0
            currentSize := q.currentSize - 1 }
          { q with
            heapList := Function.update (Function.update q.heapList 1
              (q.heapList q.currentSize)) q.currentSize 0
            currentSize := q.currentSize - 1 } :=
        ⟨secondCells, (secondLength.trans firstLength).trans stored, rfl⟩
      obtain ⟨sifted, run, down⟩ := cleared.percDown
        (show q.currentSize - 1 < q.length by omega) ⟨le_refl 1, nonempty⟩
      have siftedLength : sifted.heapList.length = q.length := down.length_eq
      obtain ⟨rfl, rfl⟩ := Prod.mk.inj (Option.some.inj deleted)
      refine ⟨{ sifted with
        heapList := sifted.heapList.take (sifted.heapList.length - 1) },
        ?_, down.cells.take _, ?_, down.size_eq⟩
      · simp only [QueueStorage.delMin, QueueStorage.sub, stores.size_eq,
          stores.cells 1 (by omega), stores.cells q.currentSize (by omega),
          first, second, run, if_pos (show 1 ≤ q.currentSize by omega),
          if_pos (show 1 ≤ sifted.heapList.length by omega),
          Option.bind_eq_bind, Option.bind_some, Option.pure_def]
      · rw [List.length_take, siftedLength, Nat.min_eq_left (Nat.sub_le _ _)]
        rfl
  · cases deleted

theorem getMin (stores : Stores s q) : s.getMin = q.getMin := by
  rw [QueueStorage.getMin, PriorityQueue.getMin, ← stores.length_eq]
  split
  · next nonempty =>
      rw [stores.cells 1 nonempty]
      rfl
  · next empty =>
      rw [List.getElem?_eq_none (by omega)]
      rfl

theorem pairs (stores : Stores s q) (wellFormed : q.WellFormed) :
    s.pairs = q.elements.map splitElement := by
  rw [QueueStorage.pairs, stores.cells.drop_one
    (stores.length_eq.trans wellFormed.length_eq)]
  rfl

end Stores

end PriorityQueue

/-- A call of the contract that owns the queue. -/
inductive QueueCall where
  | insert (priority value : Word)
  | delMin
deriving DecidableEq

namespace QueueCall

/-- Priority and value fit the halves of an element. -/
def Small : QueueCall → Prop
  | insert priority value => priority.toNat < 2 ^ 128 ∧ value.toNat < 2 ^ 128
  | delMin => True

/-- No call takes from an empty queue when this many pairs are in it at the
start. -/
def WhileNonempty : Nat → List QueueCall → Prop
  | _, [] => True
  | size, insert _ _ :: calls => WhileNonempty (size + 1) calls
  | 0, delMin :: _ => False
  | size + 1, delMin :: calls => WhileNonempty size calls

/-- The pairs that the calls put into the queue. -/
def inserted : List QueueCall → Multiset (Word × Word)
  | [] => 0
  | insert priority value :: calls => (priority, value) ::ₘ inserted calls
  | delMin :: calls => inserted calls

end QueueCall

/-- The lexicographic order of pairs. -/
def PairLe (pair other : Word × Word) : Prop :=
  pair.1 < other.1 ∨ pair.1 = other.1 ∧ pair.2 ≤ other.2

namespace QueueStorage

open PriorityQueue (element splitElement)

/-- A sequence of calls, with the pairs that were taken out. -/
def run : List QueueCall → QueueStorage →
    Option (QueueStorage × List (Word × Word))
  | [], q => some (q, [])
  | .insert priority value :: calls, q => do
      let q ← q.insert priority value
      run calls q
  | .delMin :: calls, q => do
      let (q, front) ← q.delMin
      let (q, fronts) ← run calls q
      return (q, front :: fronts)

/-- The parent of every stored cell holds at most its value. -/
def HeapOrdered (q : QueueStorage) : Prop :=
  ∀ i, 2 ≤ i → i ≤ q.currentSize →
    ∃ parent child, q.heapList[i / 2]? = some parent ∧
      q.heapList[i]? = some child ∧ parent ≤ child

/-- The array follows a heap of packed pairs. -/
structure Valid (q : QueueStorage) (heap : PriorityQueue) : Prop where
  stores : PriorityQueue.Stores q heap
  wellFormed : heap.WellFormed
  packed : ∀ packed ∈ heap.elements, ∃ priority value : Word,
    priority.toNat < 2 ^ 128 ∧ value.toNat < 2 ^ 128 ∧
      packed = element priority value

namespace Valid

variable {q : QueueStorage} {heap : PriorityQueue}

theorem new : Valid new PriorityQueue.new := by
  refine ⟨⟨?_, rfl, rfl⟩, PriorityQueue.wellFormed_new, ?_⟩
  · intro i bound
    obtain rfl : i = 0 := Nat.lt_one_iff.mp bound
    rfl
  · intro packed member
    rw [PriorityQueue.elements_new] at member
    exact absurd member (Multiset.notMem_zero _)

theorem length_eq (valid : Valid q heap) :
    q.heapList.length = q.currentSize + 1 := by
  rw [valid.stores.length_eq, valid.wellFormed.length_eq, valid.stores.size_eq]

theorem heapOrdered (valid : Valid q heap) : q.HeapOrdered := by
  intro i large bound
  have length := valid.length_eq
  refine ⟨_, _, valid.stores.cells (i / 2) (by omega),
    valid.stores.cells i (by omega), ?_⟩
  exact valid.wellFormed.ordered i large (valid.stores.size_eq ▸ bound)

theorem insert (valid : Valid q heap) {priority value : Word}
    (small : priority.toNat < 2 ^ 128 ∧ value.toNat < 2 ^ 128) :
    ∃ next, q.insert priority value = some next ∧
      Valid next (heap.insert priority value) ∧
      next.currentSize = q.currentSize + 1 ∧
      next.pairs = (priority, value) ::ₘ q.pairs := by
  obtain ⟨wellFormed, size, elements⟩ :=
    PriorityQueue.insert_spec valid.wellFormed priority value
  obtain ⟨next, inserted, stores⟩ :=
    valid.stores.insert valid.wellFormed priority value
  refine ⟨next, inserted, ⟨stores, wellFormed, ?_⟩, ?_, ?_⟩
  · intro packed member
    rw [elements] at member
    rcases Multiset.mem_cons.mp member with rfl | old
    · exact ⟨priority, value, small.1, small.2, rfl⟩
    · exact valid.packed packed old
  · rw [stores.size_eq, size, valid.stores.size_eq]
  · rw [stores.pairs wellFormed, elements, Multiset.map_cons,
      PriorityQueue.splitElement_element small.1 small.2,
      valid.stores.pairs valid.wellFormed]

/-- The order of packed elements is the order of the pairs. -/
theorem pairLe (valid : Valid q heap) {least other : Word}
    (first : least ∈ heap.elements) (second : other ∈ heap.elements)
    (le : least ≤ other) :
    PairLe (splitElement least) (splitElement other) := by
  obtain ⟨priority, value, small, fits, rfl⟩ := valid.packed least first
  obtain ⟨priority', value', small', fits', rfl⟩ := valid.packed other second
  rw [PriorityQueue.splitElement_element small fits,
    PriorityQueue.splitElement_element small' fits', PairLe]
  have notLess := not_lt.mpr le
  rw [PriorityQueue.element_lt_iff small' fits' small fits] at notLess
  rcases lt_trichotomy priority priority' with less | same | greater
  · exact .inl less
  · refine .inr ⟨same, not_lt.mp ?_⟩
    intro greater
    exact notLess (.inr ⟨same.symm, greater⟩)
  · exact absurd (.inl greater) notLess

theorem delMin (valid : Valid q heap) (nonempty : 1 ≤ q.currentSize) :
    ∃ least rest smaller, q.getMin = some least ∧
      q.delMin = some (rest, least) ∧ Valid rest smaller ∧
      rest.currentSize + 1 = q.currentSize ∧
      q.pairs = least ::ₘ rest.pairs ∧
      ∀ other ∈ q.pairs, PairLe least other := by
  rw [valid.stores.size_eq] at nonempty
  obtain ⟨smaller, deleted, wellFormed, size, elements⟩ :=
    PriorityQueue.delMin_spec valid.wellFormed nonempty
  obtain ⟨rest, run, stores⟩ := valid.stores.delMin valid.wellFormed deleted
  have root : heap.heapList 1 ∈ heap.elements := by
    rw [elements]
    exact Multiset.mem_cons_self _ _
  refine ⟨_, rest, smaller, ?_, run, ⟨stores, wellFormed, ?_⟩, ?_, ?_, ?_⟩
  · rw [valid.stores.getMin, PriorityQueue.getMin, valid.wellFormed.length_eq,
      if_pos (by omega)]
  · intro packed member
    refine valid.packed packed ?_
    rw [elements]
    exact Multiset.mem_cons_of_mem member
  · rw [stores.size_eq, size, valid.stores.size_eq]
  · rw [valid.stores.pairs valid.wellFormed, elements, Multiset.map_cons,
      stores.pairs wellFormed]
  · intro other member
    rw [valid.stores.pairs valid.wellFormed] at member
    obtain ⟨packed, stored, rfl⟩ := Multiset.mem_map.mp member
    exact valid.pairLe root stored
      (valid.wellFormed.ordered.le_of_mem stored)

/-- A run from a valid queue succeeds, ends in a valid queue and accounts for
every pair. -/
theorem run (valid : Valid q heap) {calls : List QueueCall}
    (small : ∀ call ∈ calls, call.Small)
    (nonempty : QueueCall.WhileNonempty q.currentSize calls) :
    ∃ final removed last, q.run calls = some (final, removed) ∧
      Valid final last ∧
      final.pairs + (removed : Multiset (Word × Word)) =
        q.pairs + QueueCall.inserted calls := by
  induction calls generalizing q heap with
  | nil => exact ⟨q, [], heap, rfl, valid, rfl⟩
  | cons call calls induction =>
      have later : ∀ call ∈ calls, call.Small := fun call member =>
        small call (List.mem_cons_of_mem _ member)
      cases call with
      | insert priority value =>
          obtain ⟨next, inserted, nextValid, size, pairs⟩ :=
            valid.insert (small _ List.mem_cons_self)
          obtain ⟨final, removed, last, rest, finalValid, sum⟩ :=
            induction nextValid later (by rw [size]; exact nonempty)
          refine ⟨final, removed, last, ?_, finalValid, ?_⟩
          · rw [QueueStorage.run, inserted]
            exact rest
          · rw [sum, pairs, QueueCall.inserted, Multiset.cons_add,
              Multiset.add_cons]
      | delMin =>
          have positive : 1 ≤ q.currentSize := by
            by_contra empty
            rw [show q.currentSize = 0 by omega] at nonempty
            exact nonempty
          obtain ⟨least, next, smaller, _, deleted, nextValid, size, pairs,
            _⟩ := valid.delMin positive
          rw [← size] at nonempty
          obtain ⟨final, removed, last, rest, finalValid, sum⟩ :=
            induction nextValid later nonempty
          refine ⟨final, least :: removed, last, ?_, finalValid, ?_⟩
          · simp only [QueueStorage.run, deleted, rest, Option.bind_eq_bind,
              Option.bind_some, Option.pure_def]
          · rw [← Multiset.cons_coe, Multiset.add_cons, sum, pairs,
              QueueCall.inserted, Multiset.cons_add]

end Valid

/-- Every run of the queue stays inside its array and is a run of a priority
queue. -/
theorem exit_queue_correct {calls : List QueueCall}
    (small : ∀ call ∈ calls, call.Small)
    (nonempty : QueueCall.WhileNonempty 0 calls) :
    ∃ q removed, new.run calls = some (q, removed) ∧
      q.heapList.length = q.currentSize + 1 ∧ q.HeapOrdered ∧
      q.pairs + (removed : Multiset (Word × Word)) =
        QueueCall.inserted calls ∧
      (1 ≤ q.currentSize → ∃ least rest, q.getMin = some least ∧
        q.delMin = some (rest, least) ∧ q.pairs = least ::ₘ rest.pairs ∧
        ∀ other ∈ q.pairs, PairLe least other) := by
  obtain ⟨q, removed, heap, run, valid, sum⟩ := Valid.new.run small nonempty
  refine ⟨q, removed, run, valid.length_eq, valid.heapOrdered, ?_, ?_⟩
  · rw [sum]
    exact Multiset.zero_add _
  · intro positive
    obtain ⟨least, rest, _, front, deleted, _, _, pairs, le⟩ :=
      valid.delMin positive
    exact ⟨least, rest, front, deleted, pairs, le⟩

/-- Four exits, two of them with the same priority, and the two first ones
taken out. -/
def someCalls : List QueueCall :=
  [.insert 7 1, .insert 5 9, .delMin, .insert 5 4, .insert 6 0, .delMin]

theorem someCalls_correct :
    (∃ q, new.run someCalls = some (q, [(5, 9), (5, 4)])) ∧
      ∃ q removed, new.run someCalls = some (q, removed) ∧
      q.heapList.length = q.currentSize + 1 ∧ q.HeapOrdered ∧
      q.pairs + (removed : Multiset (Word × Word)) =
        QueueCall.inserted someCalls ∧
      (1 ≤ q.currentSize → ∃ least rest, q.getMin = some least ∧
        q.delMin = some (rest, least) ∧ q.pairs = least ::ₘ rest.pairs ∧
        ∀ other ∈ q.pairs, PairLe least other) := by
  refine ⟨⟨⟨[0, element 6 0, element 7 1], 2⟩, by decide +kernel⟩,
    exit_queue_correct ?_ ?_⟩
  · simp [someCalls, QueueCall.Small]
  · simp [someCalls, QueueCall.WhileNonempty]

end QueueStorage

end Plasma.Contract
