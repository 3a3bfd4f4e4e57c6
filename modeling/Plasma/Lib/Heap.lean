import Mathlib

/-!
# Binary heaps with a hole

The cells `1 … size` of a table form a binary tree in which the parent of cell
`i` is cell `i / 2`.  The sifting loops do not swap: they carry one value and
move a hole.  A state of such a loop is described by the table with the value
written into the hole, and each move keeps the contents of that table.
-/

namespace Plasma.Lib.Heap

variable {α : Type*}

/-- The values in the cells, with multiplicity. -/
def contents (size : Nat) (cells : Nat → α) : Multiset α :=
  (Finset.Icc 1 size).val.map cells

theorem mem_contents {size : Nat} {cells : Nat → α} {value : α} :
    value ∈ contents size cells ↔
      ∃ i, (1 ≤ i ∧ i ≤ size) ∧ cells i = value := by
  simp [contents]

theorem contents_succ (size : Nat) (cells : Nat → α) :
    contents (size + 1) cells = cells (size + 1) ::ₘ contents size cells := by
  have split : Finset.Icc 1 (size + 1) =
      Finset.cons (size + 1) (Finset.Icc 1 size) (by simp) := by
    ext i
    simp only [Finset.mem_Icc, Finset.mem_cons]
    omega
  rw [contents, contents, split, Finset.cons_val, Multiset.map_cons]

theorem contents_congr {size : Nat} {cells other : Nat → α}
    (same : ∀ i, 1 ≤ i → i ≤ size → cells i = other i) :
    contents size cells = contents size other := by
  refine Multiset.map_congr rfl ?_
  intro i member
  have range : 1 ≤ i ∧ i ≤ size := by simpa using member
  exact same i range.1 range.2

/-- Writing a cell exchanges its old value for the new one. -/
theorem contents_update {size : Nat} (cells : Nat → α) {hole : Nat}
    (inside : 1 ≤ hole ∧ hole ≤ size) (value : α) :
    cells hole ::ₘ contents size (Function.update cells hole value) =
      value ::ₘ contents size cells := by
  have erase : ∀ table : Nat → α, contents size table =
      table hole ::ₘ ((Finset.Icc 1 size).erase hole).val.map table := by
    intro table
    have whole := Finset.insert_erase (Finset.mem_Icc.mpr inside)
    rw [contents, ← whole, Finset.insert_val_of_notMem
      (Finset.notMem_erase _ _), Multiset.map_cons, whole]
  have outside : ((Finset.Icc 1 size).erase hole).val.map
      (Function.update cells hole value) =
      ((Finset.Icc 1 size).erase hole).val.map cells := by
    refine Multiset.map_congr rfl ?_
    intro i member
    have other : i ≠ hole := (Finset.mem_erase.mp (Finset.mem_val.mp member)).1
    exact Function.update_of_ne other _ _
  rw [erase cells, erase (Function.update cells hole value), outside,
    Function.update_self, Multiset.cons_swap]

/-- Moving the hole from one cell to another keeps the contents of the table
with the carried value in the hole. -/
theorem contents_move {size : Nat} (cells : Nat → α) {hole next : Nat}
    (inside : 1 ≤ hole ∧ hole ≤ size) (nextInside : 1 ≤ next ∧ next ≤ size)
    (distinct : next ≠ hole) (value : α) :
    contents size (Function.update
        (Function.update cells hole (cells next)) next value) =
      contents size (Function.update cells hole value) := by
  have first := contents_update cells inside value
  have second := contents_update cells inside (cells next)
  have third := contents_update (Function.update cells hole (cells next))
    nextInside value
  rw [Function.update_of_ne distinct] at third
  have both : cells next ::ₘ cells hole ::ₘ contents size (Function.update
        (Function.update cells hole (cells next)) next value) =
      cells next ::ₘ cells hole ::ₘ
        contents size (Function.update cells hole value) := by
    rw [first, Multiset.cons_swap, third, Multiset.cons_swap _ value, second,
      Multiset.cons_swap]
  exact (Multiset.cons_inj_right _).mp ((Multiset.cons_inj_right _).mp both)

section Order

variable [LinearOrder α]

/-- Every cell below the root holds at least the value of its parent. -/
def Ordered (size : Nat) (cells : Nat → α) : Prop :=
  ∀ i, 2 ≤ i → i ≤ size → cells (i / 2) ≤ cells i

/-- The heap order with one exception: the value in the hole may be smaller
than its parent. -/
structure OrderedAbove (size hole : Nat) (cells : Nat → α) : Prop where
  others : ∀ i, 2 ≤ i → i ≤ size → i ≠ hole → cells (i / 2) ≤ cells i
  skip : ∀ i, 2 ≤ hole → i ≤ size → i / 2 = hole →
    cells (hole / 2) ≤ cells i

/-- The heap order with one exception: the value in the hole may be larger
than its children. -/
structure OrderedBelow (size hole : Nat) (cells : Nat → α) : Prop where
  others : ∀ i, 2 ≤ i → i ≤ size → i / 2 ≠ hole → cells (i / 2) ≤ cells i
  skip : ∀ i, 2 ≤ hole → i ≤ size → i / 2 = hole →
    cells (hole / 2) ≤ cells i

/-- The root of an ordered table is its least value. -/
theorem Ordered.root_le {size : Nat} {cells : Nat → α}
    (ordered : Ordered size cells) (i : Nat) (positive : 1 ≤ i)
    (bound : i ≤ size) : cells 1 ≤ cells i := by
  induction i using Nat.strong_induction_on with
  | _ i induction =>
      by_cases root : i = 1
      · rw [root]
      · have parent := induction (i / 2) (by omega) (by omega) (by omega)
        exact parent.trans (ordered i (by omega) bound)

theorem Ordered.le_of_mem {size : Nat} {cells : Nat → α}
    (ordered : Ordered size cells) {value : α}
    (member : value ∈ contents size cells) : cells 1 ≤ value := by
  obtain ⟨i, inside, rfl⟩ := mem_contents.mp member
  exact ordered.root_le i inside.1 inside.2

/-- Appending a cell leaves an exception at the new cell only. -/
theorem Ordered.push {size : Nat} {cells : Nat → α}
    (ordered : Ordered size cells) (value : α) :
    OrderedAbove (size + 1) (size + 1)
      (Function.update cells (size + 1) value) := by
  constructor
  · intro i large bound other
    rw [Function.update_of_ne other, Function.update_of_ne (by omega)]
    exact ordered i large (by omega)
  · intro i _ bound child
    omega

/-- Replacing the root leaves an exception at the root only. -/
theorem Ordered.replaceRoot {size : Nat} {cells : Nat → α}
    (ordered : Ordered size cells) (value : α) :
    OrderedBelow size 1 (Function.update cells 1 value) := by
  constructor
  · intro i large bound other
    rw [Function.update_of_ne other, Function.update_of_ne (by omega)]
    exact ordered i large bound
  · intro i impossible
    omega

theorem Ordered.shrink {size : Nat} {cells : Nat → α}
    (ordered : Ordered (size + 1) cells) : Ordered size cells :=
  fun i large bound => ordered i large (by omega)

theorem Ordered.congr {size : Nat} {cells other : Nat → α}
    (ordered : Ordered size cells)
    (same : ∀ i, 1 ≤ i → i ≤ size → other i = cells i) :
    Ordered size other := by
  intro i large bound
  rw [same i (by omega) bound, same (i / 2) (by omega) (by omega)]
  exact ordered i large bound

theorem OrderedAbove.ordered {size hole : Nat} {cells : Nat → α}
    (above : OrderedAbove size hole cells)
    (settled : 2 ≤ hole → cells (hole / 2) ≤ cells hole) :
    Ordered size cells := by
  intro i large bound
  by_cases here : i = hole
  · subst here
    exact settled large
  · exact above.others i large bound here

theorem OrderedBelow.ordered {size hole : Nat} {cells : Nat → α}
    (below : OrderedBelow size hole cells)
    (settled : ∀ i, 2 ≤ i → i ≤ size → i / 2 = hole →
      cells hole ≤ cells i) :
    Ordered size cells := by
  intro i large bound
  by_cases child : i / 2 = hole
  · rw [child]
    exact settled i large bound child
  · exact below.others i large bound child

/-- The hole moves up past a larger parent. -/
theorem OrderedAbove.moveUp {size hole : Nat} {cells : Nat → α} {value : α}
    (above : OrderedAbove size hole (Function.update cells hole value))
    (large : 2 ≤ hole) (inside : hole ≤ size)
    (smaller : value < cells (hole / 2)) :
    OrderedAbove size (hole / 2) (Function.update
      (Function.update cells hole (cells (hole / 2))) (hole / 2) value) := by
  have others : ∀ i, 2 ≤ i → i ≤ size → i ≠ hole → i / 2 ≠ hole →
      cells (i / 2) ≤ cells i := by
    intro i least bound away notChild
    have before := above.others i least bound away
    rwa [Function.update_of_ne notChild, Function.update_of_ne away] at before
  have children : ∀ i, i ≤ size → i / 2 = hole →
      cells (hole / 2) ≤ cells i := by
    intro i bound child
    have before := above.skip i large bound child
    rwa [Function.update_of_ne (by omega), Function.update_of_ne (by omega)]
      at before
  constructor
  · intro i least bound away
    rw [Function.update_of_ne away]
    by_cases atHole : i = hole
    · subst atHole
      rw [Function.update_self, Function.update_self]
      exact smaller.le
    · rw [Function.update_of_ne atHole]
      by_cases child : i / 2 = hole
      · rw [child, Function.update_of_ne (by omega), Function.update_self]
        exact children i bound child
      · by_cases sibling : i / 2 = hole / 2
        · rw [sibling, Function.update_self]
          exact (smaller.le).trans
            (sibling ▸ others i least bound atHole child)
        · rw [Function.update_of_ne sibling, Function.update_of_ne child]
          exact others i least bound atHole child
  · intro i parentLarge bound child
    have parent := others (hole / 2) parentLarge (by omega) (by omega)
      (by omega)
    rw [Function.update_of_ne (by omega), Function.update_of_ne (by omega)]
    by_cases atHole : i = hole
    · subst atHole
      rw [Function.update_of_ne (by omega), Function.update_self]
      exact parent
    · rw [Function.update_of_ne (by omega), Function.update_of_ne atHole]
      have step := others i (by omega) bound atHole (by omega)
      rw [child] at step
      exact parent.trans step

/-- The hole moves down to a least child that is smaller than the value. -/
theorem OrderedBelow.moveDown {size hole child : Nat} {cells : Nat → α}
    {value : α}
    (below : OrderedBelow size hole (Function.update cells hole value))
    (positive : 1 ≤ hole) (inside : child ≤ size) (isChild : child / 2 = hole)
    (least : ∀ i, i ≤ size → i / 2 = hole → cells child ≤ cells i)
    (smaller : cells child < value) :
    OrderedBelow size child (Function.update
      (Function.update cells hole (cells child)) child value) := by
  have others : ∀ i, 2 ≤ i → i ≤ size → i ≠ hole → i / 2 ≠ hole →
      cells (i / 2) ≤ cells i := by
    intro i least bound away notChild
    have before := below.others i least bound notChild
    rwa [Function.update_of_ne notChild, Function.update_of_ne away] at before
  constructor
  · intro i large bound notBelow
    rw [Function.update_of_ne notBelow]
    by_cases sibling : i / 2 = hole
    · rw [sibling, Function.update_self]
      by_cases atChild : i = child
      · subst atChild
        rw [Function.update_self]
        exact smaller.le
      · rw [Function.update_of_ne atChild, Function.update_of_ne (by omega)]
        exact least i bound sibling
    · rw [Function.update_of_ne sibling, Function.update_of_ne (by omega)]
      by_cases atHole : i = hole
      · subst atHole
        rw [Function.update_self]
        have before := below.skip child large inside isChild
        rwa [Function.update_of_ne (by omega),
          Function.update_of_ne (by omega)] at before
      · rw [Function.update_of_ne atHole]
        exact others i large bound atHole sibling
  · intro i _ bound grandchild
    rw [isChild, Function.update_of_ne (by omega), Function.update_self,
      Function.update_of_ne (by omega), Function.update_of_ne (by omega)]
    have step := others i (by omega) bound (by omega) (by omega)
    rwa [grandchild] at step

end Order

end Plasma.Lib.Heap
