import Mathlib

/-!
# Hash trees

Binary trees over leaf values.  A combining function gives every tree a value;
the path of a leaf lists its siblings up to the root.  A verifier that takes
the sides from the bits of an index rebuilds a tree from a path, and the
question is when this is the tree the path was taken from.  Over a large
enough type some combining function tells any two trees apart.
-/

namespace Plasma.Lib

inductive HashTree (α : Type*) where
  | leaf (value : α)
  | node (left right : HashTree α)
deriving DecidableEq

namespace HashTree

variable {α : Type*}

def value (combine : α → α → α) : HashTree α → α
  | leaf value => value
  | node left right => combine (left.value combine) (right.value combine)

def leaves : HashTree α → List α
  | leaf value => [value]
  | node left right => left.leaves ++ right.leaves

/-- A subtree and its sibling under one node. -/
def join (onRight : Bool) (subtree sibling : HashTree α) : HashTree α :=
  if onRight then node sibling subtree else node subtree sibling

/-- One entry for each node above a leaf: the side on which the leaf lies and
the subtree of the other side. -/
abbrev Path (α : Type*) := List (Bool × HashTree α)

/-- The leaves from left to right, each with its path to the root. -/
def paths : HashTree α → List (α × Path α)
  | leaf value => [(value, [])]
  | node left right =>
      (left.paths.map fun entry => (entry.1, entry.2 ++ [(false, right)])) ++
        right.paths.map fun entry => (entry.1, entry.2 ++ [(true, left)])

def rebuild : Path α → HashTree α → HashTree α
  | [], subtree => subtree
  | (onRight, sibling) :: path, subtree =>
      rebuild path (join onRight subtree sibling)

/-- As `rebuild`, with the sides taken from the bits of an index. -/
def rebuildAt : Path α → Nat → HashTree α → HashTree α
  | [], _, subtree => subtree
  | (_, sibling) :: path, index, subtree =>
      rebuildAt path (index / 2) (join (index % 2 == 1) subtree sibling)

/-- At every node the bit of the index is the side of the leaf, or both sides
are the same. -/
def Aligned : Path α → Nat → HashTree α → Prop
  | [], _, _ => True
  | (onRight, sibling) :: path, index, subtree =>
      ((index % 2 == 1) = onRight ∨ subtree = sibling) ∧
        Aligned path (index / 2) (join onRight subtree sibling)

/-- The value a verifier computes from the values of the siblings. -/
def climb (combine : α → α → α) : List α → Nat → α → α
  | [], _, computed => computed
  | sibling :: siblings, index, computed =>
      climb combine siblings (index / 2)
        (if index % 2 = 0 then combine computed sibling
          else combine sibling computed)

/-- The tree that splits a list in halves down to single values; `rounds`
bounds the depth. -/
def halves : Nat → List α → Option (HashTree α)
  | _, [] => none
  | _, [value] => some (leaf value)
  | 0, _ => none
  | rounds + 1, values => do
      let left ← halves rounds (values.take (values.length / 2))
      let right ← halves rounds (values.drop (values.length / 2))
      return node left right

instance decidableAligned [DecidableEq α] :
    (path : Path α) → (index : Nat) → (subtree : HashTree α) →
      Decidable (Aligned path index subtree)
  | [], _, _ => .isTrue trivial
  | (onRight, sibling) :: path, index, subtree =>
      have := decidableAligned path (index / 2)
        (join onRight subtree sibling)
      inferInstanceAs (Decidable (_ ∧ _))

theorem rebuild_append (first second : Path α) (subtree : HashTree α) :
    rebuild (first ++ second) subtree =
      rebuild second (rebuild first subtree) := by
  induction first generalizing subtree with
  | nil => rfl
  | cons entry first induction => exact induction _

/-- The path of a leaf leads back to the tree. -/
theorem rebuild_of_mem_paths {tree : HashTree α} {entry : α × Path α}
    (member : entry ∈ tree.paths) :
    rebuild entry.2 (leaf entry.1) = tree := by
  induction tree generalizing entry with
  | leaf value =>
      cases List.mem_singleton.mp member
      rfl
  | node left right inLeft inRight =>
      rcases List.mem_append.mp member with onLeft | onRight
      · obtain ⟨inner, inside, rfl⟩ := List.mem_map.mp onLeft
        rw [rebuild_append, inLeft inside]
        rfl
      · obtain ⟨inner, inside, rfl⟩ := List.mem_map.mp onRight
        rw [rebuild_append, inRight inside]
        rfl

theorem paths_map_fst (tree : HashTree α) :
    tree.paths.map Prod.fst = tree.leaves := by
  induction tree with
  | leaf value => rfl
  | node left right inLeft inRight =>
      simp only [paths, leaves, List.map_append, List.map_map, ← inLeft,
        ← inRight]
      rfl

theorem length_paths (tree : HashTree α) :
    tree.paths.length = tree.leaves.length := by
  rw [← paths_map_fst, List.length_map]

theorem halves_succ {values : List α} (several : 2 ≤ values.length)
    (rounds : Nat) :
    halves (rounds + 1) values =
      (halves rounds (values.take (values.length / 2))).bind fun left =>
        (halves rounds (values.drop (values.length / 2))).map (node left) := by
  rcases values with _ | ⟨first, _ | ⟨second, rest⟩⟩
  · cases several
  · exact (Nat.not_succ_le_self 1 several).elim
  · simp only [halves, Option.bind_eq_bind, Option.pure_def,
      Option.map_eq_bind]
    rfl

/-- The number of values is rounds enough. -/
theorem halves_eq_some {rounds : Nat} {values : List α}
    (nonempty : 1 ≤ values.length) (enough : values.length ≤ rounds) :
    ∃ tree, halves rounds values = some tree := by
  induction rounds generalizing values with
  | zero => omega
  | succ rounds induction =>
      rcases Nat.eq_or_lt_of_le nonempty with single | several
      · obtain ⟨value, rfl⟩ := List.length_eq_one_iff.mp single.symm
        exact ⟨leaf value, rfl⟩
      · obtain ⟨left, foundLeft⟩ := @induction
          (values.take (values.length / 2)) (by simp; omega) (by simp; omega)
        obtain ⟨right, foundRight⟩ := @induction
          (values.drop (values.length / 2)) (by simp; omega) (by simp; omega)
        refine ⟨node left right, ?_⟩
        rw [halves_succ several, foundLeft, foundRight]
        rfl

/-- The leaves of the tree of halves. -/
theorem leaves_halves {rounds : Nat} {values : List α} {tree : HashTree α}
    (built : halves rounds values = some tree) : tree.leaves = values := by
  induction rounds generalizing values tree with
  | zero =>
      rcases values with _ | ⟨first, _ | ⟨second, rest⟩⟩
      · cases built
      · cases built
        rfl
      · cases built
  | succ rounds induction =>
      rcases Nat.lt_or_ge values.length 2 with few | several
      · rcases values with _ | ⟨first, _ | ⟨second, rest⟩⟩
        · cases built
        · cases built
          rfl
        · simp at few
      · rw [halves_succ several, Option.bind_eq_some_iff] at built
        obtain ⟨left, foundLeft, built⟩ := built
        obtain ⟨right, foundRight, rfl⟩ := Option.map_eq_some_iff.mp built
        rw [leaves, induction foundLeft, induction foundRight,
          List.take_append_drop]

private theorem join_eq_join_iff {bit onRight : Bool}
    {subtree other sibling : HashTree α} :
    join bit subtree sibling = join onRight other sibling ↔
      subtree = other ∧ (bit = onRight ∨ other = sibling) := by
  cases bit <;> cases onRight <;> simp only [join, Bool.false_eq_true,
    if_true, if_false, node.injEq, true_or, and_true, true_and,
    reduceCtorEq, false_or]
  · constructor
    · rintro ⟨rfl, rfl⟩
      exact ⟨rfl, rfl⟩
    · rintro ⟨rfl, rfl⟩
      exact ⟨rfl, rfl⟩
  · constructor
    · rintro ⟨rfl, rfl⟩
      exact ⟨rfl, rfl⟩
    · rintro ⟨rfl, rfl⟩
      exact ⟨rfl, rfl⟩

theorem rebuildAt_eq_rebuild_iff {path : Path α} {index : Nat}
    {subtree other : HashTree α} :
    rebuildAt path index subtree = rebuild path other ↔
      subtree = other ∧ Aligned path index other := by
  induction path generalizing index subtree other with
  | nil => simp [rebuildAt, rebuild, Aligned]
  | cons entry path induction =>
      rw [rebuildAt, rebuild, induction, join_eq_join_iff, Aligned, and_assoc]

theorem climb_eq_value (combine : α → α → α) (path : Path α) (index : Nat)
    (subtree : HashTree α) :
    climb combine (path.map fun entry => entry.2.value combine) index
        (subtree.value combine) =
      (rebuildAt path index subtree).value combine := by
  induction path generalizing index subtree with
  | nil => rfl
  | cons entry path induction =>
      rw [List.map_cons, climb, rebuildAt, ← induction]
      rcases Nat.mod_two_eq_zero_or_one index with even | odd
      · simp [even, join, value]
      · simp [odd, join, value]

theorem aligned_append {first second : Path α} {index : Nat}
    {subtree : HashTree α} :
    Aligned (first ++ second) index subtree ↔
      Aligned first index subtree ∧
        Aligned second (index / 2 ^ first.length) (rebuild first subtree) := by
  induction first generalizing index subtree with
  | nil => simp [Aligned, rebuild]
  | cons entry first induction =>
      rw [List.cons_append, Aligned, Aligned, induction, rebuild, and_assoc,
        List.length_cons, Nat.pow_succ', Nat.div_div_eq_div_mul]

/-- Only the low bits of the index matter. -/
theorem aligned_congr {path : Path α} {index other : Nat}
    (same : index % 2 ^ path.length = other % 2 ^ path.length)
    (subtree : HashTree α) :
    Aligned path index subtree ↔ Aligned path other subtree := by
  induction path generalizing index other subtree with
  | nil => rfl
  | cons entry path induction =>
      rw [List.length_cons, Nat.pow_succ'] at same
      have low : index % 2 = other % 2 := by
        rw [← Nat.mod_mul_right_mod index 2 (2 ^ path.length), same,
          Nat.mod_mul_right_mod]
      have high : index / 2 % 2 ^ path.length =
          other / 2 % 2 ^ path.length := by
        rw [← Nat.mod_mul_right_div_self, ← Nat.mod_mul_right_div_self, same]
      rw [Aligned, Aligned, low, induction high]

/-- In a perfect tree the sides of a leaf are the bits of its index. -/
theorem aligned_halves {depth rounds : Nat} {values : List α}
    {tree : HashTree α} {i : Nat} {entry : α × Path α}
    (perfect : values.length = 2 ^ depth)
    (built : halves rounds values = some tree)
    (found : tree.paths[i]? = some entry) :
    entry.2.length = depth ∧ Aligned entry.2 i (leaf entry.1) := by
  induction depth generalizing rounds values tree i entry with
  | zero =>
      obtain ⟨value, rfl⟩ := List.length_eq_one_iff.mp perfect
      have single : tree = leaf value := by
        cases rounds <;> exact (Option.some.inj built).symm
      subst single
      cases i with
      | zero =>
          cases found
          exact ⟨rfl, trivial⟩
      | succ i => cases found
  | succ depth induction =>
      have half : values.length / 2 = 2 ^ depth := by
        rw [perfect, Nat.pow_succ, Nat.mul_div_cancel _ Nat.two_pos]
      have several : 2 ≤ values.length := by
        rw [perfect, Nat.pow_succ']
        exact Nat.le_mul_of_pos_right 2 (Nat.two_pow_pos depth)
      cases rounds with
      | zero =>
          rcases values with _ | ⟨first, _ | ⟨second, rest⟩⟩
          · cases built
          · exact (Nat.not_succ_le_self 1 several).elim
          · cases built
      | succ rounds =>
          rw [halves_succ several, Option.bind_eq_some_iff] at built
          obtain ⟨left, foundLeft, built⟩ := built
          obtain ⟨right, foundRight, rfl⟩ := Option.map_eq_some_iff.mp built
          have sizes : (values.take (values.length / 2)).length = 2 ^ depth ∧
              (values.drop (values.length / 2)).length = 2 ^ depth := by
            rw [List.length_take, List.length_drop, half, perfect, Nat.pow_succ]
            omega
          rw [paths, List.getElem?_append, List.length_map, length_paths,
            leaves_halves foundLeft, sizes.1] at found
          split at found
          · next below =>
              rw [List.getElem?_map, Option.map_eq_some_iff] at found
              obtain ⟨inner, found, rfl⟩ := found
              obtain ⟨size, aligned⟩ := induction sizes.1 foundLeft found
              refine ⟨by simp [size], aligned_append.mpr ⟨aligned, ?_⟩⟩
              rw [size, Nat.div_eq_of_lt below]
              exact ⟨.inl rfl, trivial⟩
          · next above =>
              rw [List.getElem?_map, Option.map_eq_some_iff] at found
              obtain ⟨inner, found, rfl⟩ := found
              obtain ⟨size, aligned⟩ := induction sizes.2 foundRight found
              have inside : i - 2 ^ depth < 2 ^ depth := by
                have bound := (List.getElem?_eq_some_iff.mp found).1
                rwa [length_paths, leaves_halves foundRight, sizes.2] at bound
              have shifted : i = i - 2 ^ depth + 2 ^ depth := by omega
              refine ⟨by simp [size], aligned_append.mpr ⟨?_, ?_⟩⟩
              · refine (aligned_congr ?_ _).mp aligned
                rw [size, shifted, Nat.add_mod_right, Nat.add_sub_cancel]
              · rw [size, shifted, Nat.add_div_right _ (Nat.two_pow_pos depth),
                  Nat.div_eq_of_lt inside]
                exact ⟨.inl rfl, trivial⟩

/-- The tree of halves is as flat as possible. -/
theorem length_path_le {depth rounds : Nat} {values : List α}
    {tree : HashTree α} {entry : α × Path α}
    (few : values.length ≤ 2 ^ depth)
    (built : halves rounds values = some tree)
    (found : entry ∈ tree.paths) : entry.2.length ≤ depth := by
  induction depth generalizing rounds values tree entry with
  | zero =>
      rcases values with _ | ⟨value, _ | ⟨second, rest⟩⟩
      · cases rounds <;> cases built
      · have single : tree = leaf value := by
          cases rounds <;> exact (Option.some.inj built).symm
        subst single
        cases List.mem_singleton.mp found
        exact le_refl _
      · simp at few
  | succ depth induction =>
      rcases Nat.lt_or_ge values.length 2 with single | several
      · refine Nat.le_succ_of_le (induction ?_ built found)
        exact (Nat.le_of_lt_succ single).trans (Nat.two_pow_pos depth)
      · rw [Nat.pow_succ] at few
        cases rounds with
        | zero =>
            rcases values with _ | ⟨first, _ | ⟨second, rest⟩⟩
            · cases built
            · exact (Nat.not_succ_le_self 1 several).elim
            · cases built
        | succ rounds =>
            rw [halves_succ several, Option.bind_eq_some_iff] at built
            obtain ⟨left, foundLeft, built⟩ := built
            obtain ⟨right, foundRight, rfl⟩ := Option.map_eq_some_iff.mp built
            rcases List.mem_append.mp found with onLeft | onRight
            · obtain ⟨inner, inside, rfl⟩ := List.mem_map.mp onLeft
              have bound := induction (by rw [List.length_take]; omega)
                foundLeft inside
              simpa using bound
            · obtain ⟨inner, inside, rfl⟩ := List.mem_map.mp onRight
              have bound := induction (by rw [List.length_drop]; omega)
                foundRight inside
              simpa using bound

theorem length_leaves_rebuildAt (path : Path α) (index : Nat)
    {subtree other : HashTree α}
    (same : subtree.leaves.length = other.leaves.length) :
    (rebuildAt path index subtree).leaves.length =
      (rebuild path other).leaves.length := by
  induction path generalizing index subtree other with
  | nil => exact same
  | cons entry path induction =>
      apply induction
      rw [join, join]
      split <;> split <;> simp only [leaves, List.length_append] <;> omega

/-!
## Telling trees apart
-/

section

variable [DecidableEq α]

def subtrees : HashTree α → Finset (HashTree α)
  | leaf value => {leaf value}
  | node left right =>
      insert (node left right) (left.subtrees ∪ right.subtrees)

theorem self_mem_subtrees (tree : HashTree α) : tree ∈ tree.subtrees := by
  cases tree with
  | leaf value => exact Finset.mem_singleton_self _
  | node left right => exact Finset.mem_insert_self _ _

/-- A set of trees that contains the subtrees of its members. -/
def Closed (trees : Finset (HashTree α)) : Prop :=
  ∀ left right, node left right ∈ trees → left ∈ trees ∧ right ∈ trees

theorem closed_subtrees (tree : HashTree α) : Closed tree.subtrees := by
  induction tree with
  | leaf value =>
      intro left right member
      cases Finset.mem_singleton.mp member
  | node first second inFirst inSecond =>
      intro left right member
      simp only [subtrees, Finset.mem_insert, Finset.mem_union, node.injEq]
        at member ⊢
      rcases member with ⟨rfl, rfl⟩ | below | below
      · exact ⟨.inr (.inl (self_mem_subtrees _)),
          .inr (.inr (self_mem_subtrees _))⟩
      · obtain ⟨inner, outer⟩ := inFirst left right below
        exact ⟨.inr (.inl inner), .inr (.inl outer)⟩
      · obtain ⟨inner, outer⟩ := inSecond left right below
        exact ⟨.inr (.inr inner), .inr (.inr outer)⟩

theorem Closed.union {first second : Finset (HashTree α)}
    (left : Closed first) (right : Closed second) :
    Closed (first ∪ second) := by
  intro subtree other member
  rcases Finset.mem_union.mp member with inFirst | inSecond
  · obtain ⟨inner, outer⟩ := left _ _ inFirst
    exact ⟨Finset.mem_union_left _ inner, Finset.mem_union_left _ outer⟩
  · obtain ⟨inner, outer⟩ := right _ _ inSecond
    exact ⟨Finset.mem_union_right _ inner, Finset.mem_union_right _ outer⟩

theorem card_subtrees_lt (tree : HashTree α) :
    tree.subtrees.card < 2 * tree.leaves.length := by
  induction tree with
  | leaf value => simp [subtrees, leaves]
  | node left right inLeft inRight =>
      have inserted := Finset.card_insert_le (node left right)
        (left.subtrees ∪ right.subtrees)
      have union := Finset.card_union_le left.subtrees right.subtrees
      rw [subtrees, leaves, List.length_append]
      omega

/-- Distinct values for the trees of a set, which the leaves keep. -/
theorem exists_labels [Fintype α] {trees : Finset (HashTree α)}
    (room : trees.card ≤ Fintype.card α) :
    ∃ label : HashTree α → α, Set.InjOn label trees ∧
      ∀ value, leaf value ∈ trees → label (leaf value) = value := by
  let first : HashTree α → α := value fun left _ => left
  let onLeaves : Finset trees :=
    Finset.univ.filter fun tree => tree.1 = leaf (first tree.1)
  obtain ⟨labels, covers, size⟩ := Finset.exists_superset_card_eq
    (s := onLeaves.image fun tree => first tree.1) (n := trees.card)
    (Finset.card_image_le.trans ((Finset.card_le_univ _).trans
      (Fintype.card_coe trees).le)) room
  have injective : Set.InjOn (fun tree : trees => first tree.1) onLeaves := by
    intro tree member other member' same
    have shape := (Finset.mem_filter.mp member).2
    have shape' := (Finset.mem_filter.mp member').2
    refine Subtype.ext ?_
    rw [shape, shape']
    exact congrArg leaf same
  obtain ⟨extension, extends'⟩ := Finset.exists_equiv_extend_of_card_eq
    (by rw [Fintype.card_coe, size]) covers injective
  refine ⟨fun tree => if member : tree ∈ trees then extension ⟨tree, member⟩
    else first tree, ?_, ?_⟩
  · intro tree member other member' same
    have inside : tree ∈ trees := member
    have inside' : other ∈ trees := member'
    simp only [inside, inside', dif_pos] at same
    exact congrArg Subtype.val (extension.injective (Subtype.ext same))
  · intro value member
    simp only [member, dif_pos]
    exact extends' ⟨leaf value, member⟩
      (Finset.mem_filter.mpr ⟨Finset.mem_univ _, rfl⟩)

/-- Some combining function gives the trees of a closed set distinct
values. -/
theorem exists_injOn_value [Fintype α] {trees : Finset (HashTree α)}
    (closed : Closed trees) (room : trees.card ≤ Fintype.card α) :
    ∃ combine : α → α → α, Set.InjOn (value combine) trees := by
  classical
  obtain ⟨label, injective, keeps⟩ := exists_labels room
  let combine : α → α → α := fun first second =>
    if found : ∃ children : HashTree α × HashTree α,
        node children.1 children.2 ∈ trees ∧ label children.1 = first ∧
          label children.2 = second then
      label (node found.choose.1 found.choose.2)
    else first
  have labelled : ∀ tree ∈ trees, tree.value combine = label tree := by
    intro tree member
    induction tree with
    | leaf value => exact (keeps value member).symm
    | node left right inLeft inRight =>
        obtain ⟨memberLeft, memberRight⟩ := closed left right member
        have found : ∃ children : HashTree α × HashTree α,
            node children.1 children.2 ∈ trees ∧
              label children.1 = label left ∧
              label children.2 = label right :=
          ⟨(left, right), member, rfl, rfl⟩
        obtain ⟨inside, sameLeft, sameRight⟩ := found.choose_spec
        obtain ⟨chosenLeft, chosenRight⟩ := closed _ _ inside
        rw [value, inLeft memberLeft, inRight memberRight]
        simp only [combine, dif_pos found]
        rw [injective chosenLeft memberLeft sameLeft,
          injective chosenRight memberRight sameRight]
  refine ⟨combine, ?_⟩
  intro tree member other member' same
  rw [labelled tree member, labelled other member'] at same
  exact injective member member' same

/-- Two trees over a large enough type are equal when all combining functions
give them the same value. -/
theorem eq_of_forall_value_eq [Fintype α] {tree other : HashTree α}
    (room : 2 * (tree.leaves.length + other.leaves.length) ≤ Fintype.card α)
    (same : ∀ combine, tree.value combine = other.value combine) :
    tree = other := by
  have size := Finset.card_union_le tree.subtrees other.subtrees
  have first := tree.card_subtrees_lt
  have second := other.card_subtrees_lt
  obtain ⟨combine, injective⟩ := exists_injOn_value
    ((closed_subtrees tree).union (closed_subtrees other)) (by omega)
  exact injective (Finset.mem_union_left _ (self_mem_subtrees tree))
    (Finset.mem_union_right _ (self_mem_subtrees other)) (same combine)

end

/-!
## Two ways to the same value

The pairs that are combined on the way to a value are listed.  When two
computations reach the same value, they started from the same leaves or two
different pairs in their lists were combined to the same value.
-/

section Collisions

variable (combine : α → α → α)

/-- The pairs that are combined to compute the value of a tree. -/
def pairs : HashTree α → List (α × α)
  | leaf _ => []
  | node left right =>
      left.pairs ++ right.pairs ++
        [(left.value combine, right.value combine)]

/-- The pair of a level: the bit of the index says on which side the computed
value is. -/
def levelPair (sibling : α) (index : Nat) (computed : α) : α × α :=
  if index % 2 = 0 then (computed, sibling) else (sibling, computed)

/-- The pairs that a verifier combines. -/
def climbPairs : List α → Nat → α → List (α × α)
  | [], _, _ => []
  | sibling :: siblings, index, computed =>
      levelPair sibling index computed ::
        climbPairs siblings (index / 2)
          (combine (levelPair sibling index computed).1
            (levelPair sibling index computed).2)

def Collides (inputs : List (α × α)) : Prop :=
  ∃ first ∈ inputs, ∃ second ∈ inputs,
    first ≠ second ∧ combine first.1 first.2 = combine second.1 second.2

variable {combine}

theorem Collides.mono {few many : List (α × α)}
    (collides : Collides combine few) (subset : few ⊆ many) :
    Collides combine many := by
  obtain ⟨first, inFirst, second, inSecond, different, same⟩ := collides
  exact ⟨first, subset inFirst, second, subset inSecond, different, same⟩

theorem Collides.append_mono {few many others more : List (α × α)}
    (collides : Collides combine (few ++ others)) (first : few ⊆ many)
    (second : others ⊆ more) : Collides combine (many ++ more) := by
  refine collides.mono (List.append_subset.mpr ⟨?_, ?_⟩)
  · exact List.subset_append_of_subset_left more first
  · exact List.subset_append_of_subset_right many second

theorem left_pairs_subset (left right : HashTree α) :
    left.pairs combine ⊆ (node left right).pairs combine := by
  rw [pairs, List.append_assoc]
  exact List.subset_append_left _ _

theorem right_pairs_subset (left right : HashTree α) :
    right.pairs combine ⊆ (node left right).pairs combine := by
  refine List.subset_append_of_subset_left _ ?_
  exact List.subset_append_right _ _

/-- The two halves of a list of at least two values. -/
theorem exists_node_of_halves {rounds : Nat} {values : List α}
    {tree : HashTree α} (several : 2 ≤ values.length)
    (built : halves (rounds + 1) values = some tree) :
    ∃ left right, tree = node left right ∧
      halves rounds (values.take (values.length / 2)) = some left ∧
      halves rounds (values.drop (values.length / 2)) = some right := by
  rw [halves_succ several, Option.bind_eq_some_iff] at built
  obtain ⟨left, inLeft, built⟩ := built
  obtain ⟨right, inRight, rfl⟩ := Option.map_eq_some_iff.mp built
  exact ⟨left, right, rfl, inLeft, inRight⟩

/-- The value of a tree of halves binds the list. -/
theorem eq_or_collides {rounds : Nat} {values others : List α}
    {tree other : HashTree α} (same : values.length = others.length)
    (built : halves rounds values = some tree)
    (otherBuilt : halves rounds others = some other)
    (equal : tree.value combine = other.value combine) :
    values = others ∨
      Collides combine (tree.pairs combine ++ other.pairs combine) := by
  induction rounds generalizing values others tree other with
  | zero =>
      rcases values with _ | ⟨first, _ | ⟨second, rest⟩⟩
      · cases built
      · obtain ⟨only, rfl⟩ := List.length_eq_one_iff.mp same.symm
        cases built
        cases otherBuilt
        exact .inl (congrArg (fun value => [value]) equal)
      · cases built
  | succ rounds induction =>
      rcases Nat.lt_or_ge values.length 2 with short | several
      · rcases values with _ | ⟨first, _ | ⟨second, rest⟩⟩
        · cases built
        · obtain ⟨only, rfl⟩ := List.length_eq_one_iff.mp same.symm
          cases built
          cases otherBuilt
          exact .inl (congrArg (fun value => [value]) equal)
        · simp at short
      · obtain ⟨left, right, rfl, inLeft, inRight⟩ :=
          exists_node_of_halves several built
        obtain ⟨left', right', rfl, inLeft', inRight'⟩ :=
          exists_node_of_halves (same ▸ several) otherBuilt
        by_cases pair : (left.value combine, right.value combine) =
            (left'.value combine, right'.value combine)
        · have firstHalf := induction (by simp [same]) inLeft inLeft'
            (congrArg Prod.fst pair)
          have secondHalf := induction (by simp [same]) inRight inRight'
            (congrArg Prod.snd pair)
          rcases firstHalf with firstSame | collides
          · rcases secondHalf with secondSame | collides
            · left
              rw [← List.take_append_drop (values.length / 2) values,
                ← List.take_append_drop (others.length / 2) others,
                firstSame, secondSame]
            · right
              exact collides.append_mono (right_pairs_subset left right)
                (right_pairs_subset left' right')
          · right
            exact collides.append_mono (left_pairs_subset left right)
              (left_pairs_subset left' right')
        · right
          refine ⟨_, ?_, _, ?_, pair, equal⟩
          · simp [pairs]
          · simp [pairs]

theorem climb_append_singleton (siblings : List α) (last : α) (index : Nat)
    (computed : α) :
    climb combine (siblings ++ [last]) index computed =
      combine
        (levelPair last (index / 2 ^ siblings.length)
          (climb combine siblings index computed)).1
        (levelPair last (index / 2 ^ siblings.length)
          (climb combine siblings index computed)).2 := by
  induction siblings generalizing index computed with
  | nil =>
      rw [List.nil_append, List.length_nil, Nat.pow_zero, Nat.div_one]
      simp only [climb, levelPair]
      split <;> rfl
  | cons sibling siblings induction =>
      rw [List.cons_append, climb, induction, List.length_cons,
        Nat.div_div_eq_div_mul, Nat.pow_succ']
      rfl

theorem climbPairs_append_singleton (siblings : List α) (last : α)
    (index : Nat) (computed : α) :
    climbPairs combine (siblings ++ [last]) index computed =
      climbPairs combine siblings index computed ++
        [levelPair last (index / 2 ^ siblings.length)
          (climb combine siblings index computed)] := by
  induction siblings generalizing index computed with
  | nil =>
      rw [List.nil_append, List.length_nil, Nat.pow_zero, Nat.div_one]
      rfl
  | cons sibling siblings induction =>
      have step : (if index % 2 = 0 then combine computed sibling
          else combine sibling computed) =
            combine (levelPair sibling index computed).1
              (levelPair sibling index computed).2 := by
        rw [levelPair]
        split <;> rfl
      rw [List.cons_append, climbPairs, induction, climbPairs, climb, step,
        List.length_cons, Nat.div_div_eq_div_mul, Nat.pow_succ',
        List.cons_append]

/-- Only the bits of the levels count. -/
theorem climb_congr {siblings : List α} {index other : Nat}
    (same : index % 2 ^ siblings.length = other % 2 ^ siblings.length)
    (computed : α) :
    climb combine siblings index computed =
        climb combine siblings other computed ∧
      climbPairs combine siblings index computed =
        climbPairs combine siblings other computed := by
  induction siblings generalizing index other computed with
  | nil => exact ⟨rfl, rfl⟩
  | cons sibling siblings induction =>
      rw [List.length_cons, Nat.pow_succ'] at same
      have bit : index % 2 = other % 2 := by
        have modulo := congrArg (· % 2) same
        simpa only [Nat.mod_mul_right_mod] using modulo
      have rest : index / 2 % 2 ^ siblings.length =
          other / 2 % 2 ^ siblings.length := by
        rw [← Nat.mod_mul_right_div_self, ← Nat.mod_mul_right_div_self, same]
      have level : levelPair sibling index computed =
          levelPair sibling other computed := by
        rw [levelPair, levelPair, bit]
      obtain ⟨above, inputs⟩ := induction rest
        (combine (levelPair sibling index computed).1
          (levelPair sibling index computed).2)
      constructor
      · rw [climb, climb, bit]
        exact (induction rest _).1
      · rw [climbPairs, climbPairs, inputs, level]

/-- A verifier that reaches the value of a tree with a power of two of leaves
started from the leaf at the index. -/
theorem climb_sound {depth rounds : Nat} {values : List α}
    {tree : HashTree α} {siblings : List α} {index : Nat} {computed : α}
    (perfect : values.length = 2 ^ depth)
    (built : halves rounds values = some tree)
    (levels : siblings.length = depth) (inside : index < 2 ^ depth)
    (reaches : climb combine siblings index computed = tree.value combine) :
    values[index]? = some computed ∨
      Collides combine (tree.pairs combine ++
        climbPairs combine siblings index computed) := by
  induction depth generalizing rounds values tree siblings index with
  | zero =>
      obtain ⟨only, rfl⟩ := List.length_eq_one_iff.mp perfect
      have first : index = 0 := by omega
      rw [List.length_eq_zero_iff] at levels
      subst levels first
      have leafBuilt : tree = leaf only := by
        cases rounds <;> exact (Option.some.inj built).symm
      rw [leafBuilt] at reaches
      exact .inl (congrArg some reaches.symm)
  | succ depth induction =>
      have positive : 0 < 2 ^ depth := Nat.two_pow_pos depth
      have several : 2 ≤ values.length := by
        rw [perfect, Nat.pow_succ']
        omega
      have half : values.length / 2 = 2 ^ depth := by
        rw [perfect, Nat.pow_succ']
        omega
      obtain ⟨rounds, rfl⟩ : ∃ fewer, rounds = fewer + 1 := by
        rcases rounds with _ | rounds
        · rcases values with _ | ⟨first, _ | ⟨second, rest⟩⟩
          · cases built
          · exact (Nat.not_succ_le_self 1 several).elim
          · cases built
        · exact ⟨rounds, rfl⟩
      obtain ⟨left, right, rfl, inLeft, inRight⟩ :=
        exists_node_of_halves several built
      rw [half] at inLeft inRight
      obtain ⟨lower, last, rfl⟩ : ∃ lower last, siblings = lower ++ [last] := by
        rcases List.eq_nil_or_concat siblings with rfl | ⟨lower, last, split⟩
        · cases levels
        · exact ⟨lower, last, split.trans List.concat_eq_append⟩
      have lowerLevels : lower.length = depth := by
        simpa using levels
      rw [climb_append_singleton, lowerLevels] at reaches
      rw [climbPairs_append_singleton, lowerLevels]
      by_cases pair : levelPair last (index / 2 ^ depth)
          (climb combine lower index computed) =
            (left.value combine, right.value combine)
      · rw [Nat.pow_succ'] at inside
        rcases Nat.lt_or_ge index (2 ^ depth) with low | high
        · rw [Nat.div_eq_of_lt low, levelPair, if_pos rfl] at pair
          have taken : (values.take (2 ^ depth)).length = 2 ^ depth := by
            rw [List.length_take, ← half]
            omega
          rcases induction taken inLeft lowerLevels low
            (congrArg Prod.fst pair) with found | collides
          · left
            rw [List.getElem?_take_of_lt low] at found
            exact found
          · right
            exact collides.append_mono (left_pairs_subset left right)
              (List.subset_append_left _ _)
        · have side : index / 2 ^ depth = 1 := by
            rw [Nat.div_eq_iff positive]
            omega
          rw [side, levelPair, if_neg (by decide)] at pair
          have sameBits : index % 2 ^ lower.length =
              (index - 2 ^ depth) % 2 ^ lower.length := by
            rw [lowerLevels, Nat.mod_eq_sub_mod high]
          obtain ⟨sameClimb, sameInputs⟩ :=
            @climb_congr _ combine lower _ _ sameBits computed
          have dropped : (values.drop (2 ^ depth)).length = 2 ^ depth := by
            rw [List.length_drop, perfect, Nat.pow_succ']
            omega
          rcases induction dropped inRight lowerLevels
            (by omega : index - 2 ^ depth < 2 ^ depth)
            (sameClimb ▸ congrArg Prod.snd pair) with found | collides
          · left
            rw [List.getElem?_drop, Nat.add_sub_cancel' high] at found
            exact found
          · right
            rw [← sameInputs] at collides
            exact collides.append_mono (right_pairs_subset left right)
              (List.subset_append_left _ _)
      · right
        refine ⟨_, ?_, _, ?_, pair, reaches⟩
        · simp
        · simp [pairs]

/-- Two verifiers that reach one value along paths with the same bits started
from the same value. -/
theorem climb_binds {siblings others : List α} {index other : Nat}
    {computed started : α} (levels : siblings.length = others.length)
    (bits : index % 2 ^ siblings.length = other % 2 ^ siblings.length)
    (meet : climb combine siblings index computed =
      climb combine others other started) :
    computed = started ∨
      Collides combine (climbPairs combine siblings index computed ++
        climbPairs combine others other started) := by
  induction siblings generalizing others index other computed started with
  | nil =>
      cases others with
      | nil => exact .inl meet
      | cons sibling others => cases levels
  | cons sibling siblings induction =>
      cases others with
      | nil => cases levels
      | cons twin others =>
          have step : ∀ sibling index computed,
              (if index % 2 = 0 then combine computed sibling
                else combine sibling computed) =
                  combine (levelPair sibling index computed).1
                    (levelPair sibling index computed).2 := by
            intro sibling index computed
            rw [levelPair]
            split <;> rfl
          rw [climb, climb, step, step] at meet
          rw [List.length_cons, Nat.pow_succ'] at bits
          have bit : index % 2 = other % 2 := by
            have modulo := congrArg (· % 2) bits
            simpa only [Nat.mod_mul_right_mod] using modulo
          have rest : index / 2 % 2 ^ siblings.length =
              other / 2 % 2 ^ siblings.length := by
            rw [← Nat.mod_mul_right_div_self, ← Nat.mod_mul_right_div_self,
              bits]
          rw [climbPairs, climbPairs]
          rcases induction (Nat.succ.inj levels) rest meet with
            same | collides
          · by_cases pair : levelPair sibling index computed =
                levelPair twin other started
            · left
              rw [levelPair, levelPair, ← bit] at pair
              split at pair
              · exact congrArg Prod.fst pair
              · exact congrArg Prod.snd pair
            · right
              refine ⟨_, List.mem_cons_self, _, ?_, pair, same⟩
              exact List.mem_append_right _ List.mem_cons_self
          · right
            exact collides.append_mono (List.subset_cons_self _ _)
              (List.subset_cons_self _ _)

end Collisions

end HashTree

end Plasma.Lib
