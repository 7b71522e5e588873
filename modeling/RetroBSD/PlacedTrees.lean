import RetroBSD.PointerTrees

/-!
# Where the cells of a tree are

A cell of height `h` in a tree of pointers stands for `fan ^ h` positions in a
row. With the first of them and the height, the cells of a tree say which cell
is found at which position, so that a change of the tree can be stated as a
change of this multiset alone.
-/

namespace PointerTrees

open Multiset

/-- A cell, and the positions that it stands for. -/
structure Node where
  cell : ℕ
  height : ℕ
  first : ℕ
  deriving DecidableEq

/-- The number of positions below a node. -/
def Node.span (fan : ℕ) (n : Node) : ℕ := fan ^ n.height

variable {β : Type*} (fan : ℕ) (ptr : β → ℕ → ℕ)

/-- The nodes of the tree of height `l` under `b`, when its positions begin with `first`. -/
def nodes (disk : ℕ → β) : ℕ → ℕ → ℕ → Multiset Node
  | 0, b, first => if b = 0 then 0 else {⟨b, 0, first⟩}
  | l + 1, b, first =>
    if b = 0 then 0 else ⟨b, l + 1, first⟩ ::ₘ
      ∑ i ∈ Finset.range fan, nodes disk l (ptr (disk b) i) (first + i * fan ^ l)

variable {fan ptr} {disk disk' : ℕ → β} {l b first : ℕ}

@[simp] lemma nodes_zero : nodes fan ptr disk l 0 first = 0 := by
  cases l <;> simp [nodes]

lemma nodes_base (named : b ≠ 0) : nodes fan ptr disk 0 b first = {⟨b, 0, first⟩} := by
  simp [nodes, named]

lemma nodes_succ (named : b ≠ 0) : nodes fan ptr disk (l + 1) b first = ⟨b, l + 1, first⟩ ::ₘ
    ∑ i ∈ Finset.range fan, nodes fan ptr disk l (ptr (disk b) i) (first + i * fan ^ l) := by
  simp [nodes, named]

lemma nodes_bare (named : b ≠ 0) (bare : ∀ i < fan, ptr (disk b) i = 0) :
    nodes fan ptr disk l b first = {⟨b, l, first⟩} := by
  cases l with
  | zero => exact nodes_base named
  | succ l =>
    have nothing : ∑ i ∈ Finset.range fan,
        nodes fan ptr disk l (ptr (disk b) i) (first + i * fan ^ l) = 0 := by
      apply Finset.sum_eq_zero
      intro i hi
      simp [bare i (Finset.mem_range.mp hi)]
    rw [nodes_succ named, nothing]
    rfl

/-- Without the positions the nodes are the cells. -/
lemma map_cell (first : ℕ) : (nodes fan ptr disk l b first).map Node.cell = blocks fan ptr disk l b := by
  induction l generalizing b first with
  | zero =>
    by_cases named : b = 0
    · simp [named]
    · simp [nodes_base named, blocks_base named]
  | succ l ih =>
    by_cases named : b = 0
    · simp [named]
    · rw [nodes_succ named, blocks_succ named, map_cons,
        ← coe_mapAddMonoidHom, map_sum]
      congr 1
      apply Finset.sum_congr rfl
      intro i _
      exact ih _

lemma cell_mem {n : Node} (member : n ∈ nodes fan ptr disk l b first) :
    n.cell ∈ blocks fan ptr disk l b := by
  rw [← map_cell]
  exact mem_map_of_mem _ member

lemma blocks_bare (named : b ≠ 0) (bare : ∀ i < fan, ptr (disk b) i = 0) :
    blocks fan ptr disk l b = {b} := by
  rw [← map_cell 0, nodes_bare named bare, map_singleton]

/-- The nodes depend on the tables alone, not on what is stored at the positions. -/
lemma nodes_congr_tables (same : ∀ n ∈ nodes fan ptr disk l b first, n.height ≠ 0 →
    disk' n.cell = disk n.cell) : nodes fan ptr disk' l b first = nodes fan ptr disk l b first := by
  induction l generalizing b first with
  | zero => simp [nodes]
  | succ l ih =>
    by_cases named : b = 0
    · simp [named]
    · rw [nodes_succ named] at same ⊢
      rw [nodes_succ named, same _ (mem_cons_self _ _) (Nat.succ_ne_zero l)]
      congr 1
      apply Finset.sum_congr rfl
      intro i hi
      apply ih
      intro n member
      exact same n (mem_cons_of_mem (mem_sum.mpr ⟨i, hi, member⟩))

lemma nodes_congr (same : ∀ c ∈ blocks fan ptr disk l b, disk' c = disk c) :
    nodes fan ptr disk' l b first = nodes fan ptr disk l b first :=
  nodes_congr_tables fun _ member _ => same _ (cell_mem member)

lemma blocks_congr (same : ∀ c ∈ blocks fan ptr disk l b, disk' c = disk c) :
    blocks fan ptr disk' l b = blocks fan ptr disk l b := by
  rw [← map_cell 0, nodes_congr same, map_cell]

lemma child_within {i : ℕ} (inside : i < fan) :
    first + i * fan ^ l + fan ^ l ≤ first + fan ^ (l + 1) := by
  have room : (i + 1) * fan ^ l ≤ fan * fan ^ l := Nat.mul_le_mul_right _ inside
  rw [pow_succ, mul_comm (fan ^ l)]
  rw [Nat.succ_mul] at room
  omega

/-- The positions of a node lie within those of the tree. -/
lemma node_within {n : Node} (member : n ∈ nodes fan ptr disk l b first) :
    first ≤ n.first ∧ n.first + n.span fan ≤ first + fan ^ l := by
  induction l generalizing b first with
  | zero =>
    by_cases named : b = 0
    · simp [named] at member
    · rw [nodes_base named, mem_singleton] at member
      subst member
      exact ⟨le_rfl, le_rfl⟩
  | succ l ih =>
    by_cases named : b = 0
    · simp [named] at member
    · rw [nodes_succ named, mem_cons, mem_sum] at member
      rcases member with rfl | ⟨i, hi, below⟩
      · exact ⟨le_rfl, le_rfl⟩
      · obtain ⟨low, high⟩ := ih below
        have within : first + i * fan ^ l + fan ^ l ≤ first + fan ^ (l + 1) :=
          child_within (Finset.mem_range.mp hi)
        exact ⟨by omega, by omega⟩

/-- The cell at a position is the node of height 0 there. -/
lemma mem_nodes_iff {k x : ℕ} (named : x ≠ 0) (inside : k < fan ^ l) :
    ⟨x, 0, first + k⟩ ∈ nodes fan ptr disk l b first ↔ find fan ptr disk l b k = x := by
  induction l generalizing b first k with
  | zero =>
    obtain rfl : k = 0 := by simpa using inside
    by_cases root : b = 0
    · simp [root, Ne.symm named]
    · simp [nodes_base root, find, eq_comm]
  | succ l ih =>
    by_cases root : b = 0
    · simp [root, Ne.symm named]
    · have wide : 0 < fan := Nat.pos_of_ne_zero (by rintro rfl; simp at inside)
      have positive : 0 < fan ^ l := Nat.pow_pos wide
      have index : k / fan ^ l < fan := by
        rw [Nat.div_lt_iff_lt_mul positive, ← pow_succ']
        exact inside
      have below : k % fan ^ l < fan ^ l := Nat.mod_lt _ positive
      have parts : first + k = first + k / fan ^ l * fan ^ l + k % fan ^ l := by
        have := Nat.div_add_mod' k (fan ^ l)
        omega
      rw [find_succ root, Nat.mod_eq_of_lt index, ← find_mod, ← ih below, nodes_succ root,
        mem_cons, mem_sum]
      constructor
      · rintro (root | ⟨i, -, member⟩)
        · cases root
        · -- the positions below different children do not meet
          obtain ⟨low, high⟩ := node_within member
          have same : i = k / fan ^ l := by
            simp only [Node.span, pow_zero] at low high
            symm
            rw [Nat.div_eq_iff positive]
            exact ⟨by omega, by omega⟩
          rw [same, parts] at member
          exact member
      · intro member
        refine .inr ⟨k / fan ^ l, Finset.mem_range.mpr index, ?_⟩
        rw [parts]
        exact member

/-- When only child `i` changes, the tree gains and loses the nodes that the child does. -/
lemma nodes_exchange {i : ℕ} (named : b ≠ 0) (inside : i < fan)
    (others : ∀ j < fan, j ≠ i → ∀ first, nodes fan ptr disk' l (ptr (disk' b) j) first =
      nodes fan ptr disk l (ptr (disk b) j) first) :
    nodes fan ptr disk' (l + 1) b first +
        nodes fan ptr disk l (ptr (disk b) i) (first + i * fan ^ l) =
      nodes fan ptr disk (l + 1) b first +
        nodes fan ptr disk' l (ptr (disk' b) i) (first + i * fan ^ l) := by
  have exchange := References.sum_exchange (Finset.mem_range.mpr inside)
    (f := fun j => nodes fan ptr disk l (ptr (disk b) j) _)
    (g := fun j => nodes fan ptr disk' l (ptr (disk' b) j) (first + j * fan ^ l))
    fun j hj different => others j (Finset.mem_range.mp hj) different _
  rw [nodes_succ named, nodes_succ named, cons_add, exchange, cons_add]

/-! ## Trees cut at a position -/

lemma filter_sum {ι α : Type*} (p : α → Prop) [DecidablePred p] (s : Finset ι)
    (f : ι → Multiset α) : (∑ i ∈ s, f i).filter p = ∑ i ∈ s, (f i).filter p := by
  induction s using Finset.cons_induction with
  | empty => simp
  | cons i s fresh ih => rw [Finset.sum_cons, Finset.sum_cons, filter_add, ih]

/-- The nodes whose positions all lie from `cut` on. -/
def Behind (fan cut : ℕ) (n : Node) : Prop := ∀ k < n.span fan, cut ≤ n.first + k

instance (fan cut : ℕ) : DecidablePred (Behind fan cut) := fun n =>
  inferInstanceAs (Decidable (∀ k < n.span fan, cut ≤ n.first + k))

variable {cut : ℕ}

lemma behind_iff (wide : 0 < fan) (n : Node) : Behind fan cut n ↔ cut ≤ n.first := by
  constructor
  · intro behind
    exact behind 0 (Nat.pow_pos wide)
  · intro far k _
    omega

/-- What is left of the nodes when the positions from `cut` on are given up. -/
def front (fan cut : ℕ) (ns : Multiset Node) : Multiset Node :=
  ns.filter (fun n => ¬ Behind fan cut n)

lemma front_before (wide : 0 < fan) (before : first + fan ^ l ≤ cut) :
    front fan cut (nodes fan ptr disk l b first) = nodes fan ptr disk l b first := by
  apply filter_eq_self.mpr
  intro n member
  obtain ⟨_, high⟩ := node_within member
  rw [behind_iff wide]
  have : 0 < n.span fan := Nat.pow_pos wide
  omega

lemma front_behind (wide : 0 < fan) (behind : cut ≤ first) :
    front fan cut (nodes fan ptr disk l b first) = 0 := by
  apply filter_eq_nil.mpr
  intro n member kept
  exact kept ((behind_iff wide n).mpr (behind.trans (node_within member).1))

/-- A tree is cut when each child is. -/
lemma nodes_cut (wide : 0 < fan) (named : b ≠ 0) (kept : first < cut)
    (children : ∀ i < fan, nodes fan ptr disk' l (ptr (disk' b) i) (first + i * fan ^ l) =
      front fan cut (nodes fan ptr disk l (ptr (disk b) i) (first + i * fan ^ l))) :
    nodes fan ptr disk' (l + 1) b first = front fan cut (nodes fan ptr disk (l + 1) b first) := by
  have root : ¬ Behind fan cut ⟨b, l + 1, first⟩ := by
    rw [behind_iff wide]
    exact not_le.mpr kept
  rw [front, nodes_succ named, nodes_succ named,
    filter_cons_of_pos (p := fun n => ¬ Behind fan cut n) _ root, filter_sum]
  congr 1
  apply Finset.sum_congr rfl
  intro i hi
  exact children i (Finset.mem_range.mp hi)

end PointerTrees
