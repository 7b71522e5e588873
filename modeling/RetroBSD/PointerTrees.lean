import RetroBSD.References

/-!
# Trees of pointers in a store

A store holds cells under nonzero numbers, and a cell can be read as a table of
`fan` numbers. A tree of height 0 is one cell; a tree of height `l + 1` is a
cell whose table names trees of height `l`, with 0 for a tree that is absent.
Nothing says that the cells of a tree differ: that is a property of the
multiset of its cells.
-/

namespace PointerTrees

open Multiset

variable {β : Type*} (fan : ℕ) (ptr : β → ℕ → ℕ) (hole : β)

/-- The cells of the tree of height `l` under `b`, each as often as it is named. -/
def blocks (disk : ℕ → β) : ℕ → ℕ → Multiset ℕ
  | 0, b => if b = 0 then 0 else {b}
  | l + 1, b =>
    if b = 0 then 0 else b ::ₘ ∑ i ∈ Finset.range fan, blocks disk l (ptr (disk b) i)

/-- The cell of height 0 at position `k`, or 0. -/
def find (disk : ℕ → β) : ℕ → ℕ → ℕ → ℕ
  | 0, b, _ => b
  | l + 1, b, k => if b = 0 then 0 else find disk l (ptr (disk b) (k / fan ^ l % fan)) k

/-- What is stored at position `k`. -/
def leaf (disk : ℕ → β) (l b k : ℕ) : β :=
  if find fan ptr disk l b k = 0 then hole else disk (find fan ptr disk l b k)

variable {fan ptr hole} {disk disk' : ℕ → β} {l b k : ℕ}

@[simp] lemma blocks_zero : blocks fan ptr disk l 0 = 0 := by
  cases l <;> simp [blocks]

@[simp] lemma find_zero : find fan ptr disk l 0 k = 0 := by
  cases l <;> simp [find]

@[simp] lemma leaf_zero : leaf fan ptr hole disk l 0 k = hole := by
  simp [leaf]

lemma blocks_base (named : b ≠ 0) : blocks fan ptr disk 0 b = {b} := by
  simp [blocks, named]

lemma blocks_succ (named : b ≠ 0) : blocks fan ptr disk (l + 1) b =
    b ::ₘ ∑ i ∈ Finset.range fan, blocks fan ptr disk l (ptr (disk b) i) := by
  simp [blocks, named]

lemma find_succ (named : b ≠ 0) : find fan ptr disk (l + 1) b k =
    find fan ptr disk l (ptr (disk b) (k / fan ^ l % fan)) k := by
  simp [find, named]

lemma root_mem (named : b ≠ 0) : b ∈ blocks fan ptr disk l b := by
  cases l <;> simp [blocks, named]

lemma child_mem {i c : ℕ} (named : b ≠ 0) (inside : i < fan)
    (member : c ∈ blocks fan ptr disk l (ptr (disk b) i)) : c ∈ blocks fan ptr disk (l + 1) b := by
  simp only [blocks_succ named, mem_cons, mem_sum, Finset.mem_range]
  exact .inr ⟨i, inside, member⟩

/-- One child apart from the others. -/
lemma blocks_split {i : ℕ} (named : b ≠ 0) (inside : i < fan) : blocks fan ptr disk (l + 1) b =
    b ::ₘ (blocks fan ptr disk l (ptr (disk b) i) +
      ∑ j ∈ (Finset.range fan).erase i, blocks fan ptr disk l (ptr (disk b) j)) := by
  have split := Finset.add_sum_erase _
    (fun j => blocks fan ptr disk l (ptr (disk b) j)) (Finset.mem_range.mpr inside)
  simp [blocks_succ named, ← split]

lemma index_mod : k % fan ^ (l + 1) / fan ^ l % fan = k / fan ^ l % fan := by
  simp [pow_succ, Nat.mod_mul_right_div_self]

lemma below_mod : k % fan ^ (l + 1) % fan ^ l = k % fan ^ l :=
  Nat.mod_mod_of_dvd k (pow_dvd_pow fan (Nat.le_succ l))

/-- Only the position inside the tree counts. -/
lemma find_mod : find fan ptr disk l b (k % fan ^ l) = find fan ptr disk l b k := by
  induction l generalizing b k with
  | zero => simp [find]
  | succ l ih =>
    by_cases named : b = 0
    · simp [named]
    · simp only [find_succ named, index_mod]
      rw [← ih, below_mod, ih]

/-- In a tree without sharing, a cell of a child is not the root. -/
lemma child_ne {i c : ℕ} (named : b ≠ 0) (nodup : (blocks fan ptr disk (l + 1) b).Nodup)
    (inside : i < fan) (member : c ∈ blocks fan ptr disk l (ptr (disk b) i)) : c ≠ b := by
  rintro rfl
  rw [blocks_split named inside, nodup_cons] at nodup
  exact nodup.1 (mem_add.mpr (.inl member))

end PointerTrees
