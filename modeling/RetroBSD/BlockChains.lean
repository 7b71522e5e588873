import Mathlib.Tactic

/-!
# Chains of numbered blocks

A pool of blocks is shared out among the members of a family, each of which links
its blocks through one link field, with zero for the end. A change that permutes
the blocks of two members, and leaves the links of all other blocks alone, keeps
the pool shared out.
-/

namespace BlockChains

open Function (update update_of_ne)
open List

variable {κ : Type*}

/-- The links lead through the blocks of the list and then to `stop`. -/
def Follows (next : ℕ → ℕ) : List ℕ → ℕ → Prop
  | [], _ => True
  | x :: l, stop => next x = l.headD stop ∧ Follows next l stop

section Follows

variable {next next' : ℕ → ℕ} {l : List ℕ} {x stop : ℕ}

lemma Follows.congr (follows : Follows next l stop) (same : ∀ y ∈ l, next' y = next y) :
    Follows next' l stop := by
  induction l with
  | nil => trivial
  | cons y l ih =>
    constructor
    · exact (same y mem_cons_self).trans follows.1
    · exact ih follows.2 fun z member => same z (mem_cons_of_mem y member)

lemma follows_append {a b : List ℕ} :
    Follows next (a ++ b) stop ↔ Follows next a (b.headD stop) ∧ Follows next b stop := by
  induction a with
  | nil => simp [Follows]
  | cons y a ih => simp [Follows, ih, and_assoc]

/-- A new block after the last one of a chain. -/
lemma Follows.snoc {init : List ℕ} (follows : Follows next (init ++ [x]) 0) {y : ℕ}
    (fresh : y ∉ init ++ [x]) (nodup : (init ++ [x]).Nodup) :
    Follows (update (update next x y) y 0) (init ++ [x] ++ [y]) 0 := by
  have apart : x ≠ y := fun same => fresh (by simp [same])
  have outside : ∀ z ∈ init, z ≠ x ∧ z ≠ y := by
    intro z member
    constructor
    · rintro rfl
      exact (nodup_append.mp nodup).2.2 z member z (mem_singleton.mpr rfl) rfl
    · rintro rfl
      exact fresh (mem_append_left _ member)
  rw [follows_append, follows_append]
  refine ⟨⟨?_, ?_⟩, ?_⟩
  · apply (follows_append.mp follows).1.congr
    intro z member
    simp [outside z member]
  · simp [Follows, update_of_ne apart]
  · simp [Follows]

lemma Follows.dropLast {init : List ℕ} {y : ℕ} (follows : Follows next (init ++ [x] ++ [y]) stop)
    (nodup : (init ++ [x]).Nodup) : Follows (update next x 0) (init ++ [x]) 0 := by
  rw [follows_append, follows_append] at follows
  rw [follows_append]
  constructor
  · apply follows.1.1.congr
    intro z member
    apply update_of_ne
    rintro rfl
    exact (nodup_append.mp nodup).2.2 z member z (mem_singleton.mpr rfl) rfl
  · simp [Follows]

end Follows

/-- Every block of the pool is in one place of one list of the family. -/
structure Parted (pool : List ℕ) (own : κ → List ℕ) : Prop where
  nodup : ∀ k, (own k).Nodup
  apart : ∀ k k' x, x ∈ own k → x ∈ own k' → k = k'
  cover : ∀ x, x ∈ pool ↔ ∃ k, x ∈ own k

namespace Parted

variable {pool : List ℕ} {own own' : κ → List ℕ}

lemma append_nodup (parted : Parted pool own) {k k' : κ} (different : k ≠ k') :
    (own k ++ own k').Nodup := by
  apply List.Nodup.append (parted.nodup k) (parted.nodup k')
  intro x left right
  exact different (parted.apart k k' x left right)

lemma exchange (parted : Parted pool own) {k k' : κ} (different : k ≠ k')
    (perm : (own' k ++ own' k').Perm (own k ++ own k'))
    (others : ∀ j, j ≠ k → j ≠ k' → own' j = own j) : Parted pool own' := by
  have nodup : (own' k ++ own' k').Nodup := perm.nodup_iff.mpr (parted.append_nodup different)
  obtain ⟨first, second, disjoint⟩ := nodup_append.mp nodup
  have back : ∀ x, x ∈ own' k ∨ x ∈ own' k' ↔ x ∈ own k ∨ x ∈ own k' := by
    intro x
    simpa only [mem_append] using perm.mem_iff
  have away : ∀ j x, j ≠ k → j ≠ k' → x ∈ own' j → ¬ (x ∈ own' k ∨ x ∈ own' k') := by
    intro j x left right member both
    rw [others j left right] at member
    rcases (back x).mp both with inside | inside
    · exact left (parted.apart j k x member inside)
    · exact right (parted.apart j k' x member inside)
  constructor
  · intro j
    by_cases left : j = k
    · exact left ▸ first
    by_cases right : j = k'
    · exact right ▸ second
    · rw [others j left right]
      exact parted.nodup j
  · intro i j x here there
    by_cases hi : i = k ∨ i = k'
    · by_cases hj : j = k ∨ j = k'
      · rcases hi with rfl | rfl <;> rcases hj with rfl | rfl
        · rfl
        · exact absurd rfl (disjoint x here x there)
        · exact absurd rfl (disjoint x there x here)
        · rfl
      · obtain ⟨left, right⟩ := not_or.mp hj
        rcases hi with rfl | rfl
        · exact absurd (.inl here) (away j x left right there)
        · exact absurd (.inr here) (away j x left right there)
    · obtain ⟨left, right⟩ := not_or.mp hi
      by_cases hj : j = k ∨ j = k'
      · rcases hj with rfl | rfl
        · exact absurd (.inl there) (away i x left right here)
        · exact absurd (.inr there) (away i x left right here)
      · obtain ⟨left', right'⟩ := not_or.mp hj
        rw [others i left right] at here
        rw [others j left' right'] at there
        exact parted.apart i j x here there
  · intro x
    rw [parted.cover x]
    constructor
    · rintro ⟨j, member⟩
      by_cases left : j = k
      · exact ((back x).mpr (.inl (left ▸ member))).elim (⟨k, ·⟩) (⟨k', ·⟩)
      by_cases right : j = k'
      · exact ((back x).mpr (.inr (right ▸ member))).elim (⟨k, ·⟩) (⟨k', ·⟩)
      · exact ⟨j, (others j left right).symm ▸ member⟩
    · rintro ⟨j, member⟩
      by_cases left : j = k
      · exact ((back x).mp (.inl (left ▸ member))).elim (⟨k, ·⟩) (⟨k', ·⟩)
      by_cases right : j = k'
      · exact ((back x).mp (.inr (right ▸ member))).elim (⟨k, ·⟩) (⟨k', ·⟩)
      · exact ⟨j, others j left right ▸ member⟩

end Parted

end BlockChains
