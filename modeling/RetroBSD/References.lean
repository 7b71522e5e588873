import Mathlib.Tactic

/-!
# Counting references

A table gives each of its places a reference, or none. What matters of it is how
many places refer to a given object, and how that number changes when a single
place is written.
-/

namespace References

open Finset

open Function (update update_of_ne update_self)

variable {ι α : Type} [Fintype ι] [DecidableEq α]

/-- One if the place refers to `x`, otherwise zero. -/
def holds (place : Option α) (x : α) : ℕ := if place = some x then 1 else 0

@[simp] lemma holds_none (x : α) : holds none x = 0 := rfl

@[simp] lemma holds_self (x : α) : holds (some x) x = 1 := if_pos rfl

lemma holds_of_ne {x y : α} (other : x ≠ y) : holds (some x) y = 0 :=
  if_neg fun same => other (Option.some.inj same)

/-- The number of places that refer to `x`. -/
def references (table : ι → Option α) (x : α) : ℕ := ∑ i, holds (table i) x

lemma references_eq_card (table : ι → Option α) (x : α) :
    references table x = (univ.filter fun i => table i = some x).card := by
  simp only [references, holds, card_filter]

@[simp] lemma references_none (x : α) : references (fun _ : ι => none) x = 0 := by
  simp [references]

lemma sum_exchange {ι M : Type*} [DecidableEq ι] [AddCommMonoid M] {S : Finset ι} {f g : ι → M}
    {i : ι} (member : i ∈ S) (others : ∀ j ∈ S, j ≠ i → g j = f j) :
    ∑ j ∈ S, g j + f i = ∑ j ∈ S, f j + g i := by
  have rest : ∑ j ∈ S.erase i, g j = ∑ j ∈ S.erase i, f j := by
    apply sum_congr rfl
    intro j hj
    exact others j (mem_of_mem_erase hj) (ne_of_mem_erase hj)
  rw [← add_sum_erase _ _ member, ← add_sum_erase _ _ member, rest]
  abel

/-- What a sum over a table changes by when one entry is written. -/
lemma sum_update {M β : Type} [AddCommMonoid M] [DecidableEq ι] (f : β → M) (table : ι → β)
    (i : ι) (new : β) : ∑ j, f (update table i new j) + f (table i) = ∑ j, f (table j) + f new := by
  have exchange := sum_exchange (f := (f <| table ·)) (g := (f <| update table i new ·))
    (mem_univ i) fun j _ other => by rw [update_of_ne other]
  rwa [update_self] at exchange

lemma references_update [DecidableEq ι] (table : ι → Option α) (i : ι) (new : Option α) (x : α) :
    references (update table i new) x + holds (table i) x = references table x + holds new x :=
  sum_update (holds · x) table i new

lemma holds_le_references (table : ι → Option α) (i : ι) (x : α) :
    holds (table i) x ≤ references table x := by
  exact single_le_sum (f := fun j => holds _ x) (fun _ _ => Nat.zero_le _)
    (mem_univ i)

lemma references_le_card (table : ι → Option α) (x : α) : references table x ≤ Fintype.card ι := by
  rw [references_eq_card]
  exact card_le_univ _

/-- Two places that refer to `x` are counted twice. -/
lemma one_lt_references {table : ι → Option α} {i j : ι} {x : α} (one : table i = some x)
    (two : table j = some x) (other : i ≠ j) : 1 < references table x := by
  rw [references_eq_card]
  exact one_lt_card.mpr ⟨i, by simp [one], j, by simp [two], other⟩

end References
