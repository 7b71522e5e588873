import Mathlib.Tactic

/-!
# Windows of a memory

A memory is a function from addresses to cells. A window is the list of the
cells of an interval, and a transfer copies one interval over another. Nothing
is said about transfers inside of one memory that overlap.
-/

namespace MemoryWindows

variable {α : Type*} {m m' dst src src' : ℕ → α} {a b b' c n k : ℕ}

def window (m : ℕ → α) (a n : ℕ) : List α := (List.range n).map fun i => m (a + i)

def transfer (dst : ℕ → α) (a : ℕ) (src : ℕ → α) (b n : ℕ) : ℕ → α :=
  fun x => if a ≤ x ∧ x < a + n then src (b + (x - a)) else dst x

lemma window_eq_iff : window m a n = window m' b n ↔ ∀ i < n, m (a + i) = m' (b + i) := by
  simp [window]

lemma transfer_zero (dst : ℕ → α) (a : ℕ) (src : ℕ → α) (b : ℕ) : transfer dst a src b 0 = dst := by
  funext x
  exact if_neg (by omega)

lemma window_transfer : window (transfer dst a src b n) a n = window src b n := by
  apply window_eq_iff.mpr
  intro i small
  simp only [transfer, if_pos (show a ≤ a + i ∧ a + i < a + n by omega), Nat.add_sub_cancel_left]

lemma transfer_behind (agrees : ∀ i < k, src' (b' + i) = src (b + i)) (next : 0 < n → c = b + k) :
    transfer (transfer dst a src' b' k) (a + k) src c n = transfer dst a src b (k + n) := by
  funext x
  simp only [transfer]
  by_cases later : a + k ≤ x ∧ x < a + k + n
  · have same : c + (x - (a + k)) = b + (x - a) := by
      have := next (by omega)
      omega
    rw [if_pos later, if_pos (by omega), same]
  · rw [if_neg later]
    by_cases here : a ≤ x ∧ x < a + k
    · rw [if_pos here, if_pos (by omega), agrees _ (by omega)]
    · rw [if_neg here, if_neg (by omega)]

/-- Copying cells that a memory has at the same place does not lose what was
already as in that memory. -/
lemma window_transfer_agrees (copied : window src b n = window m a n)
    (before : window dst c k = window m c k) :
    window (transfer dst a src b n) c k = window m c k := by
  apply window_eq_iff.mpr
  intro i small
  by_cases inside : a ≤ c + i ∧ c + i < a + n
  · have cell := window_eq_iff.mp copied (c + i - a) (by omega)
    rw [Nat.add_sub_of_le inside.1] at cell
    simp [transfer, if_pos inside, cell]
  · simp only [transfer, if_neg inside]
    exact window_eq_iff.mp before i small

end MemoryWindows
