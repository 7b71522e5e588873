import Mathlib.Tactic

/-!
# Queues that keep differences of times

A queue holds events in the order of the times at which they are due, and with
each event the time from its predecessor, not the time itself. Events that are
overdue at the present time `base` stand first and keep a number that is zero
or negative; the first event that is not overdue counts from `base`.
-/

namespace DeltaLists

open List

variable {α : Type*}

/-- The numbers `time` of the queue stand for the times `due`, read at time `base`. -/
def Deltas (time due : α → ℤ) : ℤ → List α → Prop
  | _, [] => True
  | base, x :: l =>
    time x = due x - base ∧ (∀ y ∈ l, due x ≤ due y) ∧ Deltas time due (max base (due x)) l

variable {time time' due due' : α → ℤ} {base t : ℤ} {a b l : List α} {x y z : α}

lemma Deltas.congr (deltas : Deltas time due base l) (times : ∀ x ∈ l, time' x = time x)
    (dues : ∀ x ∈ l, due' x = due x) : Deltas time' due' base l := by
  induction l generalizing base with
  | nil => trivial
  | cons x l ih =>
    have here : due' x = due x := dues x mem_cons_self
    refine ⟨?_, fun y member => ?_, ?_⟩
    · rw [times x mem_cons_self, here]
      exact deltas.1
    · rw [here, dues y (mem_cons_of_mem x member)]
      exact deltas.2.1 y member
    · rw [here]
      exact ih deltas.2.2 (fun y member => times y (mem_cons_of_mem x member))
        fun y member => dues y (mem_cons_of_mem x member)

/-- Two neighbours, and the time from which the first one is counted. -/
lemma Deltas.neighbours (deltas : Deltas time due base (a ++ x :: y :: b)) :
    ∃ r, base ≤ r ∧ time x = due x - r ∧ due x ≤ due y ∧ time y = due y - max r (due x) := by
  induction a generalizing base with
  | nil => exact ⟨base, le_rfl, deltas.1, deltas.2.1 y mem_cons_self, deltas.2.2.1⟩
  | cons z a ih =>
    obtain ⟨r, later, rest⟩ := ih deltas.2.2
    exact ⟨r, (le_max_left base _).trans later, rest⟩

/-- `time'` has the number `t` for `x` between `a` and `b`, and the event after it counts
from `x`. -/
structure Inserted (time time' : α → ℤ) (a : List α) (x : α) (t : ℤ) (b : List α) : Prop where
  new : time' x = t
  before : ∀ y ∈ a, time' y = time y
  head : ∀ y ∈ b.head?, time' y = time y - t
  tail : ∀ y ∈ b.tail, time' y = time y

/-- A new event goes in front of those due no earlier. -/
lemma Deltas.push (deltas : Deltas time due base b) (start : base < due x)
    (late : ∀ y ∈ b, due x ≤ due y) (inserted : Inserted time time' [] x (due x - base) b) :
    Deltas time' due base (x :: b) := by
  refine ⟨inserted.new, late, ?_⟩
  rw [max_eq_right start.le]
  cases b with
  | nil => trivial
  | cons y b =>
    obtain ⟨here, sorted, rest⟩ := deltas
    have lateY : due x ≤ due y := late y mem_cons_self
    refine ⟨?_, sorted, ?_⟩
    · rw [inserted.head y rfl]
      omega
    · rw [max_eq_right lateY, ← max_eq_right (start.le.trans lateY)]
      exact rest.congr inserted.tail fun _ _ => rfl

/-- When an event is dropped, its successor counts from where the dropped one did. -/
lemma Deltas.remove (deltas : Deltas time due base (a ++ x :: b))
    (before : ∀ y ∈ a, time' y = time y) (head : ∀ y ∈ b.head?, time' y = time y + max (time x) 0)
    (tail : ∀ y ∈ b.tail, time' y = time y) : Deltas time' due base (a ++ b) := by
  induction a generalizing base with
  | nil =>
    cases b with
    | nil => trivial
    | cons y b =>
      obtain ⟨here, sorted, next, sortedB, rest⟩ := deltas
      have order : due x ≤ due y := sorted y mem_cons_self
      refine ⟨?_, sortedB, ?_⟩
      · rw [head y rfl]
        omega
      · rw [max_assoc, max_eq_right order] at rest
        exact rest.congr tail fun _ _ => rfl
  | cons z a ih =>
    obtain ⟨here, sorted, rest⟩ := deltas
    refine ⟨(before z mem_cons_self).trans here, fun y member => sorted y ?_,
      ih rest fun y member => before y (mem_cons_of_mem z member)⟩
    exact (mem_append.mp member).elim (mem_append_left _)
      fun later => mem_append_right a (mem_cons_of_mem x later)

end DeltaLists
