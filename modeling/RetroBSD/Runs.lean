import Mathlib.Tactic

/-!
# Runs of a labelled step relation

A run is a finite sequence of labelled steps, each of which meets a condition
on its label and on the state it starts from. Every prefix of a run is a run,
so a statement about the last state of every run is a statement about every
state that is reached.
-/

namespace Runs

universe u v

variable {State : Type u} {Label : Type v}

/-- A run from a state through the given labels to a last state. -/
inductive Run (step : State → Label → State → Prop) (ok : State → Label → Prop) :
    State → List Label → State → Prop where
  | nil (s : State) : Run step ok s [] s
  | cons {s t r : State} {a : Label} {as : List Label} (allowed : ok s a)
      (first : step s a t) (rest : Run step ok t as r) : Run step ok s (a :: as) r

variable {step : State → Label → State → Prop} {ok : State → Label → Prop}

/-- What every allowed step preserves holds in every state a run reaches. -/
lemma run_invariant (Inv : State → Prop) (preserves : ∀ s a t, Inv s → ok s a → step s a t → Inv t)
    {s r : State} {as : List Label} (run : Run step ok s as r) (start : Inv s) : Inv r := by
  induction run with
  | nil => exact start
  | cons allowed first _ ih => exact ih (preserves _ _ _ start allowed first)

/-- A run that meets a condition meets every weaker one. -/
lemma Run.mono {ok' : State → Label → Prop} (weaker : ∀ s a, ok s a → ok' s a)
    {s r : State} {as : List Label} (run : Run step ok s as r) : Run step ok' s as r := by
  induction run with
  | nil => exact .nil _
  | cons allowed first _ ih => exact .cons (weaker _ _ allowed) first ih

/-- The run that a step function takes, if every step is allowed and can be taken. -/
def follow (exec : State → Label → Option State) (ok : State → Label → Prop)
    [∀ s a, Decidable (ok s a)] : State → List Label → Option State
  | s, [] => some s
  | s, a :: as => if ok s a then (exec s a).bind (follow exec ok · as) else none

lemma run_of_follow {exec : State → Label → Option State} [∀ s a, Decidable (ok s a)]
    {s t : State} {as : List Label} (done : follow exec ok s as = some t) :
    Run (fun s a t => exec s a = some t) ok s as t := by
  induction as generalizing s with
  | nil =>
    cases done
    exact Run.nil t
  | cons a as ih =>
    by_cases allowed : ok s a
    · rw [follow, if_pos allowed] at done
      obtain ⟨r, first, rest⟩ := Option.bind_eq_some_iff.mp done
      exact Run.cons allowed first (ih rest)
    · rw [follow, if_neg allowed] at done
      cases done

/-- A run is found by following its labels, with what holds where it ends. -/
lemma run_of_reached (exec : State → Label → Option State) [∀ s a, Decidable (ok s a)]
    {P : State → Prop} {s : State} {as : List Label} (reached : ∃ t ∈ follow exec ok s as, P t) :
    ∃ t, Run (fun s a t => exec s a = some t) ok s as t ∧ P t :=
  reached.imp fun _ done => ⟨run_of_follow done.1, done.2⟩

end Runs
