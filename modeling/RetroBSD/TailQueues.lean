import RetroBSD.LinkedLists

/-!
# Queues with a tail pointer

A list of elements, each with a pointer to the next one and a pointer back to
the cell that points at it, and a pointer to the cell at the end of the list.
While the list is empty the tail pointer may point anywhere: `pop` does not
move it, and `append` looks at the head first.
-/

namespace LinkedLists

open Function (update update_of_ne update_self update_comm)

variable {α : Type*} [DecidableEq α]

structure TailQueue (α : Type*) where
  next : Cell Unit α → Option α
  prev : α → Option (Cell Unit α)
  tail : Cell Unit α

namespace TailQueue

/-- Take an element out of the middle; none if its back pointer is null. -/
def remove (q : TailQueue α) (x : α) : Option (TailQueue α) :=
  (q.prev x).map fun c =>
    match q.next (.link x) with
    | some y =>
      { next := update (update q.next c (some y)) (.link x) none
        prev := update (update q.prev y (some c)) x none
        tail := q.tail }
    | none =>
      { next := update (update q.next c none) (.link x) none
        prev := update q.prev x none
        tail := c }

def pop (q : TailQueue α) (x : α) : TailQueue α :=
  match q.next (.link x) with
  | some y =>
    { q with
      next := update (update q.next (.head ()) (some y)) (.link x) none
      prev := update (update q.prev y (some (.head ()))) x none }
  | none =>
    { q with
      next := update (update q.next (.head ()) none) (.link x) none
      prev := update q.prev x none }

def append (q : TailQueue α) (x : α) : TailQueue α :=
  let c := if (q.next (.head ())).isSome then q.tail else .head ()
  { next := update (update q.next c (some x)) (.link x) none
    prev := update q.prev x (some c)
    tail := .link x }

/-- Another use of the link field of an element. -/
def scribble (q : TailQueue α) (x : α) (v : Option α) : TailQueue α :=
  { q with next := update q.next (.link x) v }

/-- The queue holds the elements of `l` in this order. -/
structure Holds (q : TailQueue α) (l : List α) : Prop where
  lists : Lists q.next fun _ => l
  backed : ∃ back, Backed back (.head ()) l ∧ ∀ x ∈ l, q.prev x = some (back x)
  last : l ≠ [] → q.tail = after (.head ()) l

variable {q : TailQueue α} {l a b : List α} {x : α}

omit [DecidableEq α] in
lemma Holds.prev (holds : q.Holds l) (here : l = a ++ x :: b) :
    q.prev x = some (after (.head ()) a) := by
  obtain ⟨back, backed, same⟩ := holds.backed
  rw [same x (by simp [here])]
  subst here
  rw [backed.at]

lemma Holds.scribble (holds : q.Holds l) (out : x ∉ l) (v : Option α) : (q.scribble x v).Holds l :=
  ⟨holds.lists.fresh (fun _ => out) v, holds.backed, holds.last⟩

/-- The links when an element has been taken out and its own link cleared. -/
lemma Holds.unlinked (holds : q.Holds l) (here : l = a ++ x :: b) :
    Lists (update (update q.next (after (.head ()) a) (q.next (.link x)))
      (.link x) none) fun _ => a ++ b := by
  have removed := holds.lists.remove (k := ()) here
  have fresh : x ∉ a ++ b :=
    (List.nodup_cons.mp (List.nodup_middle.mp (here ▸ holds.lists.nodup ()))).1
  exact removed.fresh (fun _ => fresh) none

/-- The back pointers after that: `y` is the element behind it, if there is one. -/
lemma Holds.rebacked (holds : q.Holds (a ++ x :: b)) {prev : α → Option (Cell Unit α)}
    (first : ∀ y, b.head? = some y → prev y = some (after (.head ()) a))
    (same : ∀ y ∈ a ++ b, b.head? ≠ some y → prev y = q.prev y) :
    ∃ back, Backed back (.head ()) (a ++ b) ∧ ∀ y ∈ a ++ b, prev y = some (back y) := by
  obtain ⟨back, backed, known⟩ := holds.backed
  refine ⟨_, backed.remove (holds.lists.nodup ()), fun y member => ?_⟩
  by_cases next : b.head? = some y
  · rw [first y next, next, backed.at]
    simp [setBack]
  · rw [same y member next, setBack_of_ne next]
    refine known y ?_
    simp only [List.mem_append] at member ⊢
    tauto

lemma Holds.remove (holds : q.Holds l) (here : l = a ++ x :: b) :
    ∃ q', q.remove x = some q' ∧ q'.Holds (a ++ b) := by
  subst here
  have links := holds.unlinked rfl
  have fresh : x ∉ a ++ b := (List.nodup_cons.mp (List.nodup_middle.mp (holds.lists.nodup ()))).1
  have other : ∀ y ∈ a ++ b, y ≠ x := fun y member same => fresh (same ▸ member)
  have next : q.next (.link x) = b.head? := holds.lists.next (k := ()) rfl
  unfold TailQueue.remove
  rw [holds.prev rfl, next]
  rw [next] at links
  refine ⟨_, rfl, ?_⟩
  cases b with
  | nil =>
    refine ⟨links, holds.rebacked nofun fun y member _ => ?_, fun _ => by simp⟩
    exact update_of_ne (other y member) ..
  | cons z b =>
    refine ⟨links, holds.rebacked ?_ ?_, fun _ => ?_⟩
    · rintro y ⟨⟩
      have differs := other z (by simp)
      simp [differs]
    · intro y member later
      have differs : y ≠ z := fun same => later (by simp [same])
      simp [other y member, differs]
    · rw [holds.last (by simp)]
      simp [after]

lemma Holds.pop (holds : q.Holds (x :: b)) : (q.pop x).Holds b := by
  have links := holds.unlinked (a := []) rfl
  have fresh : x ∉ b := (List.nodup_cons.mp (holds.lists.nodup ())).1
  have other : ∀ y ∈ b, y ≠ x := fun y member same => fresh (same ▸ member)
  have next : q.next (.link x) = b.head? := holds.lists.next (k := ()) (a := []) rfl
  unfold TailQueue.pop
  rw [next]
  rw [next] at links
  cases b with
  | nil => exact ⟨links, holds.rebacked (a := []) nofun nofun, fun some => absurd rfl some⟩
  | cons z b =>
    refine ⟨links, holds.rebacked (a := []) ?_ ?_, fun _ => ?_⟩
    · rintro y ⟨⟩
      have differs := other z (by simp)
      simp [differs, after]
    · intro y member later
      have differs : y ≠ z := fun same => later (by simp [same])
      simp [other y member, differs]
    · rw [holds.last (by simp)]
      rfl

lemma Holds.append (holds : q.Holds l) (out : x ∉ l) : (q.append x).Holds (l ++ [x]) := by
  have cell : (if (q.next (.head ())).isSome then q.tail else .head ()) = after (.head ()) l := by
    rw [holds.lists.head]
    cases l with
    | nil => rfl
    | cons y l => simpa using holds.last (by simp)
  obtain ⟨back, backed, known⟩ := holds.backed
  have inserted := holds.lists.insert (k := ()) (a := l) (b := []) (by simp) fun _ => out
  rw [holds.lists.at_after (b := []) (by simp)] at inserted
  have apart : after (.head ()) l ≠ .link x := fun same => out (after_head_link same)
  unfold TailQueue.append
  dsimp only
  rw [cell]
  refine ⟨?_, ⟨update back x (after (.head ()) l), ?_, fun y member => ?_⟩, fun _ => by simp [after]⟩
  · rw [update_comm apart]
    exact inserted
  · refine backed_append.mpr ⟨backed.congr fun y member => update_of_ne (fun same : y = x =>
      out (same ▸ member)) .., update_self .., trivial⟩
  · by_cases same : y = x
    · simp [same]
    · simp only [update_of_ne same]
      exact known y (by simpa [same] using member)

end TailQueue

end LinkedLists
