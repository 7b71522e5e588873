import RetroBSD.LinkedLists

/-!
# Rings of elements and heads

The queues of `insque` and `remque`: every head and every element points
forward and back, and the last element of a list points at the head again. An
element that is on no list points at itself. `remque` leaves the pointers of
what it takes out as they are, so between a `remque` and what follows it one
element may be loose.
-/

namespace LinkedLists

open Function (update update_of_ne update_self update_comm update_eq_self_iff)
open List

variable {κ α : Type*}

def Cell.element : Cell κ α → Option α
  | .head _ => none
  | .link x => some x

structure Links (κ α : Type*) where
  forw : Cell κ α → Cell κ α
  back : Cell κ α → Cell κ α

namespace Links

variable [DecidableEq κ]

/-- The loop from the cell `c` on to the head of `k`, for at most `n` rounds. -/
def search (links : Links κ α) (test : α → Bool) (k : κ) : ℕ → Cell κ α → Option α
  | 0, _ => none
  | n + 1, c =>
    match links.forw c with
    | .head k' => if k' = k then none else search links test k n (.head k')
    | .link x => if test x then some x else search links test k n (.link x)

variable [DecidableEq α]

def insque (links : Links κ α) (e prev : Cell κ α) : Links κ α :=
  let back := update links.back e prev
  let forw := update links.forw e (links.forw prev)
  ⟨update forw prev e, update back (forw prev) e⟩

def remque (links : Links κ α) (e : Cell κ α) : Links κ α :=
  let forw := update links.forw (links.back e) (links.forw e)
  ⟨forw, update links.back (forw e) (links.back e)⟩

def isolate (links : Links κ α) (e : Cell κ α) : Links κ α :=
  ⟨update links.forw e e, update links.back e e⟩

end Links

/-- The lists of the heads, each closed to a ring; `loose` is an element on no list whose pointers
may be anything. -/
structure Rings (links : Links κ α) (L : κ → List α) (loose : Option α) : Prop where
  lists : Lists (fun c => (links.forw c).element) L
  backed : ∀ k, Backed (fun x => links.back (.link x)) (.head k) (L k)
  closed : ∀ k, links.forw (after (.head k) (L k)) = .head k ∧
    links.back (.head k) = after (.head k) (L k)
  alone : ∀ x, loose ≠ some x → (∀ k, x ∉ L k) →
    links.forw (.link x) = .link x ∧ links.back (.link x) = .link x

/-- The cell at which a list starts: its first element, or the head if there is none. -/
def front (k : κ) : List α → Cell κ α
  | [] => .head k
  | x :: _ => .link x

section Fronts

variable {links : Links κ α} {L : κ → List α} {loose : Option α} {k : κ} {a b l : List α} {x : α}

lemma element_eq {c : Cell κ α} (is : c.element = some x) : c = .link x := by
  cases c with
  | head k => cases is
  | link y =>
    cases is
    rfl

lemma front_link {y : α} (eq : front k l = .link y) : y ∈ l := by
  cases l with
  | nil => cases eq
  | cons z l =>
    cases eq
    exact mem_cons_self

lemma front_head {k' : κ} (eq : front k l = .head k') : l = [] ∧ k = k' := by
  cases l with
  | nil =>
    cases eq
    exact ⟨rfl, rfl⟩
  | cons z l => cases eq

lemma after_cons_link (c : Cell κ α) (x : α) (l : List α) :
    ∃ z ∈ x :: l, after c (x :: l) = .link z := by
  rcases after_cases (.link x) l with same | ⟨z, member, eq⟩
  · exact ⟨x, mem_cons_self, same⟩
  · exact ⟨z, mem_cons_of_mem x member, eq⟩

/-- Where the pointers between two parts of a list lead. -/
lemma Rings.forw_after (rings : Rings links L loose) (here : L k = a ++ b) :
    links.forw (after (.head k) a) = front k b := by
  cases b with
  | nil =>
    rw [append_nil] at here
    exact here ▸ (rings.closed k).1
  | cons y b => exact element_eq (rings.lists.at_after here)

lemma Rings.forw_link (rings : Rings links L loose) (here : L k = a ++ x :: b) :
    links.forw (.link x) = front k b := by
  have next := rings.forw_after (a := a ++ [x]) (b := b) (k := k) (by simp [here])
  rwa [after_append] at next

lemma Rings.back_link (rings : Rings links L loose) (here : L k = a ++ x :: b) :
    links.back (.link x) = after (.head k) a :=
  Backed.at (here ▸ rings.backed k)

end Fronts

variable [DecidableEq κ] [DecidableEq α] {links : Links κ α} {L : κ → List α} {loose : Option α}
  {k : κ} {a b l : List α} {x : α}

lemma element_update (forw : Cell κ α → Cell κ α) (c v : Cell κ α) :
    (fun c' => (update forw c v c').element) =
      update (fun c' => (forw c').element) c v.element := by
  funext c'
  by_cases same : c' = c
  · rw [same, update_self, update_self]
  · rw [update_of_ne same, update_of_ne same]

/-- The back pointers of the elements when the one at the front of a list is written. -/
lemma back_front (back : Cell κ α → Cell κ α) (k : κ) (l : List α) (c : Cell κ α) :
    (fun x => update back (front k l) c (.link x)) =
      setBack (fun x => back (.link x)) l.head? c := by
  funext x
  cases l with
  | nil => exact update_of_ne (by simp [front]) ..
  | cons y l =>
    by_cases same : x = y
    · subst same
      simp [front, setBack]
    · simp [front, setBack, same]

lemma back_link_update (back : Cell κ α → Cell κ α) (x : α) (c : Cell κ α) :
    (fun y => update back (.link x) c (.link y)) = update (fun y => back (.link y)) x c := by
  funext y
  by_cases same : y = x
  · simp [same]
  · simp [same]

omit [DecidableEq κ] in
lemma setBack_update_comm {back : α → Cell κ α} {y : Option α} {c c' : Cell κ α}
    (other : y ≠ some x) : setBack (update back x c) y c' = update (setBack back y c') x c := by
  cases y with
  | none => rfl
  | some y => exact update_comm (fun eq => other (by rw [eq])) ..

lemma Rings.remque_eq (rings : Rings links L loose) (here : L k = a ++ x :: b) :
    links.remque (.link x) = ⟨update links.forw (after (.head k) a) (front k b),
      update links.back (front k b) (after (.head k) a)⟩ := by
  have apart : x ∉ a := fun inside => (nodup_append'.mp (here ▸ rings.lists.nodup k)).2.2 inside
    mem_cons_self
  have other : (.link x : Cell κ α) ≠ after (.head k) a :=
    fun same => apart (after_head_link same.symm)
  simp [Links.remque, rings.back_link here, rings.forw_link here, update_of_ne other]

/-- An element that is on a list is taken off it. -/
lemma Rings.unlink (rings : Rings links L none) (here : L k = a ++ x :: b) :
    Rings (links.remque (.link x)) (update L k (a ++ b)) (some x) := by
  have parts := nodup_append'.mp (here ▸ rings.lists.nodup k)
  have disjoint : ∀ y ∈ a, y ∉ b := fun y one two => parts.2.2 one (mem_cons_of_mem x two)
  have inside : ∀ y, y ∈ a ∨ y ∈ b → y ∈ L k := by
    intro y either
    rw [here]
    simp only [mem_append]
    tauto
  rw [rings.remque_eq here]
  constructor
  · rw [element_update, ← rings.forw_link here]
    exact rings.lists.remove here
  · intro k'
    rw [back_front]
    by_cases same : k' = k
    · subst same
      rw [update_self, ← rings.back_link here]
      exact Backed.remove (here ▸ rings.backed k') (here ▸ rings.lists.nodup k')
    · rw [update_of_ne same]
      refine (rings.backed k').congr fun y member => setBack_of_ne fun first => same ?_
      exact rings.lists.apart k' k y member (inside y (.inr (mem_of_head? first)))
  · intro k'
    by_cases same : k' = k
    · subst same
      rw [update_self]
      cases b with
      | nil =>
        rw [append_nil]
        exact ⟨update_self .., update_self ..⟩
      | cons y b =>
        have last : after (.head k') (a ++ y :: b) = after (.head k') (L k') := by
          rw [here]
          simp [after]
        have ahead : after (.head k') (a ++ y :: b) ≠ after (.head k') a := by
          obtain ⟨z, later, eq⟩ := after_cons_link _ y b
          rw [after_append, eq]
          exact fun same => disjoint z (after_head_link same.symm) later
        have behind : .head k' ≠ front k' (y :: b) := by simp [front]
        obtain ⟨forw, back⟩ := rings.closed k'
        rw [← last] at forw back
        simp only [update_of_ne ahead, update_of_ne behind, forw, back, and_self]
    · rw [update_of_ne same]
      have beside : after (.head k') (L k') ≠ after (.head k) a := by
        intro eq
        rcases after_cases (.head k) a with first | ⟨z, member, link⟩
        · exact same (after_head_head (eq.trans first))
        · exact same (rings.lists.apart k' k z (after_head_link (eq.trans link)) (inside z (.inl member)))
      have behind : .head k' ≠ front k b := fun eq => same (front_head eq.symm).2.symm
      obtain ⟨forw, back⟩ := rings.closed k'
      simp only [update_of_ne beside, update_of_ne behind, forw, back, and_self]
  · intro z other fresh
    have out : ∀ k, z ∉ L k := fun k' member =>
      fresh k' ((rings.lists.mem_remove here z k').mpr ⟨member, fun same => other (same ▸ rfl)⟩)
    obtain ⟨forw, back⟩ := rings.alone z (by simp) out
    have ahead : .link z ≠ after (.head k) a := fun eq =>
      out k (inside z (.inl (after_head_link eq.symm)))
    have behind : .link z ≠ front k b := fun eq => out k (inside z (.inr (front_link eq.symm)))
    simp only [update_of_ne ahead, update_of_ne behind, forw, back, and_self]

lemma Rings.remque (rings : Rings links L none) (x : α) :
    ∃ L', Rings (links.remque (.link x)) L' (some x) ∧ ∀ y k, y ∈ L' k ↔ y ∈ L k ∧ y ≠ x := by
  by_cases absent : ∀ k, x ∉ L k
  · have self := rings.alone x nofun absent
    have same : links.remque (.link x) = links := by
      unfold Links.remque
      simp only [self.1, self.2, update_self]
      congr
      · exact update_eq_self_iff.mpr self.1.symm
      · exact update_eq_self_iff.mpr self.2.symm
    refine ⟨L, ?_, fun y k => ⟨fun inside => ⟨inside, ?_⟩, And.left⟩⟩
    · rw [same]
      exact ⟨rings.lists, rings.backed, rings.closed, fun y _ => rings.alone y nofun⟩
    · rintro rfl
      exact absent k inside
  · obtain ⟨k, member⟩ := not_forall_not.mp absent
    obtain ⟨a, b, here⟩ := append_of_mem member
    exact ⟨_, rings.unlink here, rings.lists.mem_remove here⟩

/-- `insque` puts a loose element behind a head. -/
lemma Rings.insque (rings : Rings links L (some x)) (fresh : ∀ k, x ∉ L k) (k : κ) :
    Rings (links.insque (.link x) (.head k)) (update L k (x :: L k)) none := by
  have first : links.forw (.head k) = front k (L k) := rings.forw_after (a := []) rfl
  have eq : links.insque (.link x) (.head k) =
      ⟨update (update links.forw (.link x) (front k (L k))) (.head k) (.link x),
        update (update links.back (.link x) (.head k)) (front k (L k)) (.link x)⟩ := by
    simp [Links.insque, first]
  rw [eq]
  constructor
  · rw [element_update, element_update, ← first]
    exact rings.lists.push k fresh
  · intro k'
    rw [back_front, back_link_update]
    by_cases same : k' = k
    · subst same
      rw [update_self, setBack_update_comm fun eq => fresh k' (mem_of_head? eq)]
      exact (rings.backed k').push (rings.lists.nodup k') (fresh k')
    · rw [update_of_ne same]
      refine (rings.backed k').congr fun y member => ?_
      rw [setBack_of_ne fun eq => same (rings.lists.apart k' k y member (mem_of_head? eq))]
      exact update_of_ne (fun eq : y = x => fresh k' (eq ▸ member)) ..
  · intro k'
    obtain ⟨forw, back⟩ := rings.closed k'
    by_cases same : k' = k
    · subst same
      rw [update_self]
      cases list : L k' with
      | nil => simp [after, front]
      | cons y l =>
        obtain ⟨z, member, link⟩ := after_cons_link _ y l
        have other : z ≠ x := fun eq => fresh k' (list ▸ eq ▸ member)
        rw [list] at forw back
        have last : after (.head k') (x :: y :: l) = after (.head k') (y :: l) := rfl
        rw [last]
        rw [link] at forw back ⊢
        simp [front, other, forw, back]
    · rw [update_of_ne same]
      have one : after (.head k') (L k') ≠ .head k := fun eq => same (after_head_head eq)
      have two : after (.head k') (L k') ≠ .link x := fun eq => fresh k' (after_head_link eq)
      have three : .head k' ≠ front k (L k) := fun eq => same (front_head eq.symm).2.symm
      simp [one, two, three, forw, back]
  · intro z _ absent
    have added := mem_push L k x z
    have other : z ≠ x := fun eq => absent k ((added k).mpr (.inr ⟨eq, rfl⟩))
    have out : ∀ k', z ∉ L k' := fun k' member => absent k' ((added k').mpr (.inl member))
    have behind : .link z ≠ front k (L k) := fun eq => out k (front_link eq.symm)
    obtain ⟨forw, back⟩ := rings.alone z (fun eq => other (Option.some.inj eq).symm) out
    simp [other, behind, forw, back]

lemma Rings.isolate (rings : Rings links L (some x)) (fresh : ∀ k, x ∉ L k) :
    Rings (links.isolate (.link x)) L none := by
  constructor
  · unfold Links.isolate
    rw [element_update]
    exact rings.lists.fresh fresh _
  · intro k
    unfold Links.isolate
    rw [back_link_update]
    exact (rings.backed k).congr fun y member =>
      update_of_ne (fun eq : y = x => fresh k (eq ▸ member)) ..
  · intro k
    have other : after (.head k) (L k) ≠ .link x := fun eq => fresh k (after_head_link eq)
    simp [Links.isolate, other, rings.closed]
  · intro z _ absent
    by_cases same : z = x
    · simp [Links.isolate, same]
    · obtain ⟨forw, back⟩ := rings.alone z (fun eq => same (Option.some.inj eq).symm) absent
      simp [Links.isolate, same, forw, back]

omit [DecidableEq α] in
/-- The loop over a list finds its first element that passes the test. -/
lemma Rings.search_eq (rings : Rings links L loose) (test : α → Bool) (n : ℕ)
    (here : L k = a ++ b) (enough : b.length < n) :
    links.search test k n (after (.head k) a) = b.find? test := by
  induction n generalizing a b with
  | zero => omega
  | succ n ih =>
    have next := rings.forw_after here
    cases b with
    | nil => simp [Links.search, next, front]
    | cons x b =>
      have rest := ih (a := a ++ [x]) (b := b) (by simp [here]) (by simpa using enough)
      rw [after_append] at rest
      change links.search test k n (.link x) = _ at rest
      cases hit : test x with
      | true => simp [Links.search, next, front, hit]
      | false => simpa [Links.search, next, front, hit] using rest

end LinkedLists
