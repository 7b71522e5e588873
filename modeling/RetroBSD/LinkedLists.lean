import Mathlib.Tactic

/-!
# Linked lists that share one link field

Elements carry one link field, and a family of heads points at lists of them.
A head and a link field are both cells that hold a pointer, so a loop that
moves a pointer to a pointer is a walk over cells. A write to a cell can break
any list of the family; the two rules below say when putting an element in,
or taking one out, changes exactly one list.
-/

namespace LinkedLists

open Function (update update_of_ne update_self)
open List

variable {κ α : Type*}

/-- A place that holds a pointer: a head, or the link field of an element. -/
inductive Cell (κ α : Type*) where
  | head (k : κ)
  | link (x : α)
  deriving DecidableEq

/-- The pointers from cell `c` on visit the elements of `a`. -/
def Leads (ptr : Cell κ α → Option α) : Cell κ α → List α → Prop
  | _, [] => True
  | c, x :: a => ptr c = some x ∧ Leads ptr (.link x) a

def after : Cell κ α → List α → Cell κ α
  | c, [] => c
  | _, x :: a => after (.link x) a

/-- The pointers from cell `c` on visit the elements of `l` and end there. -/
def Linked (ptr : Cell κ α → Option α) (c : Cell κ α) (l : List α) : Prop :=
  Leads ptr c l ∧ ptr (after c l) = none

/-- The lists of the family: each linked from its head, no element in two places. -/
structure Lists (ptr : Cell κ α → Option α) (L : κ → List α) : Prop where
  linked : ∀ k, Linked ptr (.head k) (L k)
  nodup : ∀ k, (L k).Nodup
  apart : ∀ k k' x, x ∈ L k → x ∈ L k' → k = k'

/-- The first cell from `c` on whose element passes the test. -/
def seek (ptr : Cell κ α → Option α) (test : α → Bool) : ℕ → Cell κ α → Option (Cell κ α × α)
  | 0, _ => none
  | n + 1, c =>
    match ptr c with
    | none => none
    | some x => if test x then some (c, x) else seek ptr test n (.link x)

/-- The elements met from cell `c` on, at most `n` of them. -/
def elements (ptr : Cell κ α → Option α) : ℕ → Cell κ α → List α
  | 0, _ => []
  | n + 1, c =>
    match ptr c with
    | none => []
    | some x => x :: elements ptr n (.link x)

def push [DecidableEq κ] [DecidableEq α] (ptr : Cell κ α → Option α) (k : κ) (x : α) :
    Cell κ α → Option α :=
  update (update ptr (.link x) (ptr (.head k))) (.head k) (some x)

/-- Every element points back at the cell that points at it. -/
def Backed (back : α → Cell κ α) : Cell κ α → List α → Prop
  | _, [] => True
  | c, x :: l => back x = c ∧ Backed back (.link x) l

def setBack [DecidableEq α] (back : α → Cell κ α) (x : Option α) (c : Cell κ α) : α → Cell κ α :=
  match x with
  | none => back
  | some x => update back x c

instance decidableLeads [DecidableEq α] (ptr : Cell κ α → Option α) :
    ∀ c a, Decidable (Leads ptr c a)
  | _, [] => isTrue trivial
  | c, x :: a =>
    have := decidableLeads ptr (.link x) a
    inferInstanceAs (Decidable (ptr c = some x ∧ Leads ptr (.link x) a))

instance [DecidableEq α] (ptr : Cell κ α → Option α) (c : Cell κ α) (l : List α) :
    Decidable (Linked ptr c l) :=
  inferInstanceAs (Decidable (_ ∧ _))

instance decidableBacked [DecidableEq κ] [DecidableEq α] (back : α → Cell κ α) :
    ∀ c l, Decidable (Backed back c l)
  | _, [] => isTrue trivial
  | c, x :: l =>
    have := decidableBacked back (.link x) l
    inferInstanceAs (Decidable (back x = c ∧ Backed back (.link x) l))

section Walks

variable {ptr ptr' : Cell κ α → Option α} {c : Cell κ α} {a b l : List α} {x : α}

lemma leads_append : Leads ptr c (a ++ b) ↔ Leads ptr c a ∧ Leads ptr (after c a) b := by
  induction a generalizing c with
  | nil => simp [Leads, after]
  | cons x a ih => simp [Leads, after, ih, and_assoc]

@[simp] lemma after_append : after c (a ++ b) = after (after c a) b := by
  induction a generalizing c with
  | nil => rfl
  | cons x a ih => exact ih

lemma after_cases (c : Cell κ α) (a : List α) : after c a = c ∨ ∃ x ∈ a, after c a = .link x := by
  induction a generalizing c with
  | nil => exact .inl rfl
  | cons x a ih =>
    rcases ih (.link x) with same | ⟨y, member, eq⟩
    · exact .inr ⟨x, mem_cons_self, same⟩
    · exact .inr ⟨y, mem_cons_of_mem x member, eq⟩

lemma linked_append : Linked ptr c (a ++ b) ↔ Leads ptr c a ∧ Linked ptr (after c a) b := by
  simp [Linked, leads_append, and_assoc]

lemma linked_cons : Linked ptr c (x :: l) ↔ ptr c = some x ∧ Linked ptr (.link x) l := and_assoc

lemma linked_nil : Linked ptr c [] ↔ ptr c = none := ⟨And.right, fun last => ⟨trivial, last⟩⟩

/-- A linked list starts with what its first cell holds. -/
lemma Linked.first (linked : Linked ptr c l) : ptr c = l.head? := by
  cases l with
  | nil => exact linked.2
  | cons x l => exact linked.1.1

lemma Leads.congr (leads : Leads ptr c a) (same : ptr' c = ptr c)
    (links : ∀ x ∈ a, ptr' (.link x) = ptr (.link x)) : Leads ptr' c a := by
  induction a generalizing c with
  | nil => trivial
  | cons x a ih =>
    constructor
    · exact same.trans leads.1
    · exact ih leads.2 (links x mem_cons_self) fun y member => links y (mem_cons_of_mem x member)

lemma Linked.congr (linked : Linked ptr c l) (same : ptr' c = ptr c)
    (links : ∀ x ∈ l, ptr' (.link x) = ptr (.link x)) : Linked ptr' c l := by
  constructor
  · exact linked.1.congr same links
  · rcases after_cases c l with eq | ⟨x, member, eq⟩
    · rw [eq, same, ← eq]
      exact linked.2
    · rw [eq, links x member, ← eq]
      exact linked.2

/-- Only the cell at the end of a walk may be written without disturbing the walk. -/
lemma Leads.update [DecidableEq κ] [DecidableEq α] (leads : Leads ptr c a) (nodup : a.Nodup)
    (outside : ∀ x ∈ a, c ≠ .link x) (v : Option α) : Leads (update ptr (after c a) v) c a := by
  induction a generalizing c with
  | nil => trivial
  | cons x a ih =>
    obtain ⟨fresh, rest⟩ := nodup_cons.mp nodup
    have ahead : c ≠ after c (x :: a) := by
      rcases after_cases (.link x) a with eq | ⟨y, member, eq⟩
      · exact fun same => outside x mem_cons_self (same.trans eq)
      · exact fun same => outside y (mem_cons_of_mem x member) (same.trans eq)
    constructor
    · rw [update_of_ne ahead]
      exact leads.1
    · refine ih leads.2 rest fun y member same => fresh ?_
      cases same
      exact member

/-- The search stops at the first element that passes, and finds none only if none passes. -/
lemma seek_spec (test : α → Bool) (n : ℕ) (linked : Linked ptr c l) (enough : l.length < n) :
    (seek ptr test n c = none ∧ ∀ x ∈ l, test x = false) ∨
      ∃ a x b, l = a ++ x :: b ∧ seek ptr test n c = some (after c a, x) ∧ test x = true ∧
        ∀ y ∈ a, test y = false := by
  induction l generalizing c n with
  | nil =>
    obtain ⟨n, rfl⟩ := Nat.exists_eq_add_of_lt enough
    exact .inl ⟨by simp [seek, linked_nil.mp linked], by simp⟩
  | cons x l ih =>
    obtain ⟨n, rfl⟩ : ∃ m, n = m + 1 := ⟨n - 1, by simp at enough; omega⟩
    obtain ⟨here, rest⟩ := linked_cons.mp linked
    by_cases hit : test x = true
    · exact .inr ⟨[], x, l, rfl, by simp [seek, here, hit, after], hit, by simp⟩
    · have step : seek ptr test (n + 1) c = seek ptr test n (.link x) := by simp [seek, here, hit]
      rcases ih n rest (by simpa using enough) with ⟨none, pass⟩ | ⟨a, y, b, eq, found, ok, pass⟩
      · exact .inl ⟨step.trans none, by simpa [hit] using pass⟩
      · exact .inr ⟨x :: a, y, b, by simp [eq], step.trans found, ok, by simpa [hit] using pass⟩

lemma Linked.elements (linked : Linked ptr c l) (n : ℕ) (enough : l.length ≤ n) :
    elements ptr n c = l := by
  induction l generalizing c n with
  | nil => cases n <;> simp [LinkedLists.elements, linked_nil.mp linked]
  | cons x l ih =>
    obtain ⟨n, rfl⟩ : ∃ m, n = m + 1 := ⟨n - 1, by simp at enough; omega⟩
    obtain ⟨here, rest⟩ := linked_cons.mp linked
    simp [LinkedLists.elements, here, ih rest n (by simpa using enough)]

end Walks

section Back

variable {back back' : α → Cell κ α} {c : Cell κ α} {a b l : List α} {x : α}

lemma backed_append : Backed back c (a ++ b) ↔ Backed back c a ∧ Backed back (after c a) b := by
  induction a generalizing c with
  | nil => simp [Backed, after]
  | cons x a ih => simp [Backed, after, ih, and_assoc]

lemma Backed.congr (backed : Backed back c l) (same : ∀ x ∈ l, back' x = back x) :
    Backed back' c l := by
  induction l generalizing c with
  | nil => trivial
  | cons x l ih =>
    constructor
    · exact (same x mem_cons_self).trans backed.1
    · exact ih backed.2 fun y member => same y (mem_cons_of_mem x member)

lemma Backed.at (backed : Backed back c (a ++ x :: b)) : back x = after c a :=
  (backed_append.mp backed).2.1

variable [DecidableEq α]

lemma setBack_of_ne {y : Option α} (other : y ≠ some x) : setBack back y c x = back x := by
  cases y with
  | none => rfl
  | some y => exact update_of_ne (fun same => other (by rw [same])) ..

/-- The list after a new cell: its first element points back at that cell. -/
lemma Backed.move {c' : Cell κ α} (backed : Backed back c l) (nodup : l.Nodup) :
    Backed (setBack back l.head? c') c' l := by
  cases l with
  | nil => trivial
  | cons x l =>
    constructor
    · exact update_self ..
    · exact backed.2.congr fun y member => update_of_ne (fun same : y = x =>
        (nodup_cons.mp nodup).1 (same ▸ member)) ..

lemma Backed.remove (backed : Backed back c (a ++ x :: b)) (nodup : (a ++ x :: b).Nodup) :
    Backed (setBack back b.head? (back x)) c (a ++ b) := by
  obtain ⟨first, here, rest⟩ := backed_append.mp backed
  have parts := nodup_append'.mp nodup
  refine backed_append.mpr ⟨first.congr fun y member => setBack_of_ne fun same =>
    parts.2.2 member (mem_cons_of_mem x (mem_of_head? same)), ?_⟩
  rw [here]
  exact rest.move (nodup_cons.mp parts.2.1).2

lemma Backed.push {k : κ} (backed : Backed back (.head k) l) (nodup : l.Nodup) (fresh : x ∉ l) :
    Backed (update (setBack back l.head? (.link x)) x (.head k)) (.head k) (x :: l) := by
  constructor
  · exact update_self ..
  · exact (backed.move nodup).congr fun y member =>
      update_of_ne (fun same : y = x => fresh (same ▸ member)) ..

end Back

section Families

variable {ptr : Cell κ α → Option α} {L : κ → List α} {k : κ} {a b : List α} {x : α}

lemma Lists.head (lists : Lists ptr L) (k : κ) : ptr (.head k) = (L k).head? :=
  (lists.linked k).first

lemma Lists.at_after (lists : Lists ptr L) (here : L k = a ++ b) :
    ptr (after (.head k) a) = b.head? := by
  have linked := lists.linked k
  rw [here, linked_append] at linked
  exact linked.2.first

lemma Lists.next (lists : Lists ptr L) (here : L k = a ++ x :: b) : ptr (.link x) = b.head? := by
  have linked := lists.linked k
  rw [here, linked_append, linked_cons] at linked
  exact linked.2.2.first

lemma after_head_link {y : α} (eq : after (.head k) a = .link y) : y ∈ a := by
  rcases after_cases (.head k) a with same | ⟨z, member, link⟩
  · rw [same] at eq
    cases eq
  · rw [link] at eq
    cases eq
    exact member

lemma after_head_head {k' : κ} (eq : after (.head k) a = .head k') : k = k' := by
  rcases after_cases (.head k) a with same | ⟨z, member, link⟩
  · rw [same] at eq
    cases eq
    rfl
  · rw [link] at eq
    cases eq

variable [DecidableEq κ] [DecidableEq α]

/-- Writes to the links of elements on no list are not seen. -/
lemma Lists.fresh (lists : Lists ptr L) (fresh : ∀ k, x ∉ L k) (v : Option α) :
    Lists (update ptr (.link x) v) L where
  linked k := (lists.linked k).congr (update_of_ne (by simp) ..) fun y member => by
    refine update_of_ne (fun same => fresh k ?_) ..
    cases same
    exact member
  nodup := lists.nodup
  apart := lists.apart

/-- A write to a cell of one list leaves the others as they are. -/
lemma Lists.beside (lists : Lists ptr L) (here : L k = a ++ b) {k' : κ} (other : k' ≠ k)
    (v : Option α) : Linked (update ptr (after (.head k) a) v) (.head k') (L k') := by
  refine (lists.linked k').congr (update_of_ne (fun same => ?_) ..) fun y member =>
    update_of_ne (fun same => ?_) ..
  · exact other (after_head_head same.symm).symm
  · refine other (lists.apart k' k y member ?_)
    rw [here]
    exact mem_append_left b (after_head_link same.symm)

/-- Link an element that is on no list between two parts of a list. -/
lemma Lists.insert (lists : Lists ptr L) (here : L k = a ++ b) (fresh : ∀ k, x ∉ L k) :
    Lists (update (update ptr (.link x) (ptr (after (.head k) a)))
      (after (.head k) a) (some x)) (update L k (a ++ x :: b)) := by
  have marked := lists.fresh fresh (ptr (after (.head k) a))
  have split := marked.linked k
  rw [here, linked_append] at split
  have parts : a.Nodup ∧ b.Nodup ∧ a.Disjoint b := nodup_append'.mp (here ▸ lists.nodup k)
  have out : x ∉ a ++ b := here ▸ fresh k
  have apart_b : ∀ y ∈ x :: b, after (.head k) a ≠ .link y := by
    intro y member same
    rcases mem_cons.mp member with rfl | later
    · exact out (mem_append_left b (after_head_link same))
    · exact parts.2.2 (after_head_link same) later
  have tail : Linked (update (update ptr (.link x) (ptr (after (.head k) a)))
      (after (.head k) a) (some x)) (.link x) b := by
    have first : update ptr (.link x) (ptr (after (.head k) a)) (.link x) =
        update ptr (.link x) (ptr (after (.head k) a)) (after (.head k) a) := by
      rw [update_self, update_of_ne (apart_b x mem_cons_self)]
    have moved : Linked (update ptr (.link x) (ptr (after (.head k) a))) (.link x) b := by
      cases b with
      | nil => exact linked_nil.mpr (first.trans (linked_nil.mp split.2))
      | cons y b =>
        have rest := linked_cons.mp split.2
        exact linked_cons.mpr ⟨first.trans rest.1, rest.2⟩
    exact moved.congr (update_of_ne (apart_b x mem_cons_self).symm ..)
      fun y member => update_of_ne (apart_b y (mem_cons_of_mem x member)).symm ..
  constructor
  · intro k'
    by_cases same : k' = k
    · subst same
      rw [update_self, linked_append]
      constructor
      · exact split.1.update parts.1 (by simp) _
      · exact linked_cons.mpr ⟨update_self .., tail⟩
    · rw [update_of_ne same]
      exact marked.beside here same _
  · intro k'
    by_cases same : k' = k
    · subst same
      rw [update_self, nodup_middle]
      exact nodup_cons.mpr ⟨out, here ▸ lists.nodup k'⟩
    · rw [update_of_ne same]
      exact lists.nodup k'
  · have old : ∀ j y, y ∈ update L k (a ++ x :: b) j → y ∈ L j ∨ y = x ∧ j = k := by
      intro j y member
      by_cases same : j = k
      · subst same
        rw [update_self] at member
        rw [here]
        simp only [mem_append, mem_cons] at member ⊢
        tauto
      · rw [update_of_ne same] at member
        exact .inl member
    intro j j' y left right
    rcases old j y left with inJ | ⟨new, rfl⟩ <;> rcases old j' y right with inJ' | ⟨new', rfl⟩
    · exact lists.apart j j' y inJ inJ'
    · exact absurd inJ (new' ▸ fresh j)
    · exact absurd inJ' (new ▸ fresh j')
    · rfl

lemma Lists.push (lists : Lists ptr L) (k : κ) (fresh : ∀ k, x ∉ L k) :
    Lists (push ptr k x) (update L k (x :: L k)) :=
  lists.insert (a := []) rfl fresh

/-- Make the pointer to an element skip it. -/
lemma Lists.remove (lists : Lists ptr L) (here : L k = a ++ x :: b) :
    Lists (update ptr (after (.head k) a) (ptr (.link x))) (update L k (a ++ b)) := by
  have split := lists.linked k
  rw [here, linked_append, linked_cons] at split
  have parts := nodup_append'.mp (here ▸ lists.nodup k)
  have sub : ∀ j y, y ∈ update L k (a ++ b) j → y ∈ L j := by
    intro j y member
    by_cases same : j = k
    · subst same
      rw [update_self] at member
      rw [here]
      simp only [mem_append] at member ⊢
      tauto
    · rwa [update_of_ne same] at member
  constructor
  · intro k'
    by_cases same : k' = k
    · subst same
      rw [update_self, linked_append]
      constructor
      · exact split.1.update parts.1 (by simp) _
      · have links : ∀ y ∈ b, update ptr (after (.head k') a) (ptr (.link x)) (.link y) =
            ptr (.link y) := fun y member => update_of_ne (fun eq =>
          parts.2.2 (after_head_link eq.symm) (mem_cons_of_mem x member)) ..
        have rest := split.2.2
        cases b with
        | nil => exact linked_nil.mpr ((update_self ..).trans (linked_nil.mp rest))
        | cons y b =>
          have rest := linked_cons.mp rest
          refine linked_cons.mpr ⟨(update_self ..).trans rest.1, rest.2.congr
            (links y mem_cons_self) fun z member => links z (mem_cons_of_mem y member)⟩
    · rw [update_of_ne same]
      exact lists.beside here same _
  · intro k'
    by_cases same : k' = k
    · subst same
      rw [update_self]
      exact (nodup_cons.mp (nodup_middle.mp (here ▸ lists.nodup k'))).2
    · rw [update_of_ne same]
      exact lists.nodup k'
  · exact fun j j' y left right => lists.apart j j' y (sub j y left) (sub j' y right)

omit [DecidableEq α] in
/-- What is on the lists when an element has been taken out. -/
lemma Lists.mem_remove (lists : Lists ptr L) (here : L k = a ++ x :: b) (y : α) (k' : κ) :
    y ∈ update L k (a ++ b) k' ↔ y ∈ L k' ∧ y ≠ x := by
  have member : x ∈ L k := by simp [here]
  by_cases same : k' = k
  · subst same
    have nodup := lists.nodup k'
    rw [here] at nodup
    have fresh := (nodup_cons.mp (nodup_middle.mp nodup)).1
    rw [update_self, here]
    constructor
    · intro inside
      refine ⟨?_, fun same : y = x => fresh (same ▸ inside)⟩
      simp only [mem_append] at inside ⊢
      tauto
    · rintro ⟨inside, other⟩
      simp only [mem_append, mem_cons] at inside ⊢
      tauto
  · rw [update_of_ne same]
    constructor
    · intro inside
      refine ⟨inside, ?_⟩
      rintro rfl
      exact same (lists.apart k' k y inside member)
    · exact And.left

omit [DecidableEq α] in
lemma Lists.not_mem_remove (lists : Lists ptr L) (here : L k = a ++ x :: b) (k' : κ) :
    x ∉ update L k (a ++ b) k' :=
  fun inside => ((lists.mem_remove here x k').mp inside).2 rfl

omit [DecidableEq α] in
/-- What is on the lists when an element has been put in front of one. -/
lemma mem_push (L : κ → List α) (k : κ) (x y : α) (k' : κ) :
    y ∈ update L k (x :: L k) k' ↔ y ∈ L k' ∨ y = x ∧ k' = k := by
  by_cases same : k' = k
  · subst same
    simp [or_comm]
  · simp [same]

end Families

end LinkedLists
