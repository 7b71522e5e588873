import Mathlib.Tactic

/-!
# Tables that are searched from slot to slot

A hash table without deletions: a search starts at the slot of the key and goes on until a slot
is empty or holds an entry that the key is taken to be the same as. What is found once is
found ever after, whatever is entered later.
-/

namespace ProbeTables

open List Option

variable {κ : Type}

/-- How a table is searched: the first slot of a key, the slot behind a slot, when a key is
taken for another, and how many slots there are. -/
structure Scheme (κ : Type) where
  hash : κ → ℕ
  next : ℕ → ℕ
  same : κ → κ → Bool
  slots : ℕ

abbrev Slots (κ : Type) := ℕ → Option (ℕ × κ)

/-- The slot at which the search ends. -/
def probe (c : Scheme κ) (t : Slots κ) (key : κ) : ℕ → ℕ → Option ℕ
  | 0, _ => none
  | fuel + 1, i =>
    match t i with
    | none => some i
    | some e => if c.same key e.2 then some i else probe c t key fuel (c.next i)

def search (c : Scheme κ) (t : Slots κ) (key : κ) : Option ℕ := probe c t key c.slots (c.hash key)

/-- An entry goes to the empty slot at which its search ends. -/
def place (c : Scheme κ) (t : Slots κ) (e : ℕ × κ) : Slots κ :=
  match search c t e.2 with
  | some i => if t i = none then Function.update t i (some e) else t
  | none => t

/-- The table after the keys have been entered in order. -/
def entered (c : Scheme κ) (keys : List κ) : Slots κ :=
  keys.zipIdx.foldl (fun t p => place c t (p.2, p.1)) fun _ => none

/-- The number of the entry that is found, or nothing if the search ends at an empty slot. -/
def lookup (c : Scheme κ) (keys : List κ) (key : κ) : Option (Option ℕ) :=
  (search c (entered c keys) key).map fun i => (entered c keys i).map Prod.fst

/-- Every key was new when it was entered. -/
def Fresh (c : Scheme κ) (keys : List κ) : Prop :=
  ∀ i k, keys[i]? = some k → lookup c (keys.take i) k = some none

/-- The second table has all entries of the first. -/
def Extends (t u : Slots κ) : Prop := ∀ i e, t i = some e → u i = some e

variable {c : Scheme κ} {t u : Slots κ}

lemma Extends.trans {v : Slots κ} (one : Extends t u) (two : Extends u v) : Extends t v :=
  fun i e here => two i e (one i e here)

lemma extends_place (c : Scheme κ) (t : Slots κ) (e : ℕ × κ) : Extends t (place c t e) := by
  intro i d here
  rw [place]
  cases search c t e.2 with
  | none => exact here
  | some j =>
    simp only
    split_ifs with vacant
    · have other : i ≠ j := by
        rintro rfl
        exact nomatch vacant.symm.trans here
      rw [Function.update_of_ne other]
      exact here
    · exact here

lemma entered_snoc (c : Scheme κ) (keys : List κ) (k : κ) :
    entered c (keys ++ [k]) = place c (entered c keys) (keys.length, k) := by
  rw [entered, zipIdx_append, foldl_append, Nat.zero_add]
  rfl

lemma extends_append (c : Scheme κ) (keys more : List κ) :
    Extends (entered c keys) (entered c (keys ++ more)) := by
  induction more generalizing keys with
  | nil =>
    rw [append_nil]
    exact fun _ _ here => here
  | cons k more ih =>
    have step := extends_place c (entered c keys) (keys.length, k)
    rw [← entered_snoc] at step
    have rest := ih (keys ++ [k])
    rw [append_assoc] at rest
    exact step.trans rest

variable {keys : List κ} {key : κ} {i j : ℕ} {e : ℕ × κ}

lemma probe_vacant {fuel : ℕ} (slot : t i = none) : probe c t key (fuel + 1) i = some i := by
  rw [probe, slot]

lemma probe_taken {fuel : ℕ} (slot : t i = some e) : probe c t key (fuel + 1) i =
    if c.same key e.2 then some i else probe c t key fuel (c.next i) := by
  rw [probe, slot]

/-- A search that ended at an empty slot ends there again, once the key is in it. -/
lemma probe_extends (more : Extends t u) (same : c.same key e.2 = true)
    {fuel : ℕ} (found : probe c t key fuel i = some j) (vacant : t j = none)
    (here : u j = some e) : probe c u key fuel i = some j := by
  induction fuel generalizing i with
  | zero => exact nomatch found
  | succ fuel ih =>
    cases slot : t i with
    | none =>
      rw [probe_vacant slot] at found
      cases some.inj found
      rw [probe_taken here]
      exact if_pos same
    | some d =>
      rw [probe_taken slot] at found
      rw [probe_taken (more i d slot)]
      split_ifs at found with equal
      · cases some.inj found
        exact nomatch slot.symm.trans vacant
      · rw [if_neg equal]
        exact ih found

lemma probe_kept (more : Extends t u) {fuel : ℕ}
    (found : probe c t key fuel i = some j) (here : t j = some e) :
    probe c u key fuel i = some j := by
  induction fuel generalizing i with
  | zero => exact nomatch found
  | succ fuel ih =>
    cases slot : t i with
    | none =>
      rw [probe_vacant slot] at found
      cases some.inj found
      exact nomatch slot.symm.trans here
    | some d =>
      rw [probe_taken slot] at found
      rw [probe_taken (more i d slot)]
      split_ifs at found ⊢
      · exact found
      · exact ih found

/-- A search that ends at an entry takes the key for it. -/
lemma probe_same {fuel : ℕ} (found : probe c t key fuel i = some j) (here : t j = some e) :
    c.same key e.2 := by
  induction fuel generalizing i with
  | zero => exact nomatch found
  | succ fuel ih =>
    cases slot : t i with
    | none =>
      rw [probe_vacant slot] at found
      cases found
      exact nomatch slot.symm.trans here
    | some d =>
      rw [probe_taken slot] at found
      split_ifs at found with equal
      · cases found
        cases slot.symm.trans here
        exact equal
      · exact ih found

/-- A search ends if it comes to an empty slot. -/
lemma probe_ends {n fuel : ℕ} (vacant : t (c.next^[n] i) = none) (enough : n < fuel) :
    ∃ j, probe c t key fuel i = some j := by
  induction fuel generalizing i n with
  | zero => exact nomatch enough
  | succ fuel ih =>
    cases slot : t i with
    | none => exact ⟨i, probe_vacant slot⟩
    | some d =>
      rw [probe_taken slot]
      split_ifs
      · exact ⟨i, rfl⟩
      · cases n with
        | zero => exact nomatch slot.symm.trans vacant
        | succ n => exact ih vacant (by omega)

lemma entered_lt (here : entered c keys j = some e) : e.1 < keys.length := by
  induction keys using reverseRecOn with
  | nil => exact nomatch here
  | append_singleton keys k ih =>
    rw [length_append]
    have old here : e.1 < keys.length + 1 := Nat.lt_succ_of_lt (ih here)
    rw [entered_snoc, place] at here
    cases ends : search c _ k with
    | none =>
      rw [ends] at here
      exact old here
    | some i =>
      rw [ends] at here
      simp only at here
      split_ifs at here
      · rw [Function.update_apply] at here
        split_ifs at here
        · cases here
          exact Nat.lt_succ_self _
        · exact old here
      · exact old here

lemma lookup_lt {n : ℕ} (found : lookup c keys key = some (some n)) : n < keys.length := by
  obtain ⟨j, -, entry⟩ := map_eq_some_iff.mp found
  obtain ⟨e, here, rfl⟩ := map_eq_some_iff.mp entry
  exact entered_lt here

/-- What is found is found again, whatever came later. -/
lemma lookup_append {n : ℕ} (more : List κ)
    (found : lookup c keys key = some (some n)) : lookup c (keys ++ more) key = some (some n) := by
  obtain ⟨j, search_, entry⟩ := map_eq_some_iff.mp found
  obtain ⟨e, here, rfl⟩ := map_eq_some_iff.mp entry
  have extends_ := extends_append c keys more
  rw [lookup, search, probe_kept extends_ search_ here, map_some, extends_ j e here]
  rfl

/-- A key that was new when it was entered is found as itself, whatever came later. -/
lemma lookup_fresh (refl : ∀ k, c.same k k = true) (fresh : Fresh c keys)
    {k : κ} (entry : keys[i]? = some k) : lookup c keys k = some (some i) := by
  obtain ⟨inside, rfl⟩ := List.getElem?_eq_some_iff.mp entry
  obtain ⟨j, found, empty⟩ := map_eq_some_iff.mp (fresh i keys[i] entry)
  have vacant : entered c (keys.take i) j = none := map_eq_none_iff.mp empty
  have split : keys = keys.take i ++ [keys[i]] ++ keys.drop (i + 1) := by
    rw [append_assoc, singleton_append, getElem_cons_drop, take_append_drop]
  have now : entered c (keys.take i ++ [keys[i]]) j = some (i, keys[i]) := by
    rw [entered_snoc, place]
    simp only [found, vacant, if_true, Function.update_self, length_take]
    rw [Nat.min_eq_left (Nat.le_of_lt inside)]
  have later : entered c keys j = some (i, keys[i]) := by
    have more := extends_append c (keys.take i ++ [keys[i]]) (keys.drop (i + 1))
    rw [← split] at more
    exact more j _ now
  have extends_ : Extends (entered c (keys.take i)) (entered c keys) := by
    have more := extends_append c (keys.take i) (keys.drop i)
    rwa [take_append_drop] at more
  rw [lookup, search, probe_extends extends_ (refl keys[i]) found vacant later, map_some, later]
  rfl

lemma fresh_snoc {k : κ} (fresh : Fresh c keys)
    (new : lookup c keys k = some none) : Fresh c (keys ++ [k]) := by
  intro i d entry
  rcases Nat.lt_trichotomy i keys.length with less | rfl | more
  · rw [getElem?_append_left less] at entry
    rw [take_append_of_le_length (Nat.le_of_lt less)]
    exact fresh i d entry
  · rw [getElem?_append_right (Nat.le_refl _), Nat.sub_self] at entry
    cases some.inj entry
    rw [take_left' rfl]
    exact new
  · rw [getElem?_eq_none (by rw [length_append, length_singleton]; omega)] at entry
    exact nomatch entry

end ProbeTables
