import RetroBSD.Processes

/-!
# The search for a process id

`scan` passes over an id only if it is the id or the process group of an entry,
and it lowers `pidchecked` to every number in use above the candidate. So the
search ends, and what it returns is clear of every entry it has seen, with one
exception: when an entry makes the candidate grow by one, the entry's other
number is not compared with the new candidate.
-/

namespace Processes

open List

variable {procs : List Proc} {mpid pidchecked low : ℤ}

/-- A number is outside of the ids that need no check. -/
def Clear (v mpid pidchecked : ℤ) : Prop := v < mpid ∨ pidchecked ≤ v

/-- Neither the id nor the group of an entry is among the ids that need no check. -/
def Proc.Clear (p : Proc) (mpid pidchecked : ℤ) : Prop :=
  Processes.Clear p.p_pid mpid pidchecked ∧ Processes.Clear p.p_pgrp mpid pidchecked

/-- The id and the group of an entry do not follow each other from `low` on. -/
def Proc.Spread (p : Proc) (low : ℤ) : Prop :=
  ¬ (low ≤ p.p_pid ∧ p.p_pgrp = p.p_pid + 1) ∧ ¬ (low ≤ p.p_pgrp ∧ p.p_pid = p.p_pgrp + 1)

instance (p : Proc) (low : ℤ) : Decidable (p.Spread low) :=
  inferInstanceAs (Decidable (¬ (_ ∧ _) ∧ ¬ (_ ∧ _)))

/-- A number is the id or the group of an entry. -/
def Used (procs : List Proc) (v : ℤ) : Prop := ∃ p ∈ procs, p.p_pid = v ∨ p.p_pgrp = v

lemma Proc.Clear.mono {p : Proc} {mpid' pidchecked' : ℤ} (clear : p.Clear mpid pidchecked)
    (up : mpid ≤ mpid') (down : pidchecked' ≤ pidchecked) : p.Clear mpid' pidchecked' := by
  unfold Proc.Clear Processes.Clear at *
  omega

/-- The bounds after an entry has been looked at. -/
lemma scan_cons (low : ℤ) (child : Proc) (rest : List Proc) (below : mpid < pidchecked) :
    (∃ next, next = mpid + 1 ∧ next = pidchecked ∧ Used [child] mpid ∧
        scan (child :: rest) mpid pidchecked = (next, pidchecked, true)) ∨
      ∃ next bound, scan (child :: rest) mpid pidchecked = scan rest next bound ∧
        mpid ≤ next ∧ next < bound ∧ bound ≤ pidchecked ∧
        (∀ v, mpid ≤ v → v < next → Used [child] v) ∧
        (mpid ≥ low → child.Spread low → child.Clear next bound) := by
  by_cases hit : child.p_pid = mpid ∨ child.p_pgrp = mpid
  · by_cases full : mpid + 1 ≥ pidchecked
    · left
      refine ⟨mpid + 1, rfl, by omega, ⟨child, mem_singleton_self _, hit⟩, ?_⟩
      simp [scan, hit, full]
    · right
      refine ⟨mpid + 1, _, by simp only [scan, hit, if_true, full]; rfl, by omega, ?_, ?_, ?_, ?_⟩
      · split_ifs <;> omega
      · split_ifs <;> omega
      · intro v from_ to_
        obtain rfl : v = mpid := by omega
        exact ⟨child, mem_singleton_self _, hit⟩
      · unfold Proc.Spread Proc.Clear Processes.Clear
        intro above spread
        split_ifs <;> omega
  · right
    refine ⟨mpid, _, by simp only [scan, hit, if_false, false_and]; rfl, le_rfl, ?_, ?_, ?_, ?_⟩
    · split_ifs <;> omega
    · split_ifs <;> omega
    · omega
    · unfold Proc.Clear Processes.Clear
      intro _ _
      split_ifs <;> omega

lemma scan_spec (low : ℤ) (procs : List Proc) (below : mpid < pidchecked) :
    let result := scan procs mpid pidchecked
    mpid ≤ result.1 ∧ result.1 ≤ result.2.1 ∧ result.2.1 ≤ pidchecked ∧
      (∀ v, mpid ≤ v → v < result.1 → Used procs v) ∧
      (result.2.2 = true → mpid < result.1 ∧ result.1 = result.2.1) ∧
      (result.2.2 = false → result.1 < result.2.1 ∧
        (mpid ≥ low → (∀ p ∈ procs, p.Spread low) → ∀ p ∈ procs, p.Clear result.1 result.2.1)) := by
  induction procs generalizing mpid pidchecked with
  | nil => simpa [scan] using ⟨below.le, fun v from_ to_ => absurd from_ (by omega), below⟩
  | cons child rest ih =>
    have grow : ∀ v, Used [child] v → Used (child :: rest) v := by
      rintro v ⟨p, member, eq⟩
      exact ⟨p, by simpa using .inl (mem_singleton.mp member), eq⟩
    rcases scan_cons low child rest below with
      ⟨next, up, full, used, eq⟩ | ⟨next, bound, eq, up, room, down, passed, clear⟩
    · simp only [eq]
      refine ⟨by omega, by omega, le_rfl, fun v from_ to_ => ?_, by omega, by simp⟩
      obtain rfl : v = mpid := by omega
      exact grow v used
    · obtain ⟨mono, le, down', passed', again, done⟩ := ih room
      simp only [eq]
      refine ⟨by omega, le, by omega, fun v from_ to_ => ?_, fun retry => ?_, fun stop => ?_⟩
      · rcases lt_or_ge v next with before | later
        · exact grow v (passed v from_ before)
        · obtain ⟨p, member, eq⟩ := passed' v later to_
          exact ⟨p, mem_cons_of_mem child member, eq⟩
      · obtain ⟨more, eq⟩ := again retry
        exact ⟨by omega, eq⟩
      · obtain ⟨less, rests⟩ := done stop
        refine ⟨less, fun above spread p member => ?_⟩
        rcases mem_cons.mp member with rfl | member
        · exact (clear above (spread p mem_cons_self)).mono mono down'
        · exact rests (by omega) (fun q later => spread q (mem_cons_of_mem child later)) p member

/-- A table of processes leaves most ids unused. -/
lemma exists_unused (few : procs.length ≤ NPROC) :
    ∃ f : ℤ, 100 ≤ f ∧ f < 30000 ∧ ¬ Used procs f := by
  have card : (procs.map Proc.p_pid ++ procs.map Proc.p_pgrp).toFinset.card <
      (Finset.Ico (100 : ℤ) 30000).card := by
    have := toFinset_card_le (procs.map Proc.p_pid ++ procs.map Proc.p_pgrp)
    simp only [length_append, length_map, Int.card_Ico, NPROC] at this few ⊢
    omega
  obtain ⟨f, range, unused⟩ := Finset.exists_mem_notMem_of_card_lt_card card
  rw [Finset.mem_Ico] at range
  refine ⟨f, range.1, range.2, fun ⟨p, member, eq⟩ => unused ?_⟩
  rw [mem_toFinset, mem_append, mem_map, mem_map]
  rcases eq with eq | eq
  · exact .inl ⟨p, member, eq⟩
  · exact .inr ⟨p, member, eq⟩

/-- The search does not go past an unused id. -/
lemma choose_before {f : ℤ} (small : f < 30000) (unused : ¬ Used procs f) (n : ℕ)
    (start : mpid ≤ f) (enough : (f - mpid).toNat < n) :
    ∃ result, choose procs n mpid pidchecked = some result := by
  induction n generalizing mpid pidchecked with
  | zero => omega
  | succ n ih =>
    simp only [choose, if_neg (show ¬ mpid ≥ 30000 by omega)]
    by_cases check : mpid ≥ pidchecked
    · obtain ⟨_, _, _, passed, again, _⟩ := scan_spec 0 procs (show mpid < 30000 by omega)
      split_ifs with retry
      · have more := (again retry).1
        have up : (scan procs mpid 30000).1 ≤ f := by
          by_contra beyond
          exact unused (passed f start (by omega))
        exact ih up (by omega)
      · exact ⟨_, rfl⟩
    · rw [if_neg check]
      exact ⟨_, rfl⟩

/-- The search ends, since some id is always unused. -/
lemma choose_total {f : ℤ} (large : 100 ≤ f) (small : f < 30000) (unused : ¬ Used procs f) (n : ℕ)
    (start : mpid ≤ 30000) (enough : (30000 - mpid).toNat + 30000 < n) :
    ∃ result, choose procs n mpid pidchecked = some result := by
  induction n generalizing mpid pidchecked with
  | zero => omega
  | succ n ih =>
    by_cases wrap : mpid ≥ 30000
    · have same : choose procs (n + 1) mpid pidchecked = choose procs (n + 1) 100 0 := by
        simp [choose, wrap]
      rw [same]
      exact choose_before small unused _ large (by omega)
    · simp only [choose, if_neg wrap]
      by_cases check : mpid ≥ pidchecked
      · obtain ⟨_, le, bound, _, again, _⟩ := scan_spec 0 procs (show mpid < 30000 by omega)
        split_ifs with retry
        · have more := (again retry).1
          exact ih (by omega) (by omega)
        · exact ⟨_, rfl⟩
      · rw [if_neg check]
        exact ⟨_, rfl⟩

lemma choose_known (procs : List Proc) (n : ℕ) (small : mpid < 30000) (known : mpid < pidchecked) :
    choose procs (n + 1) mpid pidchecked = some (mpid, pidchecked) := by
  rw [choose, if_neg (not_le.mpr small)]
  exact if_neg (not_le.mpr known)

/-- What the search returns: an id in range, and a bound below which no number in use lies. -/
lemma choose_spec (n : ℕ) {result : ℤ × ℤ} (low : ℤ) (atMost : low ≤ 100) (start : low ≤ mpid)
    (bound : pidchecked ≤ 30000) (done : choose procs n mpid pidchecked = some result) :
    low ≤ result.1 ∧ result.1 < result.2 ∧ result.2 ≤ 30000 ∧
      ((∀ p ∈ procs, p.Spread low) → (∀ p ∈ procs, p.Clear mpid pidchecked) →
        ∀ p ∈ procs, p.Clear result.1 result.2) := by
  have scanned : ∀ m : ℤ, low ≤ m → m < 30000 → ∀ n,
      (∀ {m c : ℤ}, low ≤ m → c ≤ 30000 → choose procs n m c = some result →
        low ≤ result.1 ∧ result.1 < result.2 ∧ result.2 ≤ 30000 ∧
          ((∀ p ∈ procs, p.Spread low) → (∀ p ∈ procs, p.Clear m c) →
            ∀ p ∈ procs, p.Clear result.1 result.2)) →
      (if (scan procs m 30000).2.2 then
          choose procs n (scan procs m 30000).1 (scan procs m 30000).2.1
        else some ((scan procs m 30000).1, (scan procs m 30000).2.1)) = some result →
      low ≤ result.1 ∧ result.1 < result.2 ∧ result.2 ≤ 30000 ∧
        ((∀ p ∈ procs, p.Spread low) → ∀ p ∈ procs, p.Clear result.1 result.2) := by
    intro m above room n ih done
    obtain ⟨mono, -, down, _, again, stop⟩ := scan_spec low procs room
    split_ifs at done with retry
    · obtain ⟨-, full⟩ := again retry
      obtain ⟨a, b, c, clear⟩ := ih (by omega) down done
      refine ⟨a, b, c, fun spread => clear spread fun p _ => ?_⟩
      unfold Proc.Clear Processes.Clear
      omega
    · cases done
      obtain ⟨less, clear⟩ := stop (by simpa using retry)
      exact ⟨by simpa using above.trans mono, less, down, clear above⟩
  induction n generalizing mpid pidchecked with
  | zero => simp [choose] at done
  | succ n ih =>
    simp only [choose] at done
    by_cases wrap : mpid ≥ 30000
    · simp only [if_pos wrap] at done
      obtain ⟨a, b, c, clear⟩ := scanned 100 atMost (by decide) n ih done
      exact ⟨a, b, c, fun spread _ => clear spread⟩
    · simp only [if_neg wrap] at done
      by_cases check : mpid ≥ pidchecked
      · rw [if_pos check] at done
        obtain ⟨a, b, c, clear⟩ := scanned mpid start (by omega) n ih done
        exact ⟨a, b, c, fun spread _ => clear spread⟩
      · rw [if_neg check] at done
        cases done
        exact ⟨start, by simpa using check, bound, fun _ clear => clear⟩

end Processes
