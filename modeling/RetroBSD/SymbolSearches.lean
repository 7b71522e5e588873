import RetroBSD.LinkEditor

/-!
# Symbols that are entered and removed again

`lookup` and `enter` of `ld`, and the removal of the symbols of a library member that is not
used. The names end where a zero byte stands. A name is compared up to its own end only, so it is
taken for a symbol that goes on behind it.
-/

namespace LinkEditor

open ProbeTables List Function

abbrev Name := List UInt8

/-- The hash table, and the symbols with their places in it (`symhash`), the last one first. -/
structure Table where
  hshtab : Slots Name
  syms : List (ℕ × Name)

namespace Table

def enter (t : Table) (name : Name) : Table :=
  match search scheme t.hshtab name with
  | some hp =>
    if t.hshtab hp = none then
      ⟨update t.hshtab hp (some (t.syms.length, name)), (hp, name) :: t.syms⟩
    else t
  | none => t

/-- The loop at the end of `load1`. -/
def rip (savindex : ℕ) (hshtab : Slots Name) : List (ℕ × Name) → Table
  | [] => ⟨hshtab, []⟩
  | s :: syms =>
    if savindex < (s :: syms).length then rip savindex (update hshtab s.1 none) syms
    else ⟨hshtab, s :: syms⟩

inductive Reached : Table → Prop
  | start : Reached ⟨fun _ => none, []⟩
  | enter {t : Table} (name : Name) : Reached t → t.syms.length < NSYM → Reached (t.enter name)
  | rip {t : Table} (savindex : ℕ) : Reached t → Reached (rip savindex t.hshtab t.syms)

/-- Every symbol was put where its search ended, and none below it has been removed. -/
inductive Built : Table → Prop
  | nil : Built ⟨fun _ => none, []⟩
  | cons {t : Table} {p : ℕ} {name : Name} : Built t → search scheme t.hshtab name = some p →
      t.hshtab p = none → t.syms.length < NSYM →
      Built ⟨update t.hshtab p (some (t.syms.length, name)), (p, name) :: t.syms⟩

variable {t : Table} {p j : ℕ} {name : Name}

lemma Built.rip (savindex : ℕ) (built : Built t) : Built (rip savindex t.hshtab t.syms) := by
  induction built with
  | nil => exact .nil
  | @cons t p name before found vacant few ih =>
    rw [Table.rip]
    split_ifs
    · rw [update_idem, ← vacant, update_eq_self]
      exact ih
    · exact .cons before found vacant few

lemma built (reached : Reached t) : Built t := by
  induction reached with
  | start => exact .nil
  | @enter t name _ few ih =>
    rw [enter]
    split
    · split_ifs with vacant
      · exact .cons ih ‹_› vacant few
      · exact ih
    · exact ih
  | rip savindex _ ih => exact ih.rip savindex

namespace Built

lemma few (built : Built t) : t.syms.length ≤ NSYM := by
  cases built with
  | nil => exact Nat.zero_le _
  | cons _ _ _ few => exact few

lemma listed (built : Built t) {e : ℕ × Name} (here : t.hshtab j = some e) : (j, e.2) ∈ t.syms := by
  induction built with
  | nil => cases here
  | cons _ _ _ _ ih =>
    dsimp only at here
    rw [update_apply] at here
    split_ifs at here with same
    · cases here
      rw [same]
      exact mem_cons_self
    · exact mem_cons_of_mem _ (ih here)

/-- The search for a symbol ends at its place. -/
lemma found (built : Built t) (member : (p, name) ∈ t.syms) :
    search scheme t.hshtab name = some p ∧ (t.hshtab p).map Prod.snd = some name := by
  induction built with
  | nil => cases member
  | @cons t q new _ ends vacant _ ih =>
    have more : Extends t.hshtab (update t.hshtab q (some (t.syms.length, new))) := by
      intro i e here
      rw [update_of_ne (by rintro rfl; exact nomatch vacant.symm.trans here)]
      exact here
    rcases mem_cons.mp member with first | later
    · cases first
      have here := update_self p (some (t.syms.length, name)) t.hshtab
      have same : scheme.same name name := by simp [scheme]
      exact ⟨probe_extends more same ends vacant here, congrArg _ here⟩
    · obtain ⟨search_, entry⟩ := ih later
      obtain ⟨e, here, rfl⟩ := Option.map_eq_some_iff.mp entry
      exact ⟨probe_kept more search_ here, congrArg _ (more p e here)⟩

/-- Two slots are always empty. -/
lemma vacant (built : Built t) : ∃ j < NSYM + 2, t.hshtab j = none := by
  by_contra! full
  have all : range (NSYM + 2) ⊆ t.syms.map Prod.fst := by
    intro j inside
    obtain ⟨e, here⟩ := Option.ne_none_iff_exists'.mp (full j (mem_range.mp inside))
    exact mem_map_of_mem (built.listed here)
  have size := (subperm_of_subset nodup_range all).length_le
  have few := built.few
  rw [length_range, length_map] at size
  omega

end Built

/-- The search visits one slot after the other, all around the table. -/
lemma next_iterate (n : ℕ) {i : ℕ} (inside : i < NSYM + 2) :
    scheme.next^[n] i = (i + n) % (NSYM + 2) := by
  induction n with
  | zero => exact (Nat.mod_eq_of_lt inside).symm
  | succ n ih =>
    rw [iterate_succ_apply', ih]
    simp only [scheme, NSYM]
    split_ifs <;> omega

/-- A search always ends. It finds a symbol that was entered, and finds none otherwise, unless
the name is the beginning of another one. -/
theorem lookup_exact (reached : Reached t) (name : Name) :
    ∃ hp, search scheme t.hshtab name = some hp ∧
      (∀ p, (p, name) ∈ t.syms → hp = p ∧ (t.hshtab hp).map Prod.snd = some name) ∧
      ((∀ s ∈ t.syms, name <+: s.2 → s.2 = name) → (∀ p, (p, name) ∉ t.syms) →
        t.hshtab hp = none) := by
  have built := built reached
  obtain ⟨j, inside, empty⟩ := built.vacant
  have start : scheme.hash name < NSYM + 2 := Nat.add_lt_add_right (Nat.mod_lt _ (by decide)) 2
  have around : scheme.next^[(j + (NSYM + 2) - scheme.hash name) % (NSYM + 2)] (scheme.hash name) = j := by
    rw [next_iterate _ start]
    simp only [NSYM] at *
    omega
  obtain ⟨hp, ends⟩ : ∃ hp, search scheme t.hshtab name = some hp :=
    probe_ends (around ▸ empty) (Nat.mod_lt _ (by decide))
  refine ⟨hp, ends, fun p member => ?_, fun apart new => ?_⟩
  · obtain ⟨search_, entry⟩ := built.found member
    cases search_.symm.trans ends
    exact ⟨rfl, entry⟩
  · by_contra some_
    obtain ⟨e, here⟩ := Option.ne_none_iff_exists'.mp some_
    have listed := built.listed here
    have begins : name <+: e.2 := by simpa [scheme] using probe_same ends here
    exact new hp (apart _ listed begins ▸ listed)

theorem lookup_exact_other : ∃ t hp, Reached t ∧ search scheme t.hshtab [99] = some hp ∧
    t.hshtab hp = none :=
  have reached : Reached (enter ⟨fun _ => none, []⟩ [98]) := .enter [98] .start (by decide)
  have ⟨hp, ends, _, new⟩ := lookup_exact reached [99]
  ⟨_, hp, reached, ends, new (by decide) (by simp [enter, search, scheme, probe])⟩

/-- The name `b` is taken for `bzk`. -/
theorem prefix_found : ∃ t hp, Reached t ∧ search scheme t.hshtab [98] = some hp ∧
    t.hshtab hp = some (0, [98, 122, 107]) :=
  ⟨_, 580, .enter [98, 122, 107] .start (by decide), by decide, by decide⟩

end Table

end LinkEditor
