import RetroBSD.LinkSegments

/-!
# What `ld -r` writes

The sizes of the segments and the number of symbols in the output are those of the first pass,
and the output refers only to the symbols that `ld` itself defines.
-/

namespace LinkEditor

open ObjectFiles List Option
open Assembler (Reloc fgetrel fputrel)

/-! ### Sizes -/

lemma symreloc_ext (a b c : ℕ) (s : Nlist) : (symreloc a b c s).n_type.ext = s.n_type.ext := by
  obtain ⟨-, ⟨kind, ext, weak, loc⟩, -⟩ := s
  cases weak <;> cases loc <;> cases ext <;> cases kind <;> rfl

variable {symtab : List Nlist} {m : Module} {s : Nlist} {i n : ℕ}

/-- The second pass writes the local symbols that the first pass has counted. -/
lemma load2sym_counted {ctrel cdrel cbrel : ℕ} {t t' : ℕ × List Nlist}
    {q q' : ℕ × List (ℕ × ℕ) × List Nlist} (first : load1sym ctrel cdrel cbrel t s = some t')
    (second : load2sym m q s = some q') (plain : ∀ x ∈ q.2.2, x.n_type.ext = false) :
    t'.1 + q.2.2.length = t.1 + q'.2.2.length ∧ ∀ x ∈ q'.2.2, x.n_type.ext = false := by
  simp only [load2sym, symreloc_ext] at second
  rw [load1sym] at first
  by_cases ext : s.n_type.ext = true
  · rw [if_pos ext] at first second
    obtain ⟨-, -, rfl⟩ := map_eq_some_iff.mp first
    obtain ⟨i, -, rest⟩ := bind_eq_some_iff.mp second
    split_ifs at rest with undf room same
    · cases rest
      exact ⟨rfl, plain⟩
    · cases rest
      exact ⟨rfl, plain⟩
  · rw [if_neg ext] at first second
    cases first
    cases second
    constructor
    · simp only [length_append, length_singleton]
      omega
    · intro x inside
      rcases mem_append.mp inside with old | new
      · exact plain x old
      · cases mem_singleton.mp new
        rw [symreloc_ext]
        exact Bool.not_eq_true _ ▸ ext

lemma load2syms_counted {ctrel cdrel cbrel : ℕ} {syms : List Nlist}
    {t t' : ℕ × List Nlist} {q q' : ℕ × List (ℕ × ℕ) × List Nlist}
    (first : syms.foldlM (load1sym ctrel cdrel cbrel) t = some t')
    (second : syms.foldlM (load2sym m) q = some q') (plain : ∀ x ∈ q.2.2, x.n_type.ext = false) :
    t'.1 + q.2.2.length = t.1 + q'.2.2.length ∧ ∀ x ∈ q'.2.2, x.n_type.ext = false := by
  induction syms generalizing t q with
  | nil =>
    cases first
    cases second
    exact ⟨rfl, plain⟩
  | cons s syms ih =>
    obtain ⟨t₁, here, first⟩ := bind_eq_some_iff.mp first
    obtain ⟨q₁, here', second⟩ := bind_eq_some_iff.mp second
    obtain ⟨count, plain⟩ := load2sym_counted here here' plain
    obtain ⟨counts, plain⟩ := ih first second plain
    exact ⟨by omega, plain⟩

/-- The output of the second pass over the files that the first pass has read. -/
structure Measured (p q : Pass1) (out : Output) : Prop where
  text : q.tsize = p.tsize + W * out.text.length
  data : q.dsize = p.dsize + W * out.data.length
  count : q.nsym = p.nsym + out.syms.length
  plain : ∀ s ∈ out.syms, s.n_type.ext = false

lemma load2_measured {p q : Pass1} (passed : Passed p) {l : Link} {f : List UInt8 × Object}
    {out : Output} (first : load1 p f.2 = some q) (second : load2 l f = some out) :
    Measured p q out := by
  obtain ⟨t, syms, rest⟩ := bind_eq_some_iff.mp second
  obtain ⟨text, moved, rest⟩ := bind_eq_some_iff.mp rest
  obtain ⟨data, moved', rfl⟩ := map_eq_some_iff.mp rest
  obtain ⟨r, run, rfl⟩ := map_eq_some_iff.mp syms
  rw [load1] at first
  split_ifs at first
  obtain ⟨s, run', rfl⟩ := map_eq_some_iff.mp first
  obtain ⟨count, plain⟩ := load2syms_counted run' run fun x inside => absurd inside not_mem_nil
  have even : ∀ n, (W * n) % 4 = 0 := fun n => Nat.mul_mod_right 4 n
  constructor
  · have text := passed.text
    have size := even f.2.text.length
    simp only [relocate_length moved, Object.a_text]
    apply whole_eq
    omega
  · have data := passed.data
    have size := even f.2.data.length
    simp only [relocate_length moved', Object.a_data]
    apply whole_eq
    omega
  · simp only [length_cons, length_nil] at count ⊢
    omega
  · intro x inside
    rcases mem_cons.mp inside with rfl | inside
    · rfl
    · exact plain x inside

lemma pass2_measured {p q : Pass1} (passed : Passed p) {files : Files} {l : Link} {out : Output}
    (first : files.foldlM (fun p f => load1 p f.2) p = some q) (second : pass2 l files = some out) :
    Measured p q out := by
  induction files generalizing p l out with
  | nil =>
    cases first
    cases second
    exact ⟨rfl, rfl, rfl, fun x inside => absurd inside not_mem_nil⟩
  | cons f files ih =>
    obtain ⟨p₁, here, first⟩ := bind_eq_some_iff.mp first
    obtain ⟨one, here', rest⟩ := bind_eq_some_iff.mp second
    obtain ⟨more, later, rfl⟩ := map_eq_some_iff.mp rest
    have one_measured := load2_measured passed here here'
    have more_measured := ih (load1_passed passed here) first later
    constructor
    · rw [more_measured.text, one_measured.text, Output.append, length_append, Nat.mul_add]
      omega
    · rw [more_measured.data, one_measured.data, Output.append, length_append, Nat.mul_add]
      omega
    · rw [more_measured.count, one_measured.count, Output.append, length_append]
      omega
    · intro s inside
      rcases mem_append.mp inside with inside | inside
      · exact one_measured.plain s inside
      · exact more_measured.plain s inside

/-! ### References -/

/-- The symbols of an output that are not defined, by their index in the file and in the table. -/
def references (n : ℕ) : ℕ → List Nlist → List (ℕ × ℕ)
  | _, [] => []
  | i, s :: rest =>
    if s.n_type = extern_ .undf then (n + i, i) :: references n (i + 1) rest
    else references n (i + 1) rest

lemma mem_references {x : ℕ × ℕ}
    (inside : x ∈ references n i symtab) : x.1 = n + x.2 ∧ ∃ j s, x.2 = i + j ∧
      symtab[j]? = some s ∧ s.n_type = extern_ .undf := by
  induction symtab generalizing i with
  | nil => exact absurd inside not_mem_nil
  | cons s symtab ih =>
    have later (inside : x ∈ references n (i + 1) symtab) : x.1 = n + x.2 ∧
        ∃ j t, x.2 = i + j ∧ (s :: symtab)[j]? = some t ∧ t.n_type = extern_ .undf := by
      obtain ⟨index, j, t, place, entry, undf⟩ := ih inside
      exact ⟨index, j + 1, t, by omega, entry, undf⟩
    rw [references] at inside
    split_ifs at inside with undf
    · rcases mem_cons.mp inside with rfl | inside
      · exact ⟨rfl, 0, s, rfl, rfl, undf⟩
      · exact later inside
    · exact later inside

lemma references_increase (n i : ℕ) (symtab : List Nlist) :
    ((references n i symtab).map Prod.snd).Pairwise (· < ·) := by
  induction symtab generalizing i with
  | nil => exact List.Pairwise.nil
  | cons s symtab ih =>
    rw [references]
    split_ifs
    · rw [map_cons, pairwise_cons]
      refine ⟨fun j inside => ?_, ih _⟩
      obtain ⟨x, reference, rfl⟩ := mem_map.mp inside
      obtain ⟨-, j, -, place, -⟩ := mem_references reference
      omega
    · exact ih _

lemma find_references {j : ℕ} (entry : symtab[j]? = some s) (undf : s.n_type = extern_ .undf) :
    (references n i symtab).find? (·.1 = n + (i + j)) = some (n + (i + j), i + j) := by
  induction symtab generalizing i j with
  | nil => exact nomatch entry
  | cons t symtab ih =>
    rw [references]
    cases j with
    | zero =>
      cases entry
      rw [if_pos undf]
      exact find?_cons_of_pos (decide_eq_true rfl)
    | succ j =>
      have rest := ih (i := i + 1) entry
      rw [show i + 1 + j = i + (j + 1) by omega] at rest
      split_ifs
      · rw [find?_cons_of_neg, rest]
        rw [decide_eq_true_eq]
        omega
      · exact rest

/-- The output refers to few symbols. -/
lemma references_length {indices : List ℕ} (n : ℕ)
    (known : ∀ i s, symtab[i]? = some s → s.n_type = extern_ .undf → i ∈ indices) :
    (references n 0 symtab).length ≤ indices.length := by
  have distinct : ((references n 0 symtab).map Prod.snd).Nodup :=
    (references_increase n 0 symtab).imp Nat.ne_of_lt
  have inside : (references n 0 symtab).map Prod.snd ⊆ indices := by
    intro i inside
    obtain ⟨x, reference, rfl⟩ := mem_map.mp inside
    obtain ⟨-, j, s, place, entry, undf⟩ := mem_references reference
    rw [place, Nat.zero_add]
    exact known j s entry undf
  have bound := (subperm_of_subset distinct inside).length_le
  rwa [length_map] at bound

/-! ### The symbols of the output, linked again -/

/-- A symbol of the output is that of the table at an index, in the link that comes. -/
def Placed (m : Module) (i : ℕ) (s : Nlist) : Prop :=
  lookup m.symtab s.n_name = some (some i) ∧ Known s.n_type ∧
    (s.n_type = extern_ .undf ∨ undefined s.n_type = false ∧ ∃ sp, m.symtab[i]? = some sp ∧
      sp.n_type = s.n_type ∧ sp.n_value = (symreloc m.ctrel m.cdrel m.cbrel (stored s)).n_value)

lemma symreloc_plain {a b c : ℕ} (known : Known s.n_type)
    (defined : undefined s.n_type = false) : (symreloc a b c (stored s)).n_type = s.n_type := by
  obtain ⟨name, type, value⟩ := s
  rcases known with rfl | rfl | rfl | rfl | rfl | rfl
  · exact nomatch defined
  · rfl
  · rfl
  · rfl
  · rfl
  · exact nomatch defined

/-- The references are noted, and a definition is the one of the table. -/
lemma load2sym_placed (placed : Placed m i s)
    {locs : List (ℕ × ℕ)} (room : locs.length < NSYMPR ∨ s.n_type ≠ extern_ .undf)
    (syms : List Nlist) : load2sym m (n + i, locs, syms) (stored s) =
      some (n + i + 1, (if s.n_type = extern_ .undf then locs ++ [(n + i, i)] else locs), syms) := by
  obtain ⟨search, known, rest⟩ := placed
  have ext : (symreloc m.ctrel m.cdrel m.cbrel (stored s)).n_type.ext = true := by
    rw [symreloc_ext]
    exact known_ext known
  have search : lookup m.symtab (symreloc m.ctrel m.cdrel m.cbrel (stored s)).n_name = some (some i) := by
    rw [symreloc_name]
    exact search
  simp only [load2sym, if_pos ext, search, bind_some, id]
  rcases rest with undf | ⟨defined, sp, entry, type, value⟩
  · have reloc : (symreloc m.ctrel m.cdrel m.cbrel (stored s)).n_type = extern_ .undf := by
      have same : stored s = ⟨s.n_name, extern_ .undf, s.n_value % WORDS⟩ := by rw [stored, undf]
      rw [same]
      rfl
    have room := room.resolve_right (not_not.mpr undf)
    rw [reloc, if_pos (show undefined (extern_ .undf) = true from rfl), if_pos room, if_pos undf]
  · have other : s.n_type ≠ extern_ .undf := by
      rintro undf
      rw [undf] at defined
      cases defined
    rw [symreloc_plain known defined, defined, if_neg Bool.false_ne_true, if_neg other, entry, if_pos]
    simp [type, value]

lemma load2syms_placed
    (placed : ∀ j s, symtab[j]? = some s → Placed m (i + j) s) {locs : List (ℕ × ℕ)}
    (room : locs.length + (references n i symtab).length ≤ NSYMPR) (syms : List Nlist) :
    (symtab.map stored).foldlM (load2sym m) (n + i, locs, syms) =
      some (n + (i + symtab.length), locs ++ references n i symtab, syms) := by
  induction symtab generalizing i locs with
  | nil =>
    rw [references, append_nil]
    rfl
  | cons s symtab ih =>
    have here : Placed m i s := placed 0 s rfl
    have others j t (entry : symtab[j]? = some t) : Placed m (i + 1 + j) t := by
      have inside := placed (j + 1) t entry
      rwa [show i + (j + 1) = i + 1 + j by omega] at inside
    rw [references] at room
    rw [map_cons, foldlM_cons, references]
    have length : n + (i + (s :: symtab).length) = n + (i + 1 + symtab.length) := by
      rw [length_cons]
      omega
    rw [length]
    by_cases undf : s.n_type = extern_ .undf
    · rw [if_pos undf, length_cons] at room
      have fits : (locs ++ [(n + i, i)]).length + (references n (i + 1) symtab).length ≤ NSYMPR := by
        rw [length_append, length_singleton]
        omega
      have run := ih others fits
      rw [← append_cons] at run
      rw [load2sym_placed here (.inl (by omega)), if_pos undf, if_pos undf]
      exact run
    · rw [if_neg undf] at room
      rw [load2sym_placed here (.inr undf), if_neg undf, if_neg undf]
      exact ih others room

lemma load2syms_plain {syms : List Nlist} (plain : ∀ s ∈ syms, s.n_type.ext = false)
    (q : ℕ × List (ℕ × ℕ) × List Nlist) :
    ∃ more, syms.foldlM (load2sym m) q = some (q.1 + syms.length, q.2.1, more) := by
  induction syms generalizing q with
  | nil => exact ⟨q.2.2, rfl⟩
  | cons s syms ih =>
    have ext : ¬ (symreloc m.ctrel m.cdrel m.cbrel s).n_type.ext = true := by
      rw [symreloc_ext, plain s mem_cons_self]
      exact Bool.false_ne_true
    obtain ⟨more, run⟩ := ih (fun t inside => plain t (mem_cons_of_mem _ inside)) _
    refine ⟨more, ?_⟩
    rw [foldlM_cons, load2sym, if_neg ext]
    change syms.foldlM _ _ = _
    rw [run, length_cons]
    congr 2
    omega

end LinkEditor
