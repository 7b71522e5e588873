import RetroBSD.LinkSymbols

/-!
# The values of symbols in two ways of linking

The values that an executable has when it is linked from the files, and when it is linked from
what `ld -r` has made of them. They agree if and only if all commons are empty.
-/

namespace LinkEditor

open ObjectFiles List

/-! ### Symbols that the link editor defines -/

/-- An undefined symbol may have been defined. -/
def Defines (s s' : Nlist) : Prop :=
  s'.n_name = s.n_name ∧ (s.n_type ≠ extern_ .undf → s' = s) ∧
    (Known s.n_type → Known s'.n_type) ∧ (s.n_value < WORDS → s'.n_value < WORDS) ∧
    (s'.n_type.kind = .comm → s' = s)

/-- Symbols at these indices may have been defined. -/
def DefinedAt (indices : List ℕ) (symtab symtab' : List Nlist) : Prop :=
  ∀ j, (symtab[j]? = none ∧ symtab'[j]? = none) ∨ ∃ s s', symtab[j]? = some s ∧
    symtab'[j]? = some s' ∧ Defines s s' ∧ (j ∉ indices → s' = s)

lemma Defines.refl (s : Nlist) : Defines s s := ⟨rfl, fun _ => rfl, id, id, fun _ => rfl⟩

variable {symtab : List Nlist} {s : Nlist}

lemma Defines.trans {t u : Nlist} (one : Defines s t) (two : Defines t u) : Defines s u := by
  refine ⟨two.1.trans one.1, fun type => ?_, two.2.2.1 ∘ one.2.2.1, two.2.2.2.1 ∘ one.2.2.2.1,
    fun comm => ?_⟩
  · have same := one.2.1 type
    rw [same] at two
    exact two.2.1 type
  · have same := two.2.2.2.2 comm
    rw [same] at comm ⊢
    exact one.2.2.2.2 comm

lemma DefinedAt.trans {a b : List ℕ} {s t u : List Nlist} (one : DefinedAt a s t)
    (two : DefinedAt b t u) : DefinedAt (a ++ b) s u := by
  intro j
  rcases one j with ⟨empty, empty'⟩ | ⟨x, y, at_s, at_t, defines, same⟩
  · rcases two j with ⟨-, empty''⟩ | ⟨y, z, at_t, -⟩
    · exact .inl ⟨empty, empty''⟩
    · exact nomatch empty'.symm.trans at_t
  · rcases two j with ⟨empty, -⟩ | ⟨y', z, at_t', at_u, defines', same'⟩
    · exact nomatch empty.symm.trans at_t
    · cases Option.some.inj (at_t.symm.trans at_t')
      refine .inr ⟨x, z, at_s, at_u, defines.trans defines', fun outside => ?_⟩
      rw [mem_append, not_or] at outside
      exact (same' outside.2).trans (same outside.1)

lemma ldrsym_definedAt {symtab' : List Nlist} {sp : Option ℕ} {val : ℕ} {kind : Kind}
    (known : Known (extern_ kind)) (other : kind ≠ .comm)
    (done : ldrsym symtab sp val kind = some symtab') : DefinedAt sp.toList symtab symtab' := by
  intro j
  cases sp with
  | none =>
    cases done
    cases at_ : symtab[j]? with
    | none => exact .inl ⟨rfl, rfl⟩
    | some s => exact .inr ⟨s, s, rfl, rfl, .refl s, fun _ => rfl⟩
  | some i =>
    rw [ldrsym] at done
    split_ifs at done with undf
    cases done
    rw [getElem?_modify]
    cases at_ : symtab[j]? with
    | none => exact .inl ⟨rfl, rfl⟩
    | some s =>
      refine .inr ⟨s, _, rfl, rfl, ?_⟩
      by_cases here : i = j
      · subst here
        rw [at_] at undf
        have type : s.n_type = extern_ .undf := of_decide_eq_true undf
        simp only [if_true]
        refine ⟨⟨rfl, fun defined => absurd type defined, fun _ => known, fun _ => ?_,
          fun comm => absurd comm other⟩, fun outside => ?_⟩
        · exact Nat.mod_lt _ (by decide)
        · exact absurd (mem_singleton.mpr rfl) outside
      · simp only [if_neg here]
        exact ⟨.refl s, fun _ => trivial⟩

/-- The indices of the symbols that the link editor knows. -/
def specials (p : Pass1) : List ℕ :=
  match special p with
  | some at_ => at_.1.toList ++ at_.2.1.toList ++ at_.2.2.1.toList ++ at_.2.2.2.toList
  | none => []

lemma specials_length (p : Pass1) : (specials p).length ≤ 4 := by
  rw [specials]
  split
  · simp only [length_append]
    have one (o : Option ℕ) : o.toList.length ≤ 1 := by cases o <;> simp
    rename_i at_ _
    have h₁ := one at_.1
    have h₂ := one at_.2.1
    have h₃ := one at_.2.2.1
    have h₄ := one at_.2.2.2
    omega
  · exact Nat.zero_le _

lemma define_definedAt {p : Pass1} (done : define p = some symtab) :
    DefinedAt (specials p) p.symtab symtab := by
  obtain ⟨at_, special, rest⟩ := Option.bind_eq_some_iff.mp done
  obtain ⟨s₁, etext, rest⟩ := Option.bind_eq_some_iff.mp rest
  obtain ⟨s₂, edata, rest⟩ := Option.bind_eq_some_iff.mp rest
  obtain ⟨s₃, end_, gp⟩ := Option.bind_eq_some_iff.mp rest
  rw [specials, special]
  have text : Known (extern_ .text) := .inr (.inr (.inl rfl))
  have data : Known (extern_ .data) := .inr (.inr (.inr (.inl rfl)))
  have bss : Known (extern_ .bss) := .inr (.inr (.inr (.inr (.inl rfl))))
  exact (((ldrsym_definedAt text (by decide) etext).trans
    (ldrsym_definedAt data (by decide) edata)).trans
      (ldrsym_definedAt bss (by decide) end_)).trans (ldrsym_definedAt data (by decide) gp)

/-! ### Commons -/

lemma settle_comm (comm : s.n_type.kind = .comm) (a b c d : ℕ) :
    settle a b c d s = { s with n_type := extern_ .bss, n_value := (s.n_value + c) % WORDS } := by
  have other {k : Kind} (different : k ≠ .comm) : s.n_type ≠ extern_ k := by
    rintro type
    rw [type] at comm
    exact different comm
  rw [settle, if_neg (other (by decide)), if_neg (other (by decide)), if_neg (other (by decide)),
    if_pos comm]

/-- Equal values force every common to be empty. -/
lemma commons_empty {a b c d : ℕ} (words : ∀ s ∈ symtab, s.n_value < WORDS)
    (same : (allocate 0 symtab).1.map (fun s => (settle a b c d s).n_value) =
      symtab.map fun s => (settle a b c c s).n_value) :
    ∀ s ∈ symtab, s.n_type.kind = .comm → s.n_value = 0 := by
  induction symtab with
  | nil => exact fun s inside => absurd inside not_mem_nil
  | cons s symtab ih =>
    have later := fun t inside => words t (mem_cons_of_mem s inside)
    by_cases comm : s.n_type.kind = .comm
    · have first := settle_comm (s := { s with n_value := 0 % WORDS }) comm a b c d
      rw [allocate, if_pos comm, map_cons, map_cons, cons.injEq, first, settle_comm comm] at same
      have zero : s.n_value = 0 := by
        have word := words s mem_cons_self
        have equal := same.1
        simp only [WORDS] at word equal
        omega
      have size : whole (0 + s.n_value) = 0 := by
        rw [zero]
        rfl
      rw [size] at same
      intro t inside type
      rcases mem_cons.mp inside with rfl | old
      · exact zero
      · exact ih later same.2 t old type
    · rw [allocate, if_neg comm, map_cons, map_cons, cons.injEq] at same
      intro t inside type
      rcases mem_cons.mp inside with rfl | old
      · exact absurd type comm
      · exact ih later same.2 t old type

/-- Empty commons all stand at the same place. -/
lemma allocate_empty (empty : ∀ s ∈ symtab, s.n_type.kind = .comm → s.n_value = 0) :
    allocate 0 symtab = (symtab, 0) := by
  induction symtab with
  | nil => rfl
  | cons s symtab ih =>
    have rest := ih fun t inside => empty t (mem_cons_of_mem _ inside)
    rw [allocate]
    split_ifs with comm
    · have zero := empty s mem_cons_self comm
      have same : { s with n_value := 0 % WORDS } = s := by
        obtain ⟨name, type, value⟩ := s
        cases zero
        rfl
      have size : whole (0 + s.n_value) = 0 := by
        rw [zero]
        rfl
      simp only [size, rest, same]
    · simp only [rest]

lemma settle_uncommon (known : Known s.n_type) (a b c : ℕ) :
    settle a b c c (uncommon s) = settle a b c c s := by
  obtain ⟨name, type, value⟩ := s
  rcases known with rfl | rfl | rfl | rfl | rfl | rfl <;> simp [settle, uncommon, extern_]

/-! ### A symbol in both outputs -/

/-- What is added to the address of a word in this segment when it is linked at `b`. -/
def shift (b : ℕ) : RSegment → ℕ
  | .text | .data | .bss => b
  | _ => 0

/-- A symbol in the output of `ld -r`, and in an executable at `b`. -/
def Shifted (b : ℕ) (r l : Nlist) : Prop :=
  l.n_name = r.n_name ∧ undefined l.n_type = false ∧
    (r.n_type = extern_ .undf ∨ undefined r.n_type = false ∧ r.n_type = l.n_type ∧
      l.n_value = (r.n_value + shift b (reltype l.n_type.kind)) % WORDS)

lemma settle_shifted {s' : Nlist} (known : Known s.n_type) (word : s.n_value < WORDS)
    (defines : Defines s s') (defined : s'.n_type ≠ extern_ .undf) (b tsize dsize : ℕ) :
    Shifted b (settle 0 tsize (tsize + dsize) (tsize + dsize) s)
      (settle b (b + tsize) (b + tsize + dsize) (b + tsize + dsize) s') := by
  obtain ⟨name, same, known', -, -⟩ := defines
  refine ⟨?_, ?_, ?_⟩
  · rw [settle_name, settle_name, name]
  · have := known' known
    obtain ⟨name', type', value'⟩ := s'
    rcases this with rfl | rfl | rfl | rfl | rfl | rfl
    · exact absurd rfl defined
    all_goals simp [settle, undefined, extern_]
  · by_cases undf : s.n_type = extern_ .undf
    · left
      obtain ⟨name', type', value'⟩ := s
      cases undf
      simp [settle, extern_]
    · right
      rw [same undf]
      obtain ⟨name', type, value⟩ := s
      simp only [WORDS] at word
      rcases known with rfl | rfl | rfl | rfl | rfl | rfl
      · exact absurd rfl undf
      all_goals simp [settle, undefined, extern_, shift, reltype, WORDS]
      all_goals omega

/-! ### Both ways -/

/-- Every common is empty. -/
def Uncommon (p : Pass1) : Prop := ∀ s ∈ p.symtab, s.n_type.kind = .comm → s.n_value = 0

variable {b : ℕ} {p : Pass1} {symtab : List Nlist}

lemma definedAt_mem {indices : List ℕ} {symtab' : List Nlist}
    (defined : DefinedAt indices symtab symtab') {s' : Nlist} (inside : s' ∈ symtab') :
    ∃ s ∈ symtab, Defines s s' := by
  obtain ⟨j, entry⟩ := mem_iff_getElem?.mp inside
  rcases defined j with ⟨-, empty⟩ | ⟨s, t, old, new, defines, -⟩
  · exact nomatch empty.symm.trans entry
  · cases Option.some.inj (new.symm.trans entry)
    exact ⟨s, mem_of_getElem? old, defines⟩

lemma uncommon_iff (done : define p = some symtab) :
    Uncommon p ↔ ∀ s ∈ symtab, s.n_type.kind = .comm → s.n_value = 0 := by
  have defined := define_definedAt done
  constructor
  · intro empty s' inside comm
    obtain ⟨s, old, -, -, -, -, same⟩ := definedAt_mem defined inside
    have equal := same comm
    rw [equal] at comm ⊢
    exact empty s old comm
  · intro empty s inside comm
    obtain ⟨j, entry⟩ := mem_iff_getElem?.mp inside
    rcases defined j with ⟨vacant, -⟩ | ⟨t, s', old, new, defines, -⟩
    · exact nomatch vacant.symm.trans entry
    · cases Option.some.inj (old.symm.trans entry)
      have same : s' = s := by
        apply defines.2.1
        intro undf
        rw [undf] at comm
        exact nomatch comm
      rw [same] at new
      exact empty s (mem_of_getElem? new) comm

section

variable (sound : Sound p.symtab) (done : define p = some symtab)
include sound done

lemma sound_define : (∀ s ∈ symtab, Known s.n_type) ∧ ∀ s ∈ symtab, s.n_value < WORDS := by
  have defined := define_definedAt done
  constructor
  · intro s' inside
    obtain ⟨s, old, -, -, known, -⟩ := definedAt_mem defined inside
    exact known (sound.known s old)
  · intro s' inside
    obtain ⟨s, old, -, -, -, word, -⟩ := definedAt_mem defined inside
    exact word (sound.words s old)

/-- The symbols of the executable that is linked from the output of `ld -r`. -/
lemma again_symtab (n : ℕ) : (assign b false (p.again n) (symtab.map uncommon) 0).symtab =
      symtab.map (settle b (b + p.aligned) (b + p.aligned + p.dsize) (b + p.aligned + p.dsize)) := by
  have aligned : ((p.again n).tsize + 15) / 16 * 16 = p.aligned := aligned_again p n
  simp only [assign, aligned, map_map]
  apply map_congr_left
  intro s inside
  exact settle_uncommon ((sound_define sound done).1 s inside) _ _ _

/-- If both executables give the same values to the symbols, all commons are empty. -/
lemma uncommon_of_same (n : ℕ)
    (same : (assign b false (p.again n) (symtab.map uncommon) 0).symtab.map Nlist.n_value =
      (assign b false p (allocate 0 symtab).1 (allocate 0 symtab).2).symtab.map Nlist.n_value) :
    Uncommon p := by
  rw [again_symtab sound done, map_map] at same
  rw [uncommon_iff done]
  apply commons_empty (sound_define sound done).2
  rw [assign, map_map] at same
  exact same.symm

/-- With empty commons they have the same symbols. -/
lemma same_symtab (n : ℕ)
    (empty : Uncommon p) : (assign b false (p.again n) (symtab.map uncommon) 0).symtab =
      (assign b false p (allocate 0 symtab).1 (allocate 0 symtab).2).symtab := by
  rw [again_symtab sound done, allocate_empty ((uncommon_iff done).mp empty)]
  rfl

/-- A symbol in the output of `ld -r`, and in the executable that is linked from it. -/
lemma shifted_symtab (all : ∀ s ∈ symtab, s.n_type ≠ extern_ .undf) (n : ℕ) {i : ℕ} {r : Nlist}
    (entry : (middleR 0 p).symtab[i]? = some r) :
    ∃ l, (assign b false (p.again n) (symtab.map uncommon) 0).symtab[i]? = some l ∧
      Shifted b r l ∧ (i ∉ specials p → r.n_type ≠ extern_ .undf) := by
  rw [middleR_symtab, getElem?_map] at entry
  rw [again_symtab sound done, getElem?_map]
  rcases define_definedAt done i with ⟨vacant, -⟩ | ⟨s, s', old, new, defines, same⟩
  · simp [vacant] at entry
  · have inside := mem_of_getElem? old
    have inside' := mem_of_getElem? new
    rw [old] at entry
    rw [new]
    cases entry
    refine ⟨_, rfl, ?_, ?_⟩
    · exact settle_shifted (sound.known s inside) (sound.words s inside) defines (all s' inside') b
        p.aligned p.dsize
    · intro outside undf
      have equal := same outside
      rw [equal] at inside'
      apply all s inside'
      obtain ⟨name, type, value⟩ := s
      rcases sound.known _ inside with rfl | rfl | rfl | rfl | rfl | rfl
      · rfl
      all_goals simp [settle, extern_] at undf

end

end LinkEditor
