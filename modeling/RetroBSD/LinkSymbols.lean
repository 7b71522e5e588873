import RetroBSD.LinkEditor

/-!
# The symbol table of the link editor

What the first pass leaves in the symbol table, and what a second link editor finds in the
symbols that `ld -r` has written: the same table, but for the commons, which have become bss
symbols whose size is taken for their address.
-/

namespace LinkEditor

open ObjectFiles List Option

/-! ### The table after the first pass -/

/-- The types in the table. -/
def Known (t : NType) : Prop :=
  t = extern_ .undf ∨ t = extern_ .abs ∨ t = extern_ .text ∨ t = extern_ .data ∨
    t = extern_ .bss ∨ t = extern_ .comm

/-- Every symbol was entered once, and has a known type. -/
structure Sound (symtab : List Nlist) : Prop where
  fresh : ProbeTables.Fresh scheme (keys symtab)
  room : symtab.length ≤ NSYM
  known : ∀ s ∈ symtab, Known s.n_type
  words : ∀ s ∈ symtab, s.n_value < WORDS

variable {syms symtab : List Nlist} {cursym s : Nlist} {f : Nlist → Nlist} {p : Pass1}
  {cbrel cdrel ctrel n : ℕ}

lemma symreloc_known (ctrel cdrel cbrel : ℕ) (ext : s.n_type.ext = true) :
    Known (symreloc ctrel cdrel cbrel s).n_type := by
  obtain ⟨name, ⟨kind, _, weak, loc⟩, value⟩ := s
  cases ext
  cases weak <;> cases loc <;> cases kind <;> simp [symreloc, Known, extern_]

lemma symreloc_words (ctrel cdrel cbrel : ℕ) (word : s.n_value < WORDS) :
    (symreloc ctrel cdrel cbrel s).n_value < WORDS := by
  have mod n : n % WORDS < WORDS := Nat.mod_lt _ (by decide)
  rw [symreloc]
  split
  · exact mod _
  · exact mod _
  · exact mod _
  · exact word
  · exact word
  · split_ifs
    · exact word
    · exact word

lemma symreloc_name (ctrel cdrel cbrel : ℕ) (s : Nlist) :
    (symreloc ctrel cdrel cbrel s).n_name = s.n_name := by
  rw [symreloc]
  split <;> try rfl
  split_ifs <;> rfl

lemma merge_name (sp cursym : Nlist) : (merge sp cursym).n_name = sp.n_name := by
  rw [merge]
  split_ifs <;> rfl

lemma merge_known {sp : Nlist} (old : Known sp.n_type) (new : Known cursym.n_type) :
    Known (merge sp cursym).n_type := by
  rw [merge]
  split_ifs
  · exact old
  · exact .inr (.inr (.inr (.inr (.inr rfl))))
  · exact new
  · exact old
  · exact old

lemma merge_words {sp : Nlist} (old : sp.n_value < WORDS) (new : cursym.n_value < WORDS) :
    (merge sp cursym).n_value < WORDS := by
  rw [merge]
  split_ifs
  · exact old
  · exact Nat.max_lt.mpr ⟨old, new⟩
  · exact new
  · exact old
  · exact old

lemma keys_modify (symtab : List Nlist) (i : ℕ)
    (name : ∀ s, (f s).n_name = s.n_name) : keys (symtab.modify i f) = keys symtab := by
  apply ext_getElem?
  intro j
  rw [keys, keys, getElem?_map, getElem?_map, getElem?_modify]
  cases symtab[j]? with
  | none => rfl
  | some s =>
    change some (cstring (if i = j then f s else s).n_name) = some (cstring s.n_name)
    split_ifs
    · rw [name]
    · rfl

lemma mem_modify {i : ℕ} (inside : s ∈ symtab.modify i f) : ∃ t ∈ symtab, s = t ∨ s = f t := by
  obtain ⟨j, entry⟩ := mem_iff_getElem?.mp inside
  rw [getElem?_modify] at entry
  obtain ⟨t, at_, rfl⟩ := map_eq_some_iff.mp entry
  refine ⟨t, mem_of_getElem? at_, ?_⟩
  split_ifs
  · exact .inr rfl
  · exact .inl rfl

/-- A symbol is new, or is merged with the one that is found. -/
lemma enter_cases {symtab' : List Nlist} (done : enter symtab cursym = some symtab') :
    (lookup symtab cursym.n_name = some none ∧ symtab.length < NSYM ∧
      symtab' = symtab ++ [cursym]) ∨ ∃ i, lookup symtab cursym.n_name = some (some i) ∧
        symtab' = symtab.modify i (merge · cursym) := by
  obtain ⟨found, search, rest⟩ := bind_eq_some_iff.mp done
  cases found with
  | none =>
    split_ifs at rest with room
    exact .inl ⟨search, room, (some.inj rest).symm⟩
  | some i => exact .inr ⟨i, search, (some.inj rest).symm⟩

lemma enter_sound {symtab' : List Nlist} (sound : Sound symtab)
    (known : Known cursym.n_type) (word : cursym.n_value < WORDS)
    (done : enter symtab cursym = some symtab') : Sound symtab' := by
  rcases enter_cases done with ⟨new, room, rfl⟩ | ⟨i, -, rfl⟩
  · constructor
    · rw [keys, map_append]
      exact ProbeTables.fresh_snoc sound.fresh new
    · rw [length_append]
      exact room
    · intro s inside
      rcases mem_append.mp inside with old | added
      · exact sound.known s old
      · cases mem_singleton.mp added
        exact known
    · intro s inside
      rcases mem_append.mp inside with old | added
      · exact sound.words s old
      · cases mem_singleton.mp added
        exact word
  · constructor
    · rw [keys_modify symtab i fun s => merge_name s cursym]
      exact sound.fresh
    · rw [length_modify]
      exact sound.room
    · intro s inside
      obtain ⟨t, old, rfl | rfl⟩ := mem_modify inside
      · exact sound.known s old
      · exact merge_known (sound.known t old) known
    · intro s inside
      obtain ⟨t, old, rfl | rfl⟩ := mem_modify inside
      · exact sound.words s old
      · exact merge_words (sound.words t old) word

lemma load1syms_sound {p q : ℕ × List Nlist}
    (words : ∀ s ∈ syms, s.n_value < WORDS) (sound : Sound p.2)
    (done : syms.foldlM (load1sym ctrel cdrel cbrel) p = some q) : Sound q.2 := by
  induction syms generalizing p with
  | nil =>
    cases done
    exact sound
  | cons s syms ih =>
    obtain ⟨r, first, rest⟩ := bind_eq_some_iff.mp done
    refine ih (fun s inside => words s (mem_cons_of_mem _ inside)) ?_ rest
    rw [load1sym] at first
    split_ifs at first with ext
    · obtain ⟨symtab, entered, rfl⟩ := map_eq_some_iff.mp first
      exact enter_sound sound (symreloc_known _ _ _ ext)
        (symreloc_words _ _ _ (words s mem_cons_self)) entered
    · cases first
      exact sound

/-- The sizes are whole words, and the table is sound. -/
structure Passed (p : Pass1) : Prop where
  text : p.tsize % 4 = 0
  data : p.dsize % 4 = 0
  bss : p.bsize % 4 = 0
  sound : Sound p.symtab

lemma whole_mod (n : ℕ) : whole n % 4 = 0 := by
  rw [whole]
  omega

lemma whole_eq (even : n % 4 = 0) : whole n = n := by
  rw [whole]
  omega

lemma load1_passed {q : Pass1} {o : Object} (passed : Passed p) (done : load1 p o = some q) :
    Passed q := by
  rw [load1] at done
  split_ifs at done
  obtain ⟨t, syms, rfl⟩ := map_eq_some_iff.mp done
  exact ⟨whole_mod _, whole_mod _, whole_mod _, load1syms_sound o.words passed.sound syms⟩

lemma pass1_passed {files : Files} (done : pass1 files = some p) : Passed p := by
  have run (p q : Pass1) (passed : Passed p)
      (done : files.foldlM (fun p f => load1 p f.2) p = some q) : Passed q := by
    clear * - passed done
    induction files generalizing p with
    | nil =>
      cases done
      exact passed
    | cons f files ih =>
      obtain ⟨r, first, rest⟩ := bind_eq_some_iff.mp done
      exact ih r (load1_passed passed first) rest
  refine run _ p ⟨rfl, rfl, rfl, ?_, Nat.zero_le _, ?_, ?_⟩ done
  · exact fun i k entry => nomatch entry
  · exact fun s inside => absurd inside not_mem_nil
  · exact fun s inside => absurd inside not_mem_nil

/-! ### Symbols that are read again -/

/-- A common comes back as a symbol of the bss, at the offset of its size. -/
def uncommon (s : Nlist) : Nlist :=
  if s.n_type.kind = .comm then { s with n_type := extern_ .bss } else s

lemma uncommon_name (s : Nlist) : (uncommon s).n_name = s.n_name := by
  rw [uncommon]
  split_ifs <;> rfl

lemma keys_map (symtab : List Nlist) (name : ∀ s, (f s).n_name = s.n_name) :
    keys (symtab.map f) = keys symtab := by
  rw [keys, List.map_map]
  apply map_congr_left
  intro s _
  simp [name]

lemma lookup_uncommon (symtab : List Nlist) (name : List UInt8) :
    lookup (symtab.map uncommon) name = lookup symtab name := by
  rw [lookup, keys_map symtab uncommon_name, ← lookup]

lemma settle_name (a b c d : ℕ) (s : Nlist) : (settle a b c d s).n_name = s.n_name := by
  rw [settle]
  split_ifs <;> rfl

/-- A symbol that was written by `ld -r` with text and data of these sizes. -/
lemma symreloc_stored (known : Known s.n_type) (word : s.n_value < WORDS)
    (tsize dsize : ℕ) : symreloc 0 (sub 0 tsize) (sub 0 (tsize + dsize))
      (stored (settle 0 tsize (tsize + dsize) (tsize + dsize) s)) = uncommon s := by
  obtain ⟨name, type, value⟩ := s
  simp only [WORDS] at word
  have back n : (value + n + sub 0 n) % WORDS = value := by
    rw [sub]
    simp only [WORDS]
    omega
  have same : value % WORDS = value := Nat.mod_eq_of_lt word
  rcases known with rfl | rfl | rfl | rfl | rfl | rfl
  · simp [settle, stored, symreloc, uncommon, extern_, same]
  · simp [settle, stored, symreloc, uncommon, extern_, same]
  · simp [settle, stored, symreloc, uncommon, extern_, same]
  · simp [settle, stored, symreloc, uncommon, extern_, back]
  · simp [settle, stored, symreloc, uncommon, extern_, back]
  · simp [settle, stored, symreloc, uncommon, extern_, back]

lemma load1_locals (plain : ∀ s ∈ syms, s.n_type.ext = false) (p : ℕ × List Nlist) :
    syms.foldlM (load1sym ctrel cdrel cbrel) p = some (p.1 + syms.length, p.2) := by
  induction syms generalizing p with
  | nil => rfl
  | cons s syms ih =>
    have here : load1sym ctrel cdrel cbrel p s = some (p.1 + 1, p.2) := by
      rw [load1sym, if_neg]
      rw [plain s mem_cons_self]
      exact Bool.false_ne_true
    rw [foldlM_cons, here]
    change syms.foldlM (load1sym ctrel cdrel cbrel) (p.1 + 1, p.2) = _
    rw [ih (fun s inside => plain s (mem_cons_of_mem _ inside))]
    simp [Nat.add_assoc, Nat.add_comm 1]

/-- Symbols that are all new are entered one behind the other. -/
lemma load1_fresh (ext : ∀ s ∈ syms, s.n_type.ext = true) (fresh : ProbeTables.Fresh scheme
      (keys (symtab ++ syms.map (symreloc ctrel cdrel cbrel))))
    (room : symtab.length + syms.length ≤ NSYM) :
    syms.foldlM (load1sym ctrel cdrel cbrel) (n, symtab) =
      some (n, symtab ++ syms.map (symreloc ctrel cdrel cbrel)) := by
  induction syms generalizing symtab with
  | nil =>
    rw [map_nil, append_nil]
    rfl
  | cons s syms ih =>
    have new : lookup symtab (symreloc ctrel cdrel cbrel s).n_name = some none := by
      have at_ := fresh (keys symtab).length (cstring (symreloc ctrel cdrel cbrel s).n_name)
      rw [keys, map_append, ← keys, map_cons,
        take_left' rfl, getElem?_append_right (Nat.le_refl _), Nat.sub_self] at at_
      exact at_ rfl
    rw [length_cons] at room
    have here : load1sym ctrel cdrel cbrel (n, symtab) s =
        some (n, symtab ++ [symreloc ctrel cdrel cbrel s]) := by
      rw [load1sym, if_pos (ext s mem_cons_self), enter, new]
      simp only [bind_some]
      rw [if_pos (by omega)]
      rfl
    have split : symtab ++ (s :: syms).map (symreloc ctrel cdrel cbrel) =
        symtab ++ [symreloc ctrel cdrel cbrel s] ++ syms.map (symreloc ctrel cdrel cbrel) := by
      rw [map_cons, append_assoc, singleton_append]
    rw [split] at fresh ⊢
    rw [foldlM_cons, here]
    refine ih (fun s inside => ext s (mem_cons_of_mem _ inside)) fresh ?_
    rw [length_append, length_singleton]
    omega

/-- The size of the text in the output. -/
def Pass1.aligned (p : Pass1) : ℕ := (p.tsize + 15) / 16 * 16

/-- What the first pass finds in a file that `ld -r` has written. -/
def Pass1.again (p : Pass1) (nsym : ℕ) : Pass1 :=
  ⟨p.aligned, p.dsize, p.bsize, nsym, p.symtab.map uncommon⟩

lemma known_ext {t : NType} (known : Known t) : t.ext = true := by
  rcases known with rfl | rfl | rfl | rfl | rfl | rfl <;> rfl

lemma settle_known (known : Known s.n_type) (a b c d : ℕ) : Known (settle a b c d s).n_type := by
  obtain ⟨name, type, value⟩ := s
  rcases known with rfl | rfl | rfl | rfl | rfl | rfl <;> simp [settle, Known, extern_]

lemma padText_length {text : List ℕ} (size : W * text.length = p.tsize)
    (same : n = p.aligned) : W * (padText n text).length = p.aligned := by
  rw [padText, length_append, length_replicate, same, Pass1.aligned]
  simp only [W] at *
  omega

lemma middleR_symtab (p : Pass1) : (middleR 0 p).symtab =
    p.symtab.map (settle 0 p.aligned (p.aligned + p.dsize) (p.aligned + p.dsize)) := by
  simp [middleR, assign, Pass1.aligned]

lemma symreloc_symtab (sound : Sound p.symtab) : ((middleR 0 p).symtab.map stored).map
      (symreloc 0 (sub 0 p.aligned) (sub 0 (p.aligned + p.dsize))) = p.symtab.map uncommon := by
  rw [middleR_symtab, List.map_map, List.map_map]
  apply map_congr_left
  intro s inside
  exact symreloc_stored (sound.known s inside) (sound.words s inside) _ _

/-- The first pass over a file that `ld -r` has written. -/
lemma pass1_again (passed : Passed p) {out : Output}
    (plain : ∀ s ∈ out.syms, s.n_type.ext = false) (text : W * out.text.length = p.tsize)
    (data : W * out.data.length = p.dsize) (name : List UInt8) :
    pass1 [(name, outputR (middleR 0 p) out)] = some (p.again (out.syms.length + 1)) := by
  have sound := passed.sound
  have a_text : (outputR (middleR 0 p) out).a_text = p.aligned := by
    apply padText_length _ rfl
    rw [length_map]
    exact text
  have a_data : (outputR (middleR 0 p) out).a_data = p.dsize := by
    rw [Object.a_data]
    simp only [outputR, length_map]
    exact data
  have bss : (outputR (middleR 0 p) out).bss = p.bsize := rfl
  have locals : (out.syms.map stored).foldlM (load1sym 0 (sub 0 p.aligned)
      (sub 0 (p.aligned + p.dsize))) (1, []) = some (1 + (out.syms.map stored).length, []) := by
    apply load1_locals
    intro s inside
    obtain ⟨t, old, rfl⟩ := mem_map.mp inside
    exact plain t old
  have externals : ((middleR 0 p).symtab.map stored).foldlM (load1sym 0 (sub 0 p.aligned)
      (sub 0 (p.aligned + p.dsize))) (1 + (out.syms.map stored).length, []) =
        some (1 + (out.syms.map stored).length, p.symtab.map uncommon) := by
    have back := symreloc_symtab sound
    rw [← back]
    apply load1_fresh
    · intro s inside
      obtain ⟨t, old, rfl⟩ := mem_map.mp inside
      obtain ⟨r, older, rfl⟩ := mem_map.mp old
      exact known_ext (settle_known (sound.known r older) _ _ _ _)
    · rw [nil_append, back, keys_map _ uncommon_name]
      exact sound.fresh
    · rw [length_nil, Nat.zero_add, length_map, middleR_symtab, length_map]
      exact sound.room
  have syms : (outputR (middleR 0 p) out).syms.foldlM (load1sym 0 (sub 0 p.aligned)
      (sub 0 (p.aligned + p.dsize))) (0 + 1, []) =
        some (1 + (out.syms.map stored).length, p.symtab.map uncommon) := by
    change ((out.syms ++ (middleR 0 p).symtab).map stored).foldlM _ _ = _
    rw [map_append, foldlM_append, locals]
    exact externals
  have one : load1 ⟨0, 0, 0, 0, []⟩ (outputR (middleR 0 p) out) =
      some (p.again (out.syms.length + 1)) := by
    rw [load1, if_neg (by rw [bss]; exact not_not.mpr passed.bss), a_text, a_data, bss, syms,
      map_some, Nat.zero_add, Nat.zero_add, Nat.zero_add, whole_eq passed.data,
      whole_eq passed.bss, whole_eq (by rw [Pass1.aligned]; omega), length_map, Nat.add_comm 1]
    rfl
  rw [pass1, foldlM_cons, one]
  rfl

/-! ### Addresses again -/

lemma uncommon_undf (s : Nlist) :
    (uncommon s).n_type = extern_ .undf ↔ s.n_type = extern_ .undf := by
  rw [uncommon]
  split_ifs with comm
  · constructor
    · intro undf
      exact nomatch undf
    · intro undf
      rw [undf] at comm
      exact nomatch comm
  · exact .rfl

lemma ldrsym_uncommon (symtab : List Nlist) (sp : Option ℕ) (val : ℕ) {kind : Kind}
    (other : kind ≠ .comm) : ldrsym (symtab.map uncommon) sp val kind =
      (ldrsym symtab sp val kind).map (·.map uncommon) := by
  cases sp with
  | none => rfl
  | some i =>
    have same : ((symtab.map uncommon)[i]?).any (·.n_type = extern_ .undf) =
        (symtab[i]?).any (·.n_type = extern_ .undf) := by
      rw [getElem?_map]
      cases symtab[i]? with
      | none => rfl
      | some s => exact decide_eq_decide.mpr (uncommon_undf s)
    rw [ldrsym, ldrsym]
    simp only [same]
    split_ifs
    · congr 1
      apply ext_getElem?
      intro j
      rw [getElem?_modify, getElem?_map, getElem?_map, getElem?_modify]
      cases symtab[j]? with
      | none => rfl
      | some s =>
        simp only [map_some]
        split_ifs
        · simp [uncommon, extern_]
          split_ifs <;> rfl
        · rfl
    · rfl

lemma aligned_again (p : Pass1) (n : ℕ) : (p.again n).aligned = p.aligned := by
  simp only [Pass1.aligned, Pass1.again]
  omega

lemma special_again (p : Pass1) (n : ℕ) : special (p.again n) = special p := by
  simp [special, Pass1.again, lookup_uncommon]

lemma define_again (p : Pass1) (n : ℕ) : define (p.again n) = (define p).map (·.map uncommon) := by
  have size : ((p.again n).tsize + 15) / 16 * 16 = (p.tsize + 15) / 16 * 16 := aligned_again p n
  rw [define, define, special_again, size]
  cases special p with
  | none => rfl
  | some at_ =>
    simp only [bind_some, Pass1.again]
    rw [ldrsym_uncommon _ _ _ (by decide)]
    cases ldrsym p.symtab at_.1 _ .text with
    | none => rfl
    | some s₁ =>
      simp only [map_some, bind_some]
      rw [ldrsym_uncommon _ _ _ (by decide)]
      cases ldrsym s₁ at_.2.1 _ .data with
      | none => rfl
      | some s₂ =>
        simp only [map_some, bind_some]
        rw [ldrsym_uncommon _ _ _ (by decide)]
        cases ldrsym s₂ at_.2.2.1 _ .bss with
        | none => rfl
        | some s₃ =>
          simp only [bind_some]
          exact ldrsym_uncommon _ _ _ (by decide)

lemma allocate_plain (plain : ∀ s ∈ symtab, s.n_type.kind ≠ .comm) (n : ℕ) :
    allocate n symtab = (symtab, n) := by
  induction symtab with
  | nil => rfl
  | cons s symtab ih =>
    rw [allocate, if_neg (plain s mem_cons_self),
      ih fun s inside => plain s (mem_cons_of_mem _ inside)]

lemma uncommon_kind (s : Nlist) : (uncommon s).n_type.kind ≠ .comm := by
  rw [uncommon]
  split_ifs with comm
  · nofun
  · exact comm

/-- `middle` for the files themselves, and for what `ld -r` has made of them. -/
lemma middle_again {b : ℕ} {l : Link} (done : middle b p = some l) (n : ℕ) :
    ∃ symtab, define p = some symtab ∧ (∀ s ∈ symtab, s.n_type ≠ extern_ .undf) ∧
      l = assign b false p (allocate 0 symtab).1 (allocate 0 symtab).2 ∧
      middle b (p.again n) = some (assign b false (p.again n) (symtab.map uncommon) 0) := by
  obtain ⟨symtab, defined, rest⟩ := bind_eq_some_iff.mp done
  split_ifs at rest with undf
  refine ⟨symtab, defined, ?_, (some.inj rest).symm, ?_⟩
  · intro s inside type
    exact undf (any_eq_true.mpr ⟨s, inside, decide_eq_true type⟩)
  · have none : ¬ (symtab.map uncommon).any (·.n_type = extern_ .undf) := by
      intro some
      obtain ⟨t, inside, type⟩ := any_eq_true.mp some
      obtain ⟨s, old, rfl⟩ := mem_map.mp inside
      rw [decide_eq_true_eq, uncommon_undf] at type
      exact undf (any_eq_true.mpr ⟨s, old, decide_eq_true type⟩)
    rw [middle, define_again, defined, map_some, bind_some, if_neg none, allocate_plain]
    intro t inside
    obtain ⟨s, -, rfl⟩ := mem_map.mp inside
    exact uncommon_kind s

end LinkEditor
