import RetroBSD.LinkOutputs

/-!
# `ld -r` accepts what `ld` accepts

Every symbol that a file defines is in the table with its kind, or is refused by both links;
where the direct link finds the definition in the table, `ld -r` finds it as well.
-/

namespace LinkEditor

open ObjectFiles List Option
open Assembler (Reloc fgetrel fputrel)

/-! ### Symbols that have been entered -/

/-- The symbol that a name is taken for is defined if the name was defined; only a common is
not taken over by a definition in the text. -/
def Covers (symtab : List Nlist) (name : List UInt8) (type : NType) : Prop :=
  ∃ i, lookup symtab name = some (some i) ∧ ∀ sp, symtab[i]? = some sp →
    (undefined type = false → sp.n_type ≠ extern_ .undf) ∧
      (type = extern_ .data ∨ type = extern_ .bss → undefined sp.n_type = false)

lemma merge_defined (sp cursym : Nlist) (type : NType)
    (here : (undefined type = false → sp.n_type ≠ extern_ .undf) ∧
      (type = extern_ .data ∨ type = extern_ .bss → undefined sp.n_type = false)) :
    (undefined type = false → (merge sp cursym).n_type ≠ extern_ .undf) ∧
      (type = extern_ .data ∨ type = extern_ .bss → undefined (merge sp cursym).n_type = false) := by
  obtain ⟨one, two⟩ := here
  rw [merge]
  split_ifs with undf open_ comm other
  · exact ⟨one, two⟩
  · refine ⟨fun _ => (show extern_ .comm ≠ extern_ .undf by decide), fun segment => ?_⟩
    exact absurd (two segment) (by rw [open_]; decide)
  · refine ⟨fun _ => undf, fun segment => ?_⟩
    exact absurd (two segment) (by rw [open_]; decide)
  · exact ⟨one, two⟩
  · exact ⟨one, two⟩

lemma merge_enters (sp cursym : Nlist) :
    (undefined cursym.n_type = false → (merge sp cursym).n_type ≠ extern_ .undf) ∧
      (cursym.n_type = extern_ .data ∨ cursym.n_type = extern_ .bss →
        undefined (merge sp cursym).n_type = false) := by
  have undf_open : undefined (extern_ .undf) = true := by decide
  have segment_closed (segment : cursym.n_type = extern_ .data ∨ cursym.n_type = extern_ .bss) :
      undefined cursym.n_type = false := by
    rcases segment with type | type <;> rw [type] <;> decide
  rw [merge]
  split_ifs with undf open_ comm other
  · rw [undf]
    exact ⟨fun closed => absurd closed (by decide), fun segment => absurd segment (by decide)⟩
  · rw [comm]
    exact ⟨fun closed => absurd closed (by decide), fun segment => absurd segment (by decide)⟩
  · exact ⟨fun _ => undf, segment_closed⟩
  · push Not at other
    exact ⟨fun _ => other.1, fun segment => absurd segment (not_or.mpr other.2)⟩
  · refine ⟨fun _ undf' => ?_, fun _ => Bool.not_eq_true _ ▸ open_⟩
    rw [undf'] at open_
    exact open_ undf_open

lemma lookup_modify (symtab : List Nlist) (i : ℕ) (cursym : Nlist) (name : List UInt8) :
    lookup (symtab.modify i (merge · cursym)) name = lookup symtab name := by
  rw [lookup, keys_modify symtab i fun s => merge_name s cursym, ← lookup]

variable {files : Files} {symtab : List Nlist} {l r : Module} {s : Nlist} {p : Pass1} {b c i : ℕ}

lemma enter_covers {symtab' : List Nlist} {cursym : Nlist}
    (fresh : ProbeTables.Fresh scheme (keys symtab)) (done : enter symtab cursym = some symtab') :
    Covers symtab' cursym.n_name cursym.n_type ∧
      ∀ name type, Covers symtab name type → Covers symtab' name type := by
  rcases enter_cases done with ⟨new, -, rfl⟩ | ⟨i, found, rfl⟩
  · constructor
    · refine ⟨symtab.length, ?_, fun sp entry => ?_⟩
      · have snoc := ProbeTables.fresh_snoc fresh new
        rw [lookup, keys, map_append]
        apply ProbeTables.lookup_fresh (fun k => isPrefixOf_iff_prefix.mpr (prefix_refl k)) snoc
        have length : (keys symtab).length = symtab.length := length_map _
        rw [← length, getElem?_append_right (Nat.le_refl _), Nat.sub_self]
        rfl
      · rw [getElem?_append_right (Nat.le_refl _), Nat.sub_self] at entry
        cases entry
        constructor
        · rintro closed undf
          rw [undf] at closed
          exact absurd closed (by decide)
        · rintro (type | type) <;> rw [type] <;> decide
    · rintro name type ⟨i, found, kinds⟩
      refine ⟨i, ?_, fun sp entry => ?_⟩
      · rw [lookup, keys, map_append]
        exact ProbeTables.lookup_append _ found
      · have inside := ProbeTables.lookup_lt found
        rw [keys, length_map] at inside
        rw [getElem?_append_left inside] at entry
        exact kinds sp entry
  · constructor
    · refine ⟨i, ?_, fun sp entry => ?_⟩
      · rw [lookup_modify, found]
      · rw [getElem?_modify_eq] at entry
        obtain ⟨t, -, rfl⟩ := map_eq_some_iff.mp entry
        exact merge_enters t cursym
    · rintro name type ⟨j, found', kinds⟩
      refine ⟨j, ?_, fun sp entry => ?_⟩
      · rw [lookup_modify, found']
      · rw [getElem?_modify] at entry
        obtain ⟨t, old, rfl⟩ := map_eq_some_iff.mp entry
        split_ifs
        · exact merge_defined t cursym type (kinds t old)
        · exact kinds t old

/-- The first pass covers the symbols of a file. -/
lemma load1syms_covers {ctrel cdrel cbrel : ℕ} {syms : List Nlist} {p q : ℕ × List Nlist}
    (words : ∀ s ∈ syms, s.n_value < WORDS) (sound : Sound p.2)
    (done : syms.foldlM (load1sym ctrel cdrel cbrel) p = some q) :
    (∀ s ∈ syms, s.n_type.ext = true → Covers q.2 s.n_name (symreloc 0 0 0 s).n_type) ∧
      ∀ name type, Covers p.2 name type → Covers q.2 name type := by
  induction syms generalizing p with
  | nil =>
    cases done
    exact ⟨fun s inside => absurd inside not_mem_nil, fun _ _ covers => covers⟩
  | cons s syms ih =>
    obtain ⟨p', first, rest⟩ := bind_eq_some_iff.mp done
    have words' := fun t inside => words t (mem_cons_of_mem s inside)
    rw [load1sym] at first
    split_ifs at first with ext
    · obtain ⟨symtab, entered, rfl⟩ := map_eq_some_iff.mp first
      have sound' := enter_sound sound (symreloc_known ctrel cdrel cbrel ext)
        (symreloc_words ctrel cdrel cbrel (words s mem_cons_self)) entered
      obtain ⟨here, kept⟩ := enter_covers sound.fresh entered
      obtain ⟨others, kept'⟩ := ih words' sound' rest
      refine ⟨fun t inside ext' => ?_, fun name type covers => kept' name type (kept name type covers)⟩
      rcases mem_cons.mp inside with rfl | inside
      · rw [symreloc_name, symreloc_type] at here
        exact kept' _ _ here
      · exact others t inside ext'
    · cases first
      obtain ⟨others, kept⟩ := ih (p := (p.1 + 1, p.2)) words' sound rest
      refine ⟨fun t inside ext' => ?_, kept⟩
      rcases mem_cons.mp inside with rfl | inside
      · exact absurd ext' ext
      · exact others t inside ext'

def CoversFile (symtab : List Nlist) (o : Object) : Prop :=
  ∀ s ∈ o.syms, s.n_type.ext = true → Covers symtab s.n_name (symreloc 0 0 0 s).n_type

lemma load1_covers {q : Pass1} {o : Object} (passed : Passed p) (done : load1 p o = some q) :
    CoversFile q.symtab o ∧ ∀ name type, Covers p.symtab name type → Covers q.symtab name type := by
  rw [load1] at done
  split_ifs at done
  obtain ⟨t, syms, rfl⟩ := map_eq_some_iff.mp done
  exact load1syms_covers o.words passed.sound syms

lemma pass1_covers {q : Pass1} (passed : Passed p)
    (done : files.foldlM (fun p f => load1 p f.2) p = some q) :
    (∀ f ∈ files, CoversFile q.symtab f.2) ∧
      ∀ name type, Covers p.symtab name type → Covers q.symtab name type := by
  induction files generalizing p with
  | nil =>
    cases done
    exact ⟨fun f inside => absurd inside not_mem_nil, fun _ _ covers => covers⟩
  | cons f files ih =>
    obtain ⟨p', first, rest⟩ := bind_eq_some_iff.mp done
    obtain ⟨here, kept⟩ := load1_covers passed first
    obtain ⟨others, kept'⟩ := ih (load1_passed passed first) rest
    refine ⟨fun g inside => ?_, fun name type covers => kept' name type (kept name type covers)⟩
    rcases mem_cons.mp inside with rfl | inside
    · exact fun s inside ext => kept' _ _ (here s inside ext)
    · exact others g inside

/-! ### Both links -/

def added (ctrel cdrel cbrel : ℕ) : Kind → ℕ
  | .text => ctrel
  | .data => cdrel
  | .bss => cbrel
  | _ => 0

lemma symreloc_value (ctrel cdrel cbrel : ℕ) (word : s.n_value < WORDS)
    (ext : s.n_type.ext = true) : (symreloc ctrel cdrel cbrel s).n_value =
      (s.n_value + added ctrel cdrel cbrel (symreloc ctrel cdrel cbrel s).n_type.kind) % WORDS := by
  obtain ⟨name, ⟨kind, _, weak, loc⟩, value⟩ := s
  cases ext
  have kept : value = value % WORDS := (Nat.mod_eq_of_lt word).symm
  cases weak <;> cases loc <;> cases kind <;>
    first | rfl | exact kept

lemma settle_value (torigin dorigin cmorigin borigin : ℕ) (word : s.n_value < WORDS)
    (known : Known s.n_type) (defined : undefined s.n_type = false) :
    (settle torigin dorigin cmorigin borigin s).n_value =
      (s.n_value + added torigin dorigin borigin s.n_type.kind) % WORDS ∧
    (settle torigin dorigin cmorigin borigin s).n_type = s.n_type := by
  obtain ⟨name, type, value⟩ := s
  have kept : value = value % WORDS := (Nat.mod_eq_of_lt word).symm
  rcases known with rfl | rfl | rfl | rfl | rfl | rfl
  · exact nomatch defined
  · exact ⟨kept, rfl⟩
  · exact ⟨rfl, rfl⟩
  · exact ⟨rfl, rfl⟩
  · exact ⟨rfl, rfl⟩
  · exact nomatch defined

/-- A symbol that is defined is settled by both links; a common goes to the bss. -/
structure Settles (b c : ℕ) (symtab : List Nlist) (r l : List Nlist) : Prop where
  sound : Sound symtab
  names : keys l = keys r
  table : keys r = keys symtab
  defined : ∃ dorigin cmorigin cmorigin' borigin, ∀ (i : ℕ) (s : Nlist), symtab[i]? = some s →
    undefined s.n_type = false → r[i]? = some (settle 0 dorigin cmorigin borigin s) ∧
      l[i]? = some (settle b (dorigin + b) cmorigin' (borigin + c) s)
  common : ∀ (i : ℕ) (s t : Nlist), symtab[i]? = some s → s.n_type = extern_ .comm →
    l[i]? = some t → t.n_type = extern_ .bss

/-- The displacements of a file in `ld -r` and in the direct link. -/
structure Displaced (b c : ℕ) (r l : Module) : Prop where
  ctrel : l.ctrel = (r.ctrel + b) % WORDS
  cdrel : l.cdrel = (r.cdrel + b) % WORDS
  cbrel : l.cbrel = (r.cbrel + c) % WORDS

lemma getElem_keys {r l : List Nlist} (names : keys l = keys r) {t : Nlist}
    (entry : l[i]? = some t) : ∃ s, r[i]? = some s := by
  have length : l.length = r.length := by
    have lengths := congrArg length names
    rwa [keys, keys, length_map, length_map] at lengths
  obtain ⟨inside, -⟩ := List.getElem?_eq_some_iff.mp entry
  exact ⟨r[i], getElem?_eq_getElem _⟩

section

variable (settles : Settles b c symtab r.symtab l.symtab) (displaced : Displaced b c r l)
include settles displaced

/-- The definition that the direct link finds in its table is one that `ld -r` finds. -/
lemma Settles.checked (word : s.n_value < WORDS) (ext : s.n_type.ext = true)
    (covers : Covers symtab s.n_name (symreloc 0 0 0 s).n_type)
    (search : lookup symtab s.n_name = some (some i))
    (closed : undefined (symreloc 0 0 0 s).n_type = false) (checked : (l.symtab[i]?).any fun sp =>
      sp.n_type = (symreloc l.ctrel l.cdrel l.cbrel s).n_type ∧
        sp.n_value = (symreloc l.ctrel l.cdrel l.cbrel s).n_value) :
    (r.symtab[i]?).any fun sp => sp.n_type = (symreloc r.ctrel r.cdrel r.cbrel s).n_type ∧
        sp.n_value = (symreloc r.ctrel r.cdrel r.cbrel s).n_value := by
  cases entry : l.symtab[i]? with
  | none =>
    rw [entry] at checked
    exact nomatch checked
  | some t =>
    rw [entry, any_some, decide_eq_true_eq] at checked
    obtain ⟨type, value⟩ := checked
    rw [symreloc_value _ _ _ word ext, symreloc_type] at value
    rw [symreloc_type] at type
    obtain ⟨sp, old⟩ := getElem_keys (settles.names.trans settles.table) entry
    have inside := mem_of_getElem? old
    obtain ⟨j, search', kinds⟩ := covers
    cases some.inj (some.inj (search.symm.trans search'))
    obtain ⟨defined, segment⟩ := kinds sp old
    have open_ : undefined sp.n_type = false := by
      rcases settles.sound.known sp inside with kind | kind | kind | kind | kind | kind
      · exact absurd kind (defined closed)
      · rw [kind]; decide
      · rw [kind]; decide
      · rw [kind]; decide
      · rw [kind]; decide
      · apply segment
        right
        rw [← type]
        exact settles.common i sp t old kind entry
    obtain ⟨dorigin, cmorigin, cmorigin', borigin, both⟩ := settles.defined
    obtain ⟨left, right⟩ := both i sp old open_
    cases some.inj (entry.symm.trans right)
    have words := settles.sound.words sp inside
    have known := settles.sound.known sp inside
    obtain ⟨value_r, type_r⟩ := settle_value 0 dorigin cmorigin borigin words known open_
    obtain ⟨value_l, type_l⟩ := settle_value b _ cmorigin' _ words known open_
    rw [type_l] at type
    rw [value_l, ← type, displaced.ctrel, displaced.cdrel, displaced.cbrel] at value
    rw [left, any_some, decide_eq_true_eq]
    refine ⟨?_, ?_⟩
    · rw [type_r, symreloc_type, type]
    · rw [value_r, symreloc_value _ _ _ word ext, symreloc_type _ _ _ 0 0 0, ← type]
      rcases known with kind | kind | kind | kind | kind | kind
      all_goals
        rw [kind] at value ⊢
        simp only [extern_, added, WORDS] at value ⊢
        omega

/-- `ld -r` accepts a symbol that the direct link accepts. -/
lemma Settles.load2sym (word : s.n_value < WORDS)
    (covers : s.n_type.ext = true → Covers symtab s.n_name (symreloc 0 0 0 s).n_type)
    {q q' p : ℕ × List (ℕ × ℕ) × List Nlist} (done : load2sym l q s = some q')
    (same : q.2.1 = p.2.1) : ∃ p', load2sym r p s = some p' := by
  have type := symreloc_type r.ctrel r.cdrel r.cbrel 0 0 0 s
  have type' := symreloc_type l.ctrel l.cdrel l.cbrel 0 0 0 s
  have search name : lookup l.symtab name = lookup r.symtab name := by
    rw [lookup, lookup, settles.names]
  have search' name : lookup r.symtab name = lookup symtab name := by
    rw [lookup, lookup, settles.table]
  rw [LinkEditor.load2sym] at done ⊢
  simp only [symreloc_name, search, search', symreloc_ext] at done ⊢
  by_cases ext : s.n_type.ext = true
  · rw [if_pos ext] at done ⊢
    obtain ⟨i, found, rest⟩ := bind_eq_some_iff.mp done
    have found' : lookup symtab s.n_name = some (some i) := by
      obtain ⟨-, found, rfl⟩ := bind_eq_some_iff.mp found
      exact found
    rw [found]
    simp only [bind_some]
    cases closed : undefined (symreloc 0 0 0 s).n_type with
    | true =>
      rw [type', closed, if_pos rfl] at rest
      rw [type, closed, if_pos rfl, ← same]
      split_ifs at rest ⊢
      exact ⟨_, rfl⟩
    | false =>
      rw [type', closed, if_neg Bool.false_ne_true, ← type'] at rest
      rw [type, closed, if_neg Bool.false_ne_true, ← type]
      split_ifs at rest with checked
      rw [if_pos (settles.checked displaced word ext (covers ext) found' closed checked)]
      exact ⟨_, rfl⟩
  · rw [if_neg ext]
    exact ⟨_, rfl⟩

lemma Settles.load2syms {syms : List Nlist} (words : ∀ s ∈ syms, s.n_value < WORDS)
    (covers : ∀ s ∈ syms, s.n_type.ext = true → Covers symtab s.n_name (symreloc 0 0 0 s).n_type)
    {q q' p : ℕ × List (ℕ × ℕ) × List Nlist} (done : syms.foldlM (LinkEditor.load2sym l) q = some q')
    (count : q.1 = p.1) (same : q.2.1 = p.2.1) :
    ∃ p', syms.foldlM (LinkEditor.load2sym r) p = some p' := by
  induction syms generalizing q p with
  | nil => exact ⟨p, rfl⟩
  | cons s syms ih =>
    rw [foldlM_cons]
    obtain ⟨q₁, first, rest⟩ := bind_eq_some_iff.mp done
    obtain ⟨p₁, first'⟩ := settles.load2sym displaced (words s mem_cons_self)
      (covers s mem_cons_self) first same
    obtain ⟨count₁, same₁⟩ := load2sym_same settles.names first' first count same
    rw [first']
    exact ih (fun t inside => words t (mem_cons_of_mem s inside))
      (fun t inside => covers t (mem_cons_of_mem s inside)) rest count₁ same₁

end

/-- A record that names a symbol in one link names one in the other. -/
lemma delta_some (names : keys l.symtab = keys r.symtab) (locals : l.locals = r.locals)
    {rel : Reloc} {d : Delta} (add : delta l rel = some d) : ∃ d', delta r rel = some d' := by
  rw [delta] at add ⊢
  cases segment : rsegment rel.flags
  case ext =>
    rw [segment] at add
    obtain ⟨i, found, rest⟩ := bind_eq_some_iff.mp add
    obtain ⟨sp, entry, -⟩ := map_eq_some_iff.mp rest
    obtain ⟨sp', entry'⟩ := getElem_keys names entry
    rw [lookloc, locals, ← lookloc] at found
    simp only [found, bind_some, entry']
    exact ⟨_, rfl⟩
  all_goals exact ⟨_, rfl⟩

lemma relocate_some (names : keys l.symtab = keys r.symtab)
    (locals : l.locals = r.locals) {words : List ℕ} {file : List UInt8} {at_ : ℕ}
    {out : List (ℕ × Reloc)} (done : relocate l words file at_ = some out) (offset : ℕ) :
    ∃ out', relocate r words file offset = some out' := by
  induction words generalizing file at_ out offset with
  | nil => exact ⟨[], rfl⟩
  | cons word words ih =>
    obtain ⟨⟨rel, rest⟩, read, next⟩ := bind_eq_some_iff.mp done
    obtain ⟨w, moved, next⟩ := bind_eq_some_iff.mp next
    obtain ⟨more, later, -⟩ := map_eq_some_iff.mp next
    obtain ⟨d, add, -⟩ := map_eq_some_iff.mp moved
    obtain ⟨d', add'⟩ := delta_some names locals add
    obtain ⟨out', later'⟩ := ih later _
    rw [relocate, read, bind_some, relword, add', map_some, bind_some, later']
    exact ⟨_, rfl⟩

/-- The origins of both links before a file. -/
structure Apart (b c : ℕ) (r l : Link) : Prop where
  base : b % 4 = 0
  bss : c % 4 = 0
  torigin : l.torigin = r.torigin + b
  dorigin : l.dorigin = r.dorigin + b
  borigin : l.borigin = r.borigin + c

lemma Apart.next {r l : Link} (apart : Apart b c r l) (o : Object) :
    Apart b c (r.next o) (l.next o) := by
  refine ⟨apart.base, apart.bss, ?_, ?_, ?_⟩
  · simp [Link.next, apart.torigin, whole_add apart.base]
  · simp [Link.next, apart.dorigin, whole_add apart.base]
  · simp [Link.next, apart.borigin, whole_add apart.bss]

lemma Apart.displaced {r l : Link} (apart : Apart b c r l) (o : Object)
    (t t' : List (ℕ × ℕ)) : Displaced b c (moduleOf r o t) (moduleOf l o t') := by
  constructor
  · simp [moduleOf, apart.torigin]
  · simp [moduleOf, apart.dorigin, sub_add]
  · simp [moduleOf, apart.borigin, sub_add]

lemma pass2_some {r l : Link}
    (settles : Settles b c symtab r.symtab l.symtab) (apart : Apart b c r l)
    (covers : ∀ f ∈ files, CoversFile symtab f.2) {out : Output} (done : pass2 l files = some out) :
    ∃ out', pass2 r files = some out' := by
  induction files generalizing r l out with
  | nil => exact ⟨_, rfl⟩
  | cons f files ih =>
    obtain ⟨first, load, rest⟩ := bind_eq_some_iff.mp done
    obtain ⟨more, later, -⟩ := map_eq_some_iff.mp rest
    obtain ⟨t, syms, rest⟩ := bind_eq_some_iff.mp load
    obtain ⟨text, moved, rest⟩ := bind_eq_some_iff.mp rest
    obtain ⟨data, moved', -⟩ := map_eq_some_iff.mp rest
    obtain ⟨q, run, rfl⟩ := map_eq_some_iff.mp syms
    obtain ⟨q', run'⟩ := settles.load2syms (apart.displaced f.2 [] [])
      f.2.words (covers f mem_cons_self) run rfl rfl
    have same := load2syms_same settles.names run' run rfl rfl
    obtain ⟨text', again⟩ := relocate_some (r := moduleOf r f.2 q'.2.1) settles.names same moved r.torigin
    obtain ⟨data', again'⟩ := relocate_some (r := moduleOf r f.2 q'.2.1) settles.names same moved' r.dorigin
    obtain ⟨out', others⟩ := ih (r := r.next f.2) (l := l.next f.2) settles (apart.next f.2)
      (fun g inside => covers g (mem_cons_of_mem f inside)) later
    have names : locals r f.2 = some q'.2 := by
      rw [locals, run']
      rfl
    have here : load2 r f = some ⟨text', data', mkfsym r f.1 :: q'.2.2⟩ := by
      rw [load2, names, bind_some]
      dsimp only
      rw [again, bind_some, again', map_some]
    rw [pass2, here, bind_some, others]
    exact ⟨_, rfl⟩

/-! ### The tables of both links -/

lemma allocate_getElem (entry : symtab[i]? = some s)
    (n : ℕ) : ∃ v, (allocate n symtab).1[i]? = some { s with n_value := v } ∧
      (s.n_type.kind ≠ .comm → v = s.n_value) := by
  induction symtab generalizing i n with
  | nil => exact nomatch entry
  | cons t symtab ih =>
    rw [allocate]
    split_ifs with comm
    · cases i with
      | zero =>
        cases entry
        exact ⟨n % WORDS, rfl, fun other => absurd comm other⟩
      | succ i => exact ih entry _
    · cases i with
      | zero =>
        cases entry
        exact ⟨_, rfl, fun _ => rfl⟩
      | succ i => exact ih entry _

lemma allocate_even (symtab : List Nlist) {n : ℕ} (even : n % 4 = 0) :
    (allocate n symtab).2 % 4 = 0 := by
  induction symtab generalizing n with
  | nil => exact even
  | cons s symtab ih =>
    rw [allocate]
    split_ifs
    · exact ih (whole_mod _)
    · exact ih even

lemma allocate_keys (symtab : List Nlist) (n : ℕ) : keys (allocate n symtab).1 = keys symtab := by
  induction symtab generalizing n with
  | nil => rfl
  | cons s symtab ih =>
    rw [allocate]
    split_ifs
    · exact congrArg (_ :: ·) (ih _)
    · exact congrArg (_ :: ·) (ih _)

lemma keys_define (done : define p = some symtab) : keys symtab = keys p.symtab := by
  apply ext_getElem?
  intro i
  rw [keys, keys, getElem?_map, getElem?_map]
  rcases define_definedAt done i with ⟨vacant, vacant'⟩ | ⟨s, s', old, new, defines, -⟩
  · rw [vacant, vacant']
  · rw [old, new, map_some, map_some, defines.1]

lemma keys_middleR (p : Pass1) : keys (middleR 0 p).symtab = keys p.symtab := by
  rw [middleR_symtab, keys_map _ (settle_name _ _ _ _)]

/-- A symbol with a type is settled with the origins of the direct link. -/
lemma settled_getElem (done : define p = some symtab)
    (entry : p.symtab[i]? = some s) (other : s.n_type ≠ extern_ .undf) (a b c d : ℕ) :
    ∃ v, ((allocate 0 symtab).1.map (settle a b c d))[i]? =
      some (settle a b c d { s with n_value := v }) ∧ (s.n_type.kind ≠ .comm → v = s.n_value) := by
  rcases define_definedAt done i with ⟨vacant, -⟩ | ⟨s₀, s', old, new, defines, -⟩
  · exact nomatch vacant.symm.trans entry
  · cases some.inj (old.symm.trans entry)
    cases defines.2.1 other
    obtain ⟨v, placed, value⟩ := allocate_getElem new 0
    refine ⟨v, ?_, value⟩
    rw [getElem?_map, placed]
    rfl

lemma middle_settles (sound : Sound p.symtab) (done : define p = some symtab) (b : ℕ) :
    Settles b (b + (allocate 0 symtab).2) p.symtab (middleR 0 p).symtab
      (assign b false p (allocate 0 symtab).1 (allocate 0 symtab).2).symtab := by
  have keysL : keys (assign b false p (allocate 0 symtab).1 (allocate 0 symtab).2).symtab =
      keys p.symtab := by
    rw [assign, keys_map _ (settle_name _ _ _ _), allocate_keys, keys_define done]
  refine ⟨sound, keysL.trans (keys_middleR p).symm, keys_middleR p,
    ⟨p.aligned, p.aligned + p.dsize, b + p.aligned + p.dsize, p.aligned + p.dsize, ?_⟩, ?_⟩
  · intro i s entry defined
    have known := sound.known s (mem_of_getElem? entry)
    have other : s.n_type ≠ extern_ .undf ∧ s.n_type.kind ≠ .comm := by
      constructor
      · intro undf
        rw [undf] at defined
        exact absurd defined (by decide)
      · intro comm
        rcases known with kind | kind | kind | kind | kind | kind <;> rw [kind] at comm defined
        all_goals first | exact absurd comm (by decide) | exact absurd defined (by decide)
    constructor
    · rw [middleR_symtab, getElem?_map, entry]
      rfl
    · obtain ⟨v, placed, value⟩ := settled_getElem done entry other.1 b _ _ _
      cases value other.2
      have dorigin : p.aligned + b = b + p.aligned := Nat.add_comm _ _
      have borigin : p.aligned + p.dsize + (b + (allocate 0 symtab).2) =
          b + p.aligned + p.dsize + (allocate 0 symtab).2 := by omega
      rw [dorigin, borigin]
      exact placed
  · intro i s t entry comm found
    have other : s.n_type ≠ extern_ .undf := by
      rw [comm]
      decide
    obtain ⟨v, placed, -⟩ := settled_getElem done entry other b _ _ _
    cases some.inj (placed.symm.trans found)
    rw [comm]
    rfl

/-- `ld -r` accepts the files that `ld` accepts. -/
lemma ldR_some (base : b % 4 = 0) {l : Link} {out : Output}
    (read : pass1 files = some p) (placed : middle b p = some l) (done : pass2 l files = some out) :
    ∃ outr, pass2 (middleR 0 p) files = some outr := by
  have sound := (pass1_passed read).sound
  obtain ⟨symtab, defined, -, rfl, -⟩ := middle_again placed 0
  obtain ⟨covers, -⟩ := pass1_covers (pass1_passed (show pass1 [] = some _ from rfl)) read
  have even : (b + (allocate 0 symtab).2) % 4 = 0 := by
    have commons := allocate_even symtab (n := 0) rfl
    omega
  apply pass2_some (middle_settles sound defined b) _ covers done
  refine ⟨base, even, (Nat.zero_add b).symm, ?_, ?_⟩
  · change b + p.aligned = 0 + p.aligned + b
    omega
  · change b + p.aligned + p.dsize + (allocate 0 symtab).2 = 0 + p.aligned + p.dsize + 0 + _
    omega

end LinkEditor
