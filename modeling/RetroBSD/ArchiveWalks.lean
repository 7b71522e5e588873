import RetroBSD.Archives

/-!
# Which archives are read back

`put_arobj` pads a member to an even length, name included, and leaves out the padding of
an empty one. `skip_arobj` adds a byte when the name behind the header is odd, and `ld` adds
none and reads such a name from the wrong place. The results say for which files the two
readers find what was written.
-/

namespace Archives

open Numerals List

/-! ### The header -/

lemma numeral_fits {n k : ℕ} (some_digit : 0 < k) (h : n < 10 ^ k) :
    (field k (numeral 10 n)).length = k :=
  field_length (numeral_length (by decide) some_digit h)

lemma signed_length {z : ℤ} (h : -2 ^ 31 ≤ z ∧ z < 2 ^ 31) : (signed z).length ≤ 12 := by
  have digits : (numeral 10 z.natAbs).length ≤ 10 := by
    apply numeral_length (by decide) (by decide)
    omega
  rw [signed]
  split
  · rw [length_cons]
    omega
  · omega

namespace File

variable (f : File)

lemma label_length : f.label.length = 16 := by
  have named := f.named
  rw [label]
  split
  · have small : (numeral 10 f.name.length).length ≤ 13 := by
      apply numeral_length (by decide) (by decide)
      exact named.2.trans_lt (by decide)
    rw [length_append, field_length small]
    rfl
  · rename_i short
    simp only [extended, Bool.or_eq_true, decide_eq_true_eq] at short
    exact field_length (by omega)

lemma attributes_length : f.attributes.length = 32 := by
  simp [attributes, field_length (signed_length f.mtime_fits), numeral_fits (by decide) f.uid_fits, numeral_fits (by decide) f.gid_fits, field_length (numeral_length (by decide) (by decide) f.mode_fits)]

lemma lname_le : f.lname ≤ MAXNAMLEN := by
  rw [lname]
  split
  · exact f.named.2
  · exact Nat.zero_le _

lemma size_length : (field 10 (numeral 10 (f.content.length + f.lname))).length = 10 := by
  have fits := f.size_fits
  have low := f.lname_le
  apply numeral_fits (by decide)
  omega

/-- The header without its last two bytes. -/
lemma header_front : ∃ front, front.length = 58 ∧ f.header = front ++ ARFMAG := ⟨_, by
    rw [length_append, length_append, f.label_length, f.attributes_length, f.size_length], rfl⟩

lemma header_length : f.header.length = ARHDRSZ := by
  obtain ⟨front, length, shape⟩ := f.header_front
  rw [shape, length_append, length]
  rfl

lemma header_fmag : f.header.drop 58 = ARFMAG := by
  obtain ⟨front, length, shape⟩ := f.header_front
  rw [shape]
  exact drop_left' length

lemma header_label : f.header.take 16 = f.label := by
  rw [header, append_assoc, append_assoc]
  exact take_left' f.label_length

lemma header_size :
    (f.header.drop 48).take 10 = field 10 (numeral 10 (f.content.length + f.lname)) := by
  have length : (f.label ++ f.attributes).length = 48 := by
    rw [length_append, f.label_length, f.attributes_length]
  rw [header, append_assoc, drop_left' length]
  exact take_left' f.size_length

lemma convert_size : (convert f.header).size = f.content.length + f.lname := by
  simp only [convert]
  rw [f.header_size, strtol_field (by decide) (by decide)]
  rfl

variable {f}

lemma label_of_extended (long : f.extended = true) :
    f.label = AR_EFMT1 ++ field 13 (numeral 10 f.name.length) := if_pos long

lemma label_of_short (short : f.extended = false) : f.label = field 16 f.name :=
  if_neg (by rw [short]; decide)

lemma space_not_mem (short : f.extended = false) : SPACE ∉ f.name := by
  simp only [extended, Bool.or_eq_false_iff] at short
  intro member
  rw [contains_iff_mem.mpr member] at short
  exact absurd short.2 (by decide)

lemma label_head (f : File) : f.label.head? ≠ some SPACE := by
  cases kind : f.extended with
  | true =>
    rw [label_of_extended kind]
    exact fun same => absurd (Option.some.inj same) (by decide)
  | false =>
    have none := space_not_mem kind
    have named := f.named
    rw [label_of_short kind]
    cases shape : f.name with
    | nil => simp [shape] at named
    | cons c cs =>
      rw [shape] at none
      intro same
      cases Option.some.inj same
      exact none mem_cons_self

lemma label_efmt (f : File) : f.label.take 3 = AR_EFMT1 ↔ f.extended = true := by
  constructor
  · intro same
    by_contra short
    rw [Bool.not_eq_true] at short
    -- a component holds no slash, and neither do the blanks behind it
    have slash : SLASH ∈ f.label := mem_of_mem_take (same ▸ (by decide : SLASH ∈ AR_EFMT1))
    rw [label_of_short short, field, mem_append] at slash
    rcases slash with inside | behind
    · exact f.component.2 inside
    · exact absurd (eq_of_mem_replicate behind) (by decide)
  · intro long
    rw [label_of_extended long]
    exact take_left' rfl

lemma strip_label (short : f.extended = false) : strip f.label = f.name := by
  have none := space_not_mem short
  have stays : f.name.rdropWhile (· == SPACE) = f.name := by
    rw [rdropWhile_eq_self_iff]
    intro nonempty last
    rw [beq_iff_eq] at last
    exact none (last ▸ getLast_mem nonempty)
  rw [label_of_short short, field, strip]
  induction 16 - f.name.length with
  | zero => rw [replicate_zero, append_nil, stays]
  | succ k ih => rw [replicate_succ', ← append_assoc, rdropWhile_concat_pos _ _ _ (by decide), ih]

lemma atoi_header (long : f.extended = true) : strtol 10 (f.header.drop 3) = f.name.length := by
  have small : (numeral 10 f.name.length).length < 13 := by
    have : (numeral 10 f.name.length).length ≤ 2 := by
      apply numeral_length (by decide) (by decide)
      exact f.named.2.trans_lt (by decide)
    omega
  rw [header, label_of_extended long]
  simp only [append_assoc]
  exact strtol_field_append (by decide) (by decide) small _

def padding (f : File) : ℕ :=
  if f.content = [] then 0 else (f.content.length + f.lname) % 2

def tail (f : File) : List UInt8 := if f.extended then f.name else []

lemma tail_length (f : File) : f.tail.length = f.lname := by
  simp only [tail, lname]
  split <;> rfl

lemma padding_le (f : File) : f.padding ≤ 1 := by
  rw [padding]
  split
  · exact Nat.zero_le 1
  · omega

lemma copy_ar_eq (f : File) :
    copy_ar f.content f.lname = f.content ++ List.replicate f.padding NEWLINE := by
  rw [copy_ar, padding]
  split
  · rename_i empty
    rw [empty]
    rfl
  · rcases Nat.mod_two_eq_zero_or_one (f.content.length + f.lname) with even | odd
    · simp [even]
    · simp [odd]

lemma put_eq (f : File) :
    put_arobj f = f.header ++ (f.tail ++ (f.content ++ List.replicate f.padding NEWLINE)) := by
  rw [← f.copy_ar_eq, ← append_assoc]
  rfl

end File

/-! ### One member read -/

variable {file : List UInt8} {pos : ℕ}

section Reading

variable {f : File} {rest : List UInt8}

lemma read_eq {l : List UInt8} (here : file.drop pos = l) (n : ℕ) : read file pos n = l.take n := by
  rw [read, here]

section

variable (here : file.drop pos = put_arobj f ++ rest)
include here

lemma read_header : read file pos ARHDRSZ = f.header := by
  rw [read_eq here, f.put_eq, append_assoc]
  exact take_left' f.header_length

lemma drop_header : file.drop (pos + ARHDRSZ) =
      f.tail ++ (f.content ++ (List.replicate f.padding NEWLINE ++ rest)) := by
  rw [← drop_drop, here, f.put_eq]
  simp only [append_assoc]
  exact drop_left' f.header_length

lemma drop_tail : file.drop (pos + ARHDRSZ + f.lname) =
      f.content ++ (List.replicate f.padding NEWLINE ++ rest) := by
  rw [← drop_drop, drop_header here]
  exact drop_left' f.tail_length

lemma drop_content : file.drop (pos + ARHDRSZ + f.lname + f.content.length) =
      List.replicate f.padding NEWLINE ++ rest := by
  rw [← drop_drop, drop_tail here]
  exact drop_left' rfl

lemma read_content : read file (pos + ARHDRSZ + f.lname) f.content.length = f.content := by
  rw [read_eq (drop_tail here)]
  exact take_left' rfl

/-- `get_arobj` in front of a member that was written. -/
lemma get_arobj_put : ∃ chdr, get_arobj file pos = .member chdr (pos + ARHDRSZ + f.lname) ∧
      chdr.name = f.name ∧ chdr.size = f.content.length ∧ chdr.lname = f.lname := by
  have label : f.header.head? = f.label.head? := by
    rw [← f.header_label, head?_take]
    rfl
  have mark : f.header.take 3 = f.label.take 3 := by
    rw [← f.header_label, take_take]
    rfl
  rw [get_arobj, read_header here]
  simp only [f.header_length, f.header_fmag, label, f.label_head, mark, f.label_efmt]
  cases kind : f.extended with
  | true =>
    have whole : f.lname = f.name.length := if_pos kind
    have name : read file (pos + ARHDRSZ) f.name.length = f.name := by
      have tail : f.tail = f.name := if_pos kind
      rw [read_eq (drop_header here), tail]
      exact take_left' rfl
    have named := f.named
    rw [if_pos rfl, long_name, File.atoi_header kind]
    simp only [Int.toNat_natCast, name, ne_eq, not_true_eq_false, if_false]
    rw [if_neg (by omega)]
    refine ⟨_, by rw [whole], rfl, ?_, whole.symm⟩
    simp only [f.convert_size, whole]
    omega
  | false =>
    have none : f.lname = 0 := if_neg (by rw [kind]; decide)
    rw [if_neg (by decide), none]
    refine ⟨_, rfl, ?_, ?_, rfl⟩
    · simp only [convert]
      rw [f.header_label, File.strip_label kind]
    · rw [f.convert_size, none]
      rfl

end

/-- A place where the last two bytes of a header do not stand is refused. -/
lemma get_arobj_badfmt {l : List UInt8} (here : file.drop pos = l) (more : l ≠ [])
    (wrong : l[58]? ≠ some 96 ∨ l[59]? ≠ some NEWLINE) : get_arobj file pos = .badfmt := by
  have nonempty : l.take ARHDRSZ ≠ [] := by simpa using more
  have fmag : (l.take ARHDRSZ).drop 58 ≠ ARFMAG := by
    intro same
    have byte : ∀ k : ℕ, ((l.take ARHDRSZ).drop 58)[k]? = ARFMAG[k]? := fun k => by rw [same]
    have first := byte 0
    have second := byte 1
    simp only [ARFMAG] at first second
    rcases wrong with h | h
    · exact h (by simpa [ARHDRSZ] using first)
    · exact h (by simpa [ARHDRSZ] using second)
  rw [get_arobj, read_eq here]
  simp [nonempty, fmag]

lemma header_bytes (g : File) (rest : List UInt8) :
    (put_arobj g ++ rest)[58]? = some 96 ∧ (put_arobj g ++ rest)[59]? = some NEWLINE := by
  obtain ⟨front, length, shape⟩ := g.header_front
  rw [g.put_eq, shape]
  constructor
  · simp [length, ARFMAG]
  · simp [getElem?_append, length, ARFMAG]

end Reading

/-! ### All members read -/

/-- What `skip_arobj` steps over is what was written: the contents are even, and an empty
file has no odd name behind its header. -/
def File.Even (f : File) : Prop :=
  f.content.length % 2 = 0 ∧ (f.content = [] → f.lname % 2 = 0)

/-- Behind the last member a byte too far is harmless, and a byte too few is not. -/
def File.EvenLast (f : File) : Prop := f.content.length % 2 = 0 ∨ f.lname % 2 = 1

lemma File.even_iff (f : File) : f.Even ↔ f.padding = f.lname % 2 := by
  rw [File.Even, File.padding]
  split
  · rename_i empty
    simp only [empty, length_nil, forall_const, true_and]
    exact eq_comm
  · rename_i full
    simp only [full, false_implies, and_true]
    omega

lemma File.evenLast_iff (f : File) : f.EvenLast ↔ f.padding ≤ f.lname % 2 := by
  rw [File.EvenLast, File.padding]
  split
  · rename_i empty
    simp [empty]
  · omega

def Aligned : List File → Prop
  | [] => True
  | [f] => f.EvenLast
  | f :: g :: files => f.Even ∧ Aligned (g :: files)

lemma aligned_cons {f : File} (even : f.Even) (files : List File) :
    Aligned (f :: files) ↔ Aligned files := by
  cases files with
  | nil => exact iff_of_true (.inl even.1) trivial
  | cons g files => exact and_iff_right even

section Members

def seen (file : List UInt8) (m : Chdr × ℕ) : List UInt8 × ℤ × List UInt8 :=
  (m.1.name, m.1.size, read file m.2 m.1.size.toNat)

def told (f : File) : List UInt8 × ℤ × List UInt8 := (f.name, f.content.length, f.content)

variable {rest : List UInt8}

lemma members_put {f : File} (here : file.drop pos = put_arobj f ++ rest) (fuel : ℕ) :
    (members file (fuel + 1) pos).map (List.map (seen file)) = ((members file fuel
          (pos + ARHDRSZ + f.lname + f.content.length + f.lname % 2)).map
        (List.map (seen file))).map (told f :: ·) := by
  obtain ⟨chdr, got, name, size, lname⟩ := get_arobj_put here
  have skipped : skip_arobj chdr (pos + ARHDRSZ + f.lname) =
      some (pos + ARHDRSZ + f.lname + f.content.length + f.lname % 2) := by
    rw [skip_arobj, if_neg (by omega)]
    congr 1
    omega
  have same : seen file (chdr, pos + ARHDRSZ + f.lname) = told f := by
    simp [seen, told, name, size, read_content here]
  rw [members, got]
  simp only [skipped, Option.bind_some, Option.map_map]
  congr 1
  funext ms
  simp [same]

lemma members_badfmt {l : List UInt8} (here : file.drop pos = l) (more : l ≠ [])
    (wrong : l[58]? ≠ some 96 ∨ l[59]? ≠ some NEWLINE) (fuel : ℕ) :
    members file fuel pos = none := by
  cases fuel with
  | zero => rfl
  | succ fuel => rw [members, get_arobj_badfmt here more wrong]

lemma members_eof (here : file.drop pos = []) (fuel : ℕ) :
    members file (fuel + 1) pos = some [] := by
  apply members_end
  rw [get_arobj, read_eq here]
  rfl

/-- A byte too few is skipped: the padding stands where a header is expected. -/
lemma members_behind (here : file.drop pos = NEWLINE :: rest) (files : List File)
    (members_next : rest = files.flatMap put_arobj) (fuel : ℕ) : members file fuel pos = none := by
  apply members_badfmt here (by simp)
  cases files with
  | nil =>
    left
    simp [members_next]
  | cons g files =>
    right
    rw [getElem?_cons_succ, members_next, flatMap_cons, (header_bytes g _).1]
    decide

/-- A byte too many is skipped: the reader starts inside the next header. -/
lemma members_ahead {g : File} (here : file.drop pos = put_arobj g ++ rest) (fuel : ℕ) :
    members file fuel (pos + 1) = none := by
  have shifted : file.drop (pos + 1) = (put_arobj g ++ rest).drop 1 := by rw [← drop_drop, here]
  have newline : ((put_arobj g ++ rest).drop 1)[58]? = some NEWLINE := by
    rw [getElem?_drop, (header_bytes g rest).2]
  apply members_badfmt shifted
  · intro empty
    rw [empty] at newline
    cases newline
  · left
    rw [newline]
    decide

/-- The members from any place in the archive on: read back exactly when aligned. -/
lemma members_iff (files : List File) (here : file.drop pos = files.flatMap put_arobj)
    {fuel : ℕ} (enough : files.length < fuel) :
    (members file fuel pos).map (List.map (seen file)) = some (files.map told) ↔ Aligned files := by
  induction files generalizing pos fuel with
  | nil =>
    obtain ⟨fuel, rfl⟩ : ∃ k, fuel = k + 1 := ⟨fuel - 1, by omega⟩
    rw [members_eof here]
    exact iff_of_true rfl trivial
  | cons f files ih =>
    obtain ⟨fuel, rfl⟩ : ∃ k, fuel = k + 1 := ⟨fuel - 1, by omega⟩
    rw [length_cons] at enough
    have after := drop_content here
    rw [members_put here]
    by_cases even : f.Even
    · have pad := f.even_iff.mp even
      have next : file.drop (pos + ARHDRSZ + f.lname + f.content.length + f.lname % 2) =
          files.flatMap put_arobj := by
        rw [← drop_drop, after]
        exact drop_left' (by rw [length_replicate, pad])
      have less : files.length < fuel := by omega
      rw [aligned_cons even, ← ih next less, Option.map_eq_some_iff]
      constructor
      · rintro ⟨ms, got, same⟩
        rw [got]
        exact congrArg some (cons.inj same).2
      · intro got
        exact ⟨_, got, rfl⟩
    · have parity : f.padding ≤ 1 := f.padding_le
      have differ : f.padding ≠ f.lname % 2 := fun same => even (f.even_iff.mpr same)
      rcases Nat.mod_two_eq_zero_or_one f.lname with stays | steps
      · have one : f.padding = 1 := by omega
        rw [one] at after
        rw [stays, add_zero, members_behind after files rfl]
        refine iff_of_false nofun ?_
        cases files with
        | nil => exact fun last => absurd (f.evenLast_iff.mp last) (by omega)
        | cons g files => exact fun aligned => even aligned.1
      · have zero : f.padding = 0 := by omega
        rw [zero] at after
        rw [steps]
        cases files with
        | nil =>
          obtain ⟨fuel, rfl⟩ : ∃ k, fuel = k + 1 := ⟨fuel - 1, by omega⟩
          have gone : file.drop (pos + ARHDRSZ + f.lname + f.content.length + 1) = [] := by
            rw [← drop_drop, after]
            rfl
          rw [members_eof gone]
          exact iff_of_true rfl (f.evenLast_iff.mpr (by omega))
        | cons g files =>
          have next : file.drop (pos + ARHDRSZ + f.lname + f.content.length) =
              put_arobj g ++ files.flatMap put_arobj := after
          rw [members_ahead next]
          exact iff_of_false nofun fun aligned => even aligned.1

end Members

/-! ### The walk of `ld` -/

/-- No name stands behind a header, and only the last member may be odd. -/
def Plain : List File → Prop
  | [] => True
  | [f] => f.extended = false
  | f :: g :: files => f.extended = false ∧ f.content.length % 2 = 0 ∧ Plain (g :: files)

lemma plain_cons {f : File} (short : f.extended = false) (even : f.content.length % 2 = 0)
    (files : List File) : Plain (f :: files) ↔ Plain files := by
  cases files with
  | nil => exact iff_of_true short trivial
  | cons g files => exact ⟨fun plain => plain.2.2, fun plain => ⟨short, even, plain⟩⟩

section Walk

lemma fields_none (name : List UInt8) (wrong : (file.drop pos)[43]? ≠ some NEWLINE) :
    fields file name pos = none := by
  have fmag : (read file pos 44).drop 42 ≠ ARFMAG := by
    intro same
    have second : ((read file pos 44).drop 42)[1]? = ARFMAG[1]? := by rw [same]
    simp only [read, ARFMAG] at second
    exact wrong (by simpa using second)
  rw [fields]
  simp [fmag]

variable {f : File} {rest : List UInt8}

lemma fgetarhdr_put (short : f.extended = false) (here : file.drop pos = put_arobj f ++ rest) :
    ∃ h, fgetarhdr file pos = some h ∧ h.ar_name = f.name ∧ h.ar_size = f.content.length := by
  have none : f.lname = 0 := if_neg (by rw [short]; decide)
  have label : read file pos 16 = f.label := by
    rw [← f.header_label, ← read_header here, read, read, take_take]
    rfl
  have behind : read file (pos + 16) 44 = f.header.drop 16 := by
    rw [← read_header here, read, read, drop_take, drop_drop]
    rfl
  have mark : f.label.take 3 ≠ AR_EFMT1 := by
    rw [Ne, f.label_efmt, short]
    decide
  have length : (f.header.drop 16).length = 44 := by
    rw [length_drop, f.header_length]
    rfl
  rw [fgetarhdr, label]
  simp only [f.label_length, f.label_head, if_false, mark]
  rw [fields, behind]
  simp only [length, ne_eq, not_true_eq_false, if_false, drop_drop, f.header_fmag,
    Nat.reduceAdd, f.header_size, none, add_zero, strtol_field (by decide) le_rfl]
  exact ⟨_, rfl, File.strip_label short, rfl⟩

/-- The padding in front of the next header stops the walk. -/
lemma fgetarhdr_behind (files : List File)
    (here : file.drop pos = NEWLINE :: files.flatMap put_arobj) : fgetarhdr file pos = none := by
  have start : (read file pos 16).take 3 ≠ AR_EFMT1 := by
    rw [read_eq here]
    intro same
    exact absurd (cons.inj same).1 (by decide)
  have none : fields file (strip (read file pos 16)) (pos + 16) = none := by
    apply fields_none
    rw [← drop_drop, here, getElem?_drop, getElem?_cons_succ]
    cases files with
    | nil => simp
    | cons g files =>
      rw [ flatMap_cons, (header_bytes g _).1]
      decide
  rw [fgetarhdr]
  simp [start, none]

lemma fgetarhdr_end (here : file.drop pos = []) : fgetarhdr file pos = none := by
  rw [fgetarhdr, read_eq here]
  rfl

/-- The name behind a header stands where `ld` looks for the contents. -/
lemma read_extended_ne (long : f.extended = true)
    (object : f.Object) (here : file.drop pos = put_arobj f ++ rest) (n : ℕ) :
    read file (pos + ARHDRSZ) n ≠ f.content := by
  intro same
  have tail : f.tail = f.name := if_pos long
  rw [read_eq (drop_header here), tail] at same
  obtain ⟨length, magic⟩ := object
  have byte : ∀ k < 4, f.content[k]? = ([6, 1, 0, 0] : List UInt8)[k]? := by
    intro k hk
    rw [← magic, getElem?_take, if_pos hk]
  have moved : ∀ k < 4, (f.name ++ (f.content ++ (replicate f.padding NEWLINE ++ rest)))[k]? =
      f.content[k]? := by
    intro k hk
    have inside : k < (take n
        (f.name ++ (f.content ++ (replicate f.padding NEWLINE ++ rest)))).length := by
      rw [same]
      omega
    conv_rhs => rw [← same]
    rw [length_take] at inside
    rw [getElem?_take, if_pos (by omega)]
  have third := (moved 2 (by decide)).trans (byte 2 (by decide))
  have named := f.named
  rcases Nat.lt_or_ge 2 f.name.length with inner | outer
  · rw [getElem?_append_left inner] at third
    exact f.component.1 (mem_of_getElem? third)
  · rw [getElem?_append_right outer, getElem?_append_left (by omega)] at third
    have clash := (byte _ (by omega)).symm.trans third
    obtain one | two : f.name.length = 1 ∨ f.name.length = 2 := by omega
    · rw [one] at clash
      cases clash
    · rw [two] at clash
      cases clash

def found (file : List UInt8) (m : Archdr × ℕ) : List UInt8 × List UInt8 :=
  (m.1.ar_name, read file (m.2 + ARHDRSZ) m.1.ar_size.toNat)

/-- One turn of the loop in front of a member with a short name. -/
lemma load1lib_put (short : f.extended = false)
    (here : file.drop pos = put_arobj f ++ rest) (fuel : ℕ) :
    (load1lib file (fuel + 1) pos).map (List.map (found file)) =
      ((load1lib file fuel (pos + ARHDRSZ + f.content.length)).map
        (List.map (found file))).map ((f.name, f.content) :: ·) := by
  obtain ⟨h, got, name, size⟩ := fgetarhdr_put short here
  have none : f.lname = 0 := if_neg (by rw [short]; decide)
  have content := read_content here
  rw [none, add_zero] at content
  have same : found file (h, pos) = (f.name, f.content) := by simp [found, name, size, content]
  have next : ((pos : ℤ) + f.content.length + ARHDRSZ).toNat =
      pos + ARHDRSZ + f.content.length := by
    omega
  rw [load1lib, got]
  simp only [size, next, Option.map_map]
  congr 1
  funext ms
  simp [same]

/-- The objects from any offset on: visited exactly when plain. -/
lemma load1lib_iff (files : List File) (objects : ∀ f ∈ files, f.Object)
    (here : file.drop pos = files.flatMap put_arobj) {fuel : ℕ} (enough : files.length < fuel) :
    (load1lib file fuel pos).map (List.map (found file)) =
      some (files.map fun f => (f.name, f.content)) ↔ Plain files := by
  induction files generalizing pos fuel with
  | nil =>
    obtain ⟨fuel, rfl⟩ : ∃ k, fuel = k + 1 := ⟨fuel - 1, by omega⟩
    rw [load1lib_none (fgetarhdr_end here)]
    exact iff_of_true rfl trivial
  | cons f files ih =>
    obtain ⟨fuel, rfl⟩ : ∃ k, fuel = k + 1 := ⟨fuel - 1, by omega⟩
    rw [length_cons] at enough
    have less : files.length < fuel := by omega
    have objects' : ∀ g ∈ files, g.Object := fun g hg => objects g (mem_cons_of_mem f hg)
    cases kind : f.extended with
    | true =>
      refine iff_of_false ?_ ?_
      · have away := read_extended_ne kind (objects f mem_cons_self) here
        rw [load1lib]
        cases got : fgetarhdr file pos with
        | none => simp
        | some h =>
          intro same
          rw [Option.map_map, Option.map_eq_some_iff] at same
          obtain ⟨ms, -, same⟩ := same
          exact away _ (congrArg Prod.snd (cons.inj same).1)
      · cases files with
        | nil => exact fun short => Bool.noConfusion (kind.symm.trans short)
        | cons g files => exact fun plain => Bool.noConfusion (kind.symm.trans plain.1)
    | false =>
      have none : f.lname = 0 := if_neg (by rw [kind]; decide)
      have after := drop_content here
      rw [none, add_zero] at after
      rw [load1lib_put kind here]
      rcases Nat.mod_two_eq_zero_or_one f.content.length with even | odd
      · have pad : f.padding = 0 := by rw [File.padding, none, add_zero, even, ite_self]
        rw [pad] at after
        rw [plain_cons kind even, ← ih objects' after less, Option.map_eq_some_iff]
        constructor
        · rintro ⟨ms, got, same⟩
          rw [got]
          exact congrArg some (cons.inj same).2
        · intro got
          exact ⟨_, got, rfl⟩
      · have pad : f.padding = 1 := by
          rw [File.padding, if_neg (fun empty => by simp [empty] at odd), none, add_zero, odd]
        obtain ⟨fuel, rfl⟩ : ∃ k, fuel = k + 1 := ⟨fuel - 1, by omega⟩
        rw [pad] at after
        rw [load1lib_none (fgetarhdr_behind files after)]
        cases files with
        | nil => exact iff_of_true rfl kind
        | cons g files =>
          refine iff_of_false (by simp) ?_
          intro plain
          exact absurd plain.2.1 (by omega)

end Walk

/-! ### Whole archives -/

lemma length_le_archive (files : List File) : files.length < (archive files).length + 1 := by
  have members : files.length ≤ (files.flatMap put_arobj).length := by
    induction files with
    | nil => exact Nat.zero_le _
    | cons f files ih =>
      rw [flatMap_cons, length_append, f.put_eq, length_append, f.header_length,
        length_cons, add_comm]
      exact Nat.add_le_add (Nat.le_add_right_of_le (by decide)) ih
  rw [archive, length_append]
  omega

lemma archive_drop (files : List File) :
    (archive files).drop SARMAG = files.flatMap put_arobj := drop_left' rfl

/-- The archives that both readers read back. -/
theorem archive_read_back_iff (files : List File) :
    (ReadBack files ∧ ((∀ f ∈ files, f.Object) → Visited files)) ↔
      Aligned files ∧ ((∀ f ∈ files, f.Object) → Plain files) := by
  apply and_congr
  · exact members_iff files (archive_drop files) (length_le_archive files)
  · apply forall_congr'
    intro objects
    exact load1lib_iff files objects (archive_drop files) (length_le_archive files)

def oneByte (name : UInt8) (named : name ≠ 0 ∧ name ≠ SLASH) : File where
  name := [name]
  content := [120]
  mtime := 0
  uid := 0
  gid := 0
  mode := 33188
  named := ⟨Nat.one_pos, show 1 ≤ MAXNAMLEN by decide⟩
  component := by
    constructor
    · exact fun h => named.1 (mem_singleton.mp h).symm
    · exact fun h => named.2 (mem_singleton.mp h).symm
  mtime_fits := by decide
  uid_fits := by decide
  gid_fits := by decide
  mode_fits := by decide
  size_fits := by decide

/-- Behind the first of two files of one byte each, `ar` stands on the padding. -/
theorem one_byte_not_read_back : ¬ (ReadBack [oneByte 97 (by decide), oneByte 98 (by decide)] ∧
      ((∀ f ∈ [oneByte 97 (by decide), oneByte 98 (by decide)], f.Object) →
        Visited [oneByte 97 (by decide), oneByte 98 (by decide)])) := by
  rintro ⟨back, -⟩
  revert back
  decide +kernel

end Archives
