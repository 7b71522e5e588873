import RetroBSD.LinkValues
import RetroBSD.AssemblerStreams

/-!
# Words that are moved twice

A word is moved by `ld -r`, and what is written is moved again to an executable. The record
carries the low half of an address through both, so that for most formats the word becomes
what it is when it is moved at once.
-/

namespace LinkEditor

open ObjectFiles Option
open Assembler (Reloc fgetrel fputrel)

/-! ### Records that are read back -/

lemma external_iff (flags : UInt8) : Assembler.external flags = true ↔ rsegment flags = .ext := by
  have all : ∀ n < 256, (n &&& 0x70 == 0x70) = (n / 16 % 8 == 7) := by decide +kernel
  rw [Assembler.external, all flags.toNat flags.toNat_lt, beq_iff_eq, rsegment]
  constructor
  · intro seven
    simp [seven]
  · intro ext
    split at ext <;> first | assumption | exact nomatch ext

lemma high_iff (flags : UInt8) :
    Assembler.high flags = true ↔ rformat flags = .high16 ∨ rformat flags = .high16s := by
  have low : flags.toNat &&& 0x07 = flags.toNat % 8 := Nat.and_two_pow_sub_one_eq_mod _ 3
  rw [Assembler.high, low, Bool.or_eq_true, beq_iff_eq, beq_iff_eq, rformat]
  constructor
  · rintro (two | three)
    · rw [two]
      exact .inl rfl
    · rw [three]
      exact .inr rfl
  · intro high
    split at high <;> simp_all

/-- A record as it is read back. -/
def readBack (r : Reloc) : Reloc where
  flags := r.flags
  index := if Assembler.external r.flags then r.index % 2 ^ 24 else 0
  offset := if Assembler.high r.flags then r.offset % 2 ^ 16 else 0

lemma fgetrel_fputrel (r : Reloc) (rest : List UInt8) :
    fgetrel (fputrel r ++ rest) = some (readBack r, rest) :=
  Assembler.fgetrel_put r rest

lemma fgetrel_offset {file rest : List UInt8} {r : Reloc} (read : fgetrel file = some (r, rest)) :
    r.offset < 2 ^ 16 := by
  cases file with
  | nil => exact nomatch read
  | cons flags file =>
    obtain ⟨i, -, more⟩ := bind_eq_some_iff.mp read
    obtain ⟨o, offset, same⟩ := map_eq_some_iff.mp more
    cases same
    unfold Assembler.fgetoffset at offset
    split_ifs at offset
    · split at offset
      · cases offset
        rename_i x y _ _
        have := x.toNat_lt
        have := y.toNat_lt
        simp only
        omega
      · exact nomatch offset
    · cases offset
      exact show 0 < 2 ^ 16 by decide

/-! ### What is added -/

/-- The word that `patch` makes. -/
def field (format : RFormat) (found : Bool) (part word delta offset : ℕ) : ℕ :=
  match format with
  | .byte16 => setLow word (word % 2 ^ 16 + delta)
  | .byte32 => (word + delta) % WORDS
  | .word16 =>
    if found then setLow word (sub (word % 2 ^ 16 * 2 ^ 2 + delta) (offset + 4) / 2 ^ 2) else word
  | .word26 => setTarget word ((word % 2 ^ 26 * 2 ^ 2 + delta) % WORDS / 2 ^ 2)
  | .high16 => setLow word ((word % 2 ^ 16 * 2 ^ 16 + delta + part) % WORDS / 2 ^ 16)
  | .high16s => setLow word ((word % 2 ^ 16 * 2 ^ 16 + delta + (part + 0x8000)) % WORDS / 2 ^ 16)
  | .none => word

/-- The record that `patch` makes: a branch to a defined symbol is settled. -/
def settled (d : Delta) : Reloc :=
  if rformat d.rel.flags = .word16 ∧ d.found then { d.rel with flags := 0 } else d.rel

lemma patch_eq (word : ℕ) (d : Delta) (offset : ℕ) : patch word d offset =
    (field (rformat d.rel.flags) d.found d.rel.offset word d.delta offset, settled d) := by
  rw [patch, settled]
  cases format : rformat d.rel.flags with
  | word16 => cases found : d.found <;> simp [field, address]
  | byte16 | byte32 | word26 | high16 | high16s | none => simp [field, address]

/-- A record is relative to the same segment, in the same format. -/
lemma rsegment_retype (flags : UInt8) (g : RSegment) : rsegment (retype flags g) = g := by
  have bits : (retype flags g).toNat / 16 % 8 = g.bits := by
    rw [retype, UInt8.toNat_ofNat']
    cases g <;> simp only [RSegment.bits] <;> omega
  rw [rsegment, bits]
  cases g <;> rfl

lemma rformat_retype (flags : UInt8) (g : RSegment) : rformat (retype flags g) = rformat flags := by
  have bits : (retype flags g).toNat % 8 = flags.toNat % 8 := by
    rw [retype, UInt8.toNat_ofNat']
    omega
  rw [rformat, bits, ← rformat]

lemma gprel_retype (flags : UInt8) (g : RSegment) : gprel (retype flags g) = gprel flags := by
  have bits : (retype flags g).toNat / 8 % 2 = flags.toNat / 8 % 2 := by
    rw [retype, UInt8.toNat_ofNat']
    omega
  rw [gprel, bits, ← gprel]

lemma rformat_ungprel (flags : UInt8) : rformat (ungprel flags) = rformat flags := by
  have bits : (ungprel flags).toNat % 8 = flags.toNat % 8 := by
    rw [ungprel, UInt8.toNat_ofNat']
    omega
  rw [rformat, bits, ← rformat]

variable {m : Module} {f : RFormat}

/-- The word that `relword` makes, once it is known what is to be added. -/
lemma relword_eq {rel : Reloc} {d : Delta} (add : delta m rel = some d)
    (word offset : ℕ) : ∃ rel', relword m word rel offset = some
      (field (rformat d.rel.flags) d.found d.rel.offset word
        (if gprel d.rel.flags ∧ ¬ m.output_relinfo then sub d.delta m.gp else d.delta) offset, rel') := by
  rw [relword, add, map_some, gpdelta]
  split_ifs with relative
  · rw [patch_eq]
    simp only [rformat_ungprel]
    exact ⟨_, rfl⟩
  · rw [patch_eq]
    exact ⟨_, rfl⟩

/-! ### Adding twice -/

lemma field_mod (f : RFormat) (found : Bool) (part w x o : ℕ) :
    field f found part w (x % WORDS) o = field f found part w x o := by
  cases f <;> simp [field, setLow, sub, WORDS]
  case word16 =>
    split_ifs
    · omega
    · rfl
  all_goals omega

lemma setLow_inj (w x y : ℕ) : setLow w x = setLow w y ↔ x % 2 ^ 16 = y % 2 ^ 16 := by
  simp only [setLow]
  omega

lemma setLow_setLow (w x y : ℕ) : setLow (setLow w x) y = setLow w y := by
  simp only [setLow]
  omega

lemma setLow_mod (w x : ℕ) : setLow w x % 2 ^ 16 = x % 2 ^ 16 := by
  simp only [setLow]
  omega

/-- What goes to the high half when `x` is added to a low half `c`. -/
def carry (c x : ℕ) : ℕ := (x + c) % WORDS / 2 ^ 16

/-- Two additions to the high half are one, if the carries add up. -/
lemma high_twice (w x y c : ℕ) : setLow (setLow w ((w % 2 ^ 16 * 2 ^ 16 + x + c) % WORDS / 2 ^ 16))
        ((setLow w ((w % 2 ^ 16 * 2 ^ 16 + x + c) % WORDS / 2 ^ 16) % 2 ^ 16 * 2 ^ 16 + y + c) %
          WORDS / 2 ^ 16) =
      setLow w ((w % 2 ^ 16 * 2 ^ 16 + (x + y) + c) % WORDS / 2 ^ 16) ↔
    (carry c x + carry c y) % 2 ^ 16 = carry c (x + y) := by
  have split (h x : ℕ) : (h * 2 ^ 16 + x + c) % WORDS / 2 ^ 16 = (h + carry c x) % 2 ^ 16 := by
    simp only [carry, WORDS]
    omega
  have small : carry c (x + y) < 2 ^ 16 := by
    simp only [carry, WORDS]
    omega
  rw [setLow_setLow, setLow_mod, split, split, split, setLow_inj]
  omega

/-- Two additions to the target of a jump are one, if one is of whole words. -/
lemma target_twice (w x y : ℕ) (even : x % 4 = 0 ∨ y % 4 = 0) :
    setTarget (setTarget w ((w % 2 ^ 26 * 2 ^ 2 + x) % WORDS / 2 ^ 2))
        ((setTarget w ((w % 2 ^ 26 * 2 ^ 2 + x) % WORDS / 2 ^ 2) % 2 ^ 26 * 2 ^ 2 + y) %
          WORDS / 2 ^ 2) =
      setTarget w ((w % 2 ^ 26 * 2 ^ 2 + (x + y)) % WORDS / 2 ^ 2) := by
  have split (h x : ℕ) : (h * 2 ^ 2 + x) % WORDS / 2 ^ 2 % 2 ^ 26 = (h + x / 4) % 2 ^ 26 := by
    simp only [WORDS]
    omega
  have low (w x : ℕ) : setTarget w x % 2 ^ 26 = x % 2 ^ 26 := by
    simp only [setTarget]
    omega
  have again (w x y z : ℕ) (same : y % 2 ^ 26 = z % 2 ^ 26) :
      setTarget (setTarget w x) y = setTarget w z := by
    simp only [setTarget]
    omega
  apply again
  rw [low, split, split, split]
  omega

/-- The carries to a high half add up. -/
def Carries (f : RFormat) (part x y : ℕ) : Prop :=
  match f with
  | .high16 => (carry part x + carry part y) % 2 ^ 16 = carry part (x + y)
  | .high16s => (carry (part + 0x8000) x + carry (part + 0x8000) y) % 2 ^ 16 =
    carry (part + 0x8000) (x + y)
  | _ => True

/-- The format is not that of a branch. -/
lemma field_twice (other : f ≠ .word16) (found found' : Bool) (part w x y o o' : ℕ)
    (even : x % 4 = 0 ∨ y % 4 = 0) :
    field f found' part (field f found part w x o) y o' = field f found' part w (x + y) o' ↔
      Carries f part x y := by
  cases f with
  | byte16 =>
    simp only [field, setLow, Carries, iff_true]
    omega
  | byte32 =>
    simp only [field, WORDS, Carries, iff_true]
    omega
  | word16 => exact absurd rfl other
  | word26 =>
    simp only [Carries, iff_true]
    exact target_twice w x y even
  | high16 => exact high_twice w x y part
  | high16s => exact high_twice w x y _
  | none => simp [field, Carries]

/-- A branch that has been settled is right if the distance stays the same. -/
lemma branch_settled (part w x y o b : ℕ) (base : b % 4 = 0) (even : y % 4 = 0) :
    field .word16 true part w x o = field .word16 true part w (x + y) (o + b) ↔
      sub y b % 2 ^ 18 = 0 := by
  simp only [field, if_true, setLow_inj, sub, WORDS]
  omega

lemma field_part {part part' : ℕ}
    (high : f = .high16 ∨ f = .high16s → part = part') (found : Bool) (w x o : ℕ) :
    field f found part w x o = field f found part' w x o := by
  cases f with
  | high16 => rw [high (.inl rfl)]
  | high16s => rw [high (.inr rfl)]
  | byte16 | byte32 | word16 | word26 | none => rfl

lemma field_found (other : f ≠ .word16) (found found' : Bool) (part w x o : ℕ) :
    field f found part w x o = field f found' part w x o := by
  cases f with
  | word16 => exact absurd rfl other
  | high16 | high16s | byte16 | byte32 | word26 | none => rfl

variable {x y word offset : ℕ} {rel' : Reloc}

lemma sub_even (one : x % 4 = 0) (two : y % 4 = 0) : sub x y % 4 = 0 := by
  simp only [sub, WORDS]
  omega

/-! ### The three modules -/

/-- The modules of a file in `ld -r` and in the executable at `b`, and the module of the output
of `ld -r` in its executable. -/
structure Moves (b : ℕ) (r l m : Module) : Prop where
  base : b % 4 = 0
  pointer : l.gp % 4 = 0
  ctrel : l.ctrel = (r.ctrel + b) % WORDS
  cdrel : l.cdrel = (r.cdrel + b) % WORDS
  cbrel : l.cbrel = (r.cbrel + b) % WORDS
  text : m.ctrel = b % WORDS
  data : m.cdrel = b % WORDS
  bss : m.cbrel = b % WORDS
  kept : r.output_relinfo = true
  direct : l.output_relinfo = false
  final : m.output_relinfo = false
  gp : m.gp = l.gp
  locals : l.locals = r.locals
  symtab : m.symtab = l.symtab
  room : r.symtab.length ≤ NSYM
  shifted : ∀ (i : ℕ) (s : Nlist), r.symtab[i]? = some s → ∃ t, l.symtab[i]? = some t ∧ Shifted b s t
  named : ∀ (i : ℕ) (s : Nlist), r.symtab[i]? = some s → s.n_type = extern_ .undf → lookloc m (r.nsym + i) = some i
  only : ∀ n i, lookloc m n = some i → r.nsym ≤ n

/-- What the second link adds to the address of a word, but for the global pointer. -/
def remainder (b nsym : ℕ) (symtab : List Nlist) (d : Delta) : ℕ :=
  match rsegment d.rel.flags with
  | .ext => ((symtab[d.rel.index - nsym]?).map Nlist.n_value).getD 0
  | g => shift b g

/-- What the second link adds to the address of a word. -/
def later (b gp nsym : ℕ) (symtab : List Nlist) (d : Delta) : ℕ :=
  if gprel d.rel.flags then sub (remainder b nsym symtab d) gp else remainder b nsym symtab d

/-- The word becomes what it is when it is linked at once. A reference to a symbol that `ld`
defines has an index that fits into the record; the carries to a high half add up; and a
branch does not go to an absolute address. -/
def Commutes (b gp nsym : ℕ) (symtab : List Nlist) (d : Delta) : Prop :=
  (rsegment d.rel.flags = .ext → d.rel.index < 2 ^ 24) ∧
    Carries (rformat d.rel.flags) d.rel.offset d.delta (later b gp nsym symtab d) ∧
    (rformat d.rel.flags = .word16 → d.found = true → sub (later b gp nsym symtab d) b % 2 ^ 18 = 0)

/-- What the direct link adds, and what the second link adds. -/
structure Again (r l m : Module) (rel : Reloc) (d : Delta) (x : ℕ) : Prop where
  direct : ∃ dl, delta l rel = some dl ∧ rformat dl.rel.flags = rformat d.rel.flags ∧
    gprel dl.rel.flags = gprel d.rel.flags ∧ dl.rel.offset = d.rel.offset ∧
    dl.delta % WORDS = (d.delta + x) % WORDS ∧
    (dl.found = true ↔ d.found = true ∨ rsegment d.rel.flags = .ext)
  later : (rsegment d.rel.flags = .ext → d.rel.index < 2 ^ 24) → ∃ dm, delta m (readBack d.rel) = some dm ∧
    rformat dm.rel.flags = rformat d.rel.flags ∧ gprel dm.rel.flags = gprel d.rel.flags ∧
    dm.rel.offset = (readBack d.rel).offset ∧ dm.delta % WORDS = x % WORDS ∧
    (dm.found = true ↔ rsegment d.rel.flags = .ext)
  lost : rsegment d.rel.flags = .ext → ¬ d.rel.index < 2 ^ 24 → delta m (readBack d.rel) = none
  offset : d.rel.offset = rel.offset
  symbol : rsegment d.rel.flags = .ext → d.delta = 0 ∧ d.found = false
  even : rsegment d.rel.flags ≠ .ext → x % 4 = 0

def displacement (m : Module) : RSegment → ℕ
  | .text => m.ctrel
  | .data => m.cdrel
  | .bss => m.cbrel
  | _ => 0

lemma delta_segment (rel : Reloc) (segment : rsegment rel.flags ≠ .ext) :
    delta m rel = some ⟨displacement m (rsegment rel.flags), rel, false⟩ := by
  rw [delta]
  cases here : rsegment rel.flags with
  | ext => exact absurd here segment
  | text | data | bss | abs | strng => rfl

lemma delta_symbol (rel : Reloc) (segment : rsegment rel.flags = .ext) :
    delta m rel = (lookloc m rel.index).bind fun i => (m.symtab[i]?).map fun sp =>
      if undefined sp.n_type then ⟨0, { rel with index := m.nsym + i }, false⟩
      else ⟨sp.n_value, { rel with flags := retype rel.flags (reltype sp.n_type.kind) }, true⟩ := by
  rw [delta, segment]

/-- A branch that was settled by `ld -r` is left alone. -/
lemma relword_settled (m : Module) (word index part offset : ℕ) :
    relword m word (readBack ⟨0, index, part⟩) offset = some (word, readBack ⟨0, index, part⟩) := by
  have segment : rsegment (readBack ⟨0, index, part⟩).flags = .abs := show rsegment 0 = .abs by decide
  have add : delta m (readBack ⟨0, index, part⟩) = some ⟨0, readBack ⟨0, index, part⟩, false⟩ := by
    rw [delta_segment _ (by rw [segment]; nofun), segment]
    rfl
  have plain : gpdelta m ⟨0, readBack ⟨0, index, part⟩, false⟩ =
      ⟨0, readBack ⟨0, index, part⟩, false⟩ :=
    if_neg fun both => absurd both.1 (show ¬ gprel 0 = true by decide)
  rw [relword, add, map_some, plain, patch_eq]
  congr 2
  change setLow word (word % 2 ^ 16 + 0) = word
  simp only [setLow]
  omega

namespace Moves

variable {b : ℕ} {r l m : Module} (moves : Moves b r l m)

include moves

lemma displaced (g : RSegment) : displacement l g % WORDS = (displacement r g + shift b g) % WORDS ∧
      displacement m g % WORDS = shift b g % WORDS := by
  cases g <;> simp [displacement, shift, moves.ctrel, moves.cdrel, moves.cbrel, moves.text,
    moves.data, moves.bss]

lemma shift_even (g : RSegment) : shift b g % 4 = 0 := by
  cases g <;> first | exact moves.base | rfl

variable {d : Delta} {rel : Reloc}

lemma again_segment (segment : rsegment rel.flags ≠ .ext) :
    Again r l m rel ⟨displacement r (rsegment rel.flags), rel, false⟩
      (remainder b r.nsym l.symtab ⟨displacement r (rsegment rel.flags), rel, false⟩) := by
  have rest : remainder b r.nsym l.symtab ⟨displacement r (rsegment rel.flags), rel, false⟩ =
      shift b (rsegment rel.flags) := by
    rw [remainder]
    cases here : rsegment rel.flags with
    | ext => exact absurd here segment
    | text | data | bss | abs | strng => rfl
  rw [rest]
  obtain ⟨first, second⟩ := moves.displaced _
  refine ⟨⟨_, delta_segment rel segment, rfl, rfl, rfl, first, .inl, fun either => ?_⟩, fun _ => ?_,
    fun ext => absurd ext segment, rfl, fun ext => absurd ext segment, fun _ => moves.shift_even _⟩
  · exact either.resolve_right segment
  refine ⟨_, delta_segment _ segment, rfl, rfl, rfl, second, ?_⟩
  exact ⟨fun found => absurd found Bool.false_ne_true, fun ext => absurd ext segment⟩

lemma lookloc_same (n : ℕ) : lookloc l n = lookloc r n := by
  rw [lookloc, lookloc, moves.locals]

/-- The symbol of a record, in the executable that is linked at once. -/
lemma delta_direct {i : ℕ} {t : Nlist} (segment : rsegment rel.flags = .ext)
    (found : lookloc r rel.index = some i) (entry : l.symtab[i]? = some t)
    (defined : undefined t.n_type = false) : delta l rel =
      some ⟨t.n_value, { rel with flags := retype rel.flags (reltype t.n_type.kind) }, true⟩ := by
  rw [delta_symbol rel segment, moves.lookloc_same, found, bind_some, entry, map_some, defined]
  rfl

section

variable {i : ℕ} {s : Nlist} (segment : rsegment rel.flags = .ext)
  (found : lookloc r rel.index = some i) (entry : r.symtab[i]? = some s)
include segment found entry

lemma again_undefined (undf : undefined s.n_type = true) :
    Again r l m rel ⟨0, { rel with index := r.nsym + i }, false⟩
      (remainder b r.nsym l.symtab ⟨0, { rel with index := r.nsym + i }, false⟩) := by
  obtain ⟨t, entry', -, defined, rest⟩ := moves.shifted i s entry
  have type : s.n_type = extern_ .undf := by
    rcases rest with type | ⟨other, -⟩
    · exact type
    · exact nomatch undf.symm.trans other
  have value : remainder b r.nsym l.symtab ⟨0, { rel with index := r.nsym + i }, false⟩ =
      t.n_value := by
    simp [remainder, segment, entry']
  obtain ⟨inside, -⟩ := List.getElem?_eq_some_iff.mp entry
  have room := moves.room
  have external : Assembler.external rel.flags = true := (external_iff _).mpr segment
  rw [value]
  refine ⟨⟨_, moves.delta_direct segment found entry' defined, rformat_retype _ _, gprel_retype _ _, rfl, ?_, fun _ => .inr segment, fun _ => rfl⟩,
    fun fits => ⟨⟨t.n_value, ⟨retype rel.flags (reltype t.n_type.kind), r.nsym + i,
      (readBack { rel with index := r.nsym + i }).offset⟩, true⟩, ?_, rformat_retype _ _,
      gprel_retype _ _, rfl, rfl, ?_⟩, fun _ wide => ?_, rfl, fun _ => ⟨rfl, rfl⟩,
    fun outside => absurd segment outside⟩
  · exact congrArg (· % WORDS) (Nat.zero_add _).symm
  · have index : (readBack { rel with index := r.nsym + i }).index = r.nsym + i := by
      simp only [readBack, external]
      exact Nat.mod_eq_of_lt (fits segment)
    rw [delta_symbol (readBack { rel with index := r.nsym + i }) segment, index,
      moves.named i s entry type, bind_some, moves.symtab, entry', map_some, defined]
    rfl
  · exact ⟨fun _ => segment, fun _ => rfl⟩
  · have index : (readBack { rel with index := r.nsym + i }).index < r.nsym := by
      simp only [readBack, external, if_true, NSYM] at wide room ⊢
      omega
    rw [delta_symbol (readBack { rel with index := r.nsym + i }) segment]
    cases none : lookloc m (readBack { rel with index := r.nsym + i }).index with
    | none => rfl
    | some j =>
      have := moves.only _ _ none
      omega

lemma again_defined (undf : undefined s.n_type = false) : Again r l m rel
      ⟨s.n_value, { rel with flags := retype rel.flags (reltype s.n_type.kind) }, true⟩
      (remainder b r.nsym l.symtab
        ⟨s.n_value, { rel with flags := retype rel.flags (reltype s.n_type.kind) }, true⟩) := by
  obtain ⟨t, entry', -, defined, rest⟩ := moves.shifted i s entry
  have both : s.n_type = t.n_type ∧
      t.n_value = (s.n_value + shift b (reltype t.n_type.kind)) % WORDS := by
    rcases rest with type | ⟨-, same⟩
    · rw [type] at undf
      exact nomatch undf
    · exact same
  obtain ⟨type, value⟩ := both
  have outside : rsegment (retype rel.flags (reltype s.n_type.kind)) ≠ .ext := by
    rw [rsegment_retype]
    cases s.n_type.kind <;> nofun
  have amount : remainder b r.nsym l.symtab
      ⟨s.n_value, { rel with flags := retype rel.flags (reltype s.n_type.kind) }, true⟩ =
        shift b (reltype s.n_type.kind) := by
    simp only [remainder, rsegment_retype]
    cases s.n_type.kind <;> rfl
  rw [amount]
  refine ⟨⟨_, moves.delta_direct segment found entry' defined, ?_, ?_, rfl, ?_, .inl, fun _ => rfl⟩, fun _ => ⟨_, delta_segment _ outside,
    rfl, rfl, rfl, ?_, ?_⟩, fun ext => absurd ext outside, rfl, fun ext => absurd ext outside,
    fun _ => moves.shift_even _⟩
  · simp [type]
  · simp [type]
  · simp [value, type]
  · have := (moves.displaced (reltype s.n_type.kind)).2
    simp only [readBack, rsegment_retype]
    exact this
  · exact ⟨fun found => absurd found Bool.false_ne_true, fun ext => absurd ext outside⟩

end

/-- What all three add for a record. -/
lemma again (add : delta r rel = some d) : Again r l m rel d (remainder b r.nsym l.symtab d) := by
  by_cases segment : rsegment rel.flags = .ext
  · rw [delta_symbol rel segment] at add
    obtain ⟨i, found, rest⟩ := bind_eq_some_iff.mp add
    obtain ⟨s, entry, same⟩ := map_eq_some_iff.mp rest
    cases undf : undefined s.n_type with
    | true =>
      rw [undf] at same
      cases same
      exact moves.again_undefined segment found entry undf
    | false =>
      rw [undf] at same
      cases same
      exact moves.again_defined segment found entry undf
  · rw [delta_segment rel segment] at add
    cases add
    exact moves.again_segment segment

omit moves in
/-- What is relative to the global pointer loses it, in both links. -/
lemma relative_mod {z : ℕ} (amount : x % WORDS = (y + z) % WORDS) (flag : Bool) (gp : ℕ) :
    (if flag = true ∧ ¬ false = true then sub x gp else x) % WORDS =
      (y + if flag then sub z gp else z) % WORDS := by
  cases flag with
  | true =>
    rw [if_pos ⟨rfl, Bool.false_ne_true⟩, if_pos rfl]
    simp only [sub, WORDS] at amount ⊢
    omega
  | false => exact amount

lemma direct_eq (add : delta r rel = some d) {w : ℕ}
    (direct : relword l word rel (offset + b) = some (w, rel')) :
    ∃ found : Bool, (found = true ↔ d.found = true ∨ rsegment d.rel.flags = .ext) ∧
      w = field (rformat d.rel.flags) found d.rel.offset word
        (d.delta + later b l.gp r.nsym l.symtab d) (offset + b) := by
  obtain ⟨dl, addl, format, relative, part, amount, found⟩ := (moves.again add).direct
  obtain ⟨rel'', made⟩ := relword_eq addl word _
  cases some.inj (direct.symm.trans made)
  refine ⟨dl.found, found, ?_⟩
  rw [← field_mod, ← field_mod _ _ _ _ (d.delta + _)]
  congr 1
  rw [relative, moves.direct]
  exact relative_mod amount _ _

/-- The word in the executable that is linked from the output of `ld -r`. -/
lemma second_eq (add : delta r rel = some d)
    (half : rel.offset < 2 ^ 16) (fits : rsegment d.rel.flags = .ext → d.rel.index < 2 ^ 24)
    (word offset : ℕ) :
    ∃ (found : Bool) (rel'' : Reloc), (found = true ↔ rsegment d.rel.flags = .ext) ∧
      relword m word (readBack d.rel) offset = some (field (rformat d.rel.flags) found d.rel.offset word
        (later b l.gp r.nsym l.symtab d) offset, rel'') := by
  obtain ⟨dm, addm, format, relative, part, amount, found⟩ := (moves.again add).later fits
  obtain ⟨rel'', made⟩ := relword_eq addm word offset
  refine ⟨dm.found, rel'', found, ?_⟩
  rw [made, format, part]
  congr 2
  have same : rformat d.rel.flags = .high16 ∨ rformat d.rel.flags = .high16s →
      (readBack d.rel).offset = d.rel.offset := by
    intro high
    rw [← high_iff] at high
    simp only [readBack, high]
    rw [(moves.again add).offset]
    exact Nat.mod_eq_of_lt half
  rw [field_part same, ← field_mod, ← field_mod _ _ _ _ (later _ _ _ _ _)]
  congr 1
  rw [relative, later, moves.final, moves.gp]
  rw [← Nat.zero_add (remainder _ _ _ _)] at amount
  exact (relative_mod amount _ _).trans (by rw [Nat.zero_add])

lemma later_even (add : delta r rel = some d)
    (outside : rsegment d.rel.flags ≠ .ext) : later b l.gp r.nsym l.symtab d % 4 = 0 := by
  have even := (moves.again add).even outside
  rw [later]
  split_ifs
  · exact sub_even even moves.pointer
  · exact even

omit moves in
lemma relword_iff (made : relword m word rel offset = some (x, rel')) :
    (∃ rel'', relword m word rel offset = some (y, rel'')) ↔ x = y := by
  rw [made]
  constructor
  · rintro ⟨rel'', same⟩
    exact congrArg Prod.fst (some.inj same)
  · rintro rfl
    exact ⟨rel', rfl⟩

/-- A word that is moved by `ld -r` and again becomes what it is when it is moved at once, if
and only if it commutes. -/
lemma relword_twice (add : delta r rel = some d) (half : rel.offset < 2 ^ 16) {w : ℕ}
    (direct : relword l word rel (offset + b) = some (w, rel')) :
    (∃ rel'', relword m (field (rformat d.rel.flags) d.found d.rel.offset word d.delta offset)
      (readBack (settled d)) (offset + b) = some (w, rel'')) ↔
        Commutes b l.gp r.nsym l.symtab d := by
  obtain ⟨found, foundl, rfl⟩ := moves.direct_eq add direct
  have symbol := (moves.again add).symbol
  by_cases branch : rformat d.rel.flags = .word16 ∧ d.found = true
  · -- the branch was settled by `ld -r`
    obtain ⟨format, hit⟩ := branch
    have outside : rsegment d.rel.flags ≠ .ext := by
      intro ext
      exact nomatch hit.symm.trans (symbol ext).2
    have mark : settled d = ⟨0, d.rel.index, d.rel.offset⟩ := if_pos ⟨format, hit⟩
    have hit' : found = true := foundl.mpr (.inl hit)
    have iff_ := branch_settled d.rel.offset word d.delta _ offset b
      moves.base (moves.later_even add outside)
    rw [mark, relword_iff (relword_settled ..), format, hit, hit', iff_, Commutes, format]
    constructor
    · exact fun near => ⟨fun ext => absurd ext outside, trivial, fun _ _ => near⟩
    · exact fun commutes => commutes.2.2 rfl hit
  have mark : settled d = d.rel := if_neg branch
  rw [mark]
  by_cases fits : rsegment d.rel.flags = .ext → d.rel.index < 2 ^ 24
  · obtain ⟨found', rel'', foundm, made⟩ := moves.second_eq add half fits _ _
    rw [relword_iff made, Commutes, and_iff_right fits]
    by_cases format : rformat d.rel.flags = .word16
    · -- the branch is settled now, or never
      have miss : d.found = false := Bool.not_eq_true _ ▸ fun hit => branch ⟨format, hit⟩
      rw [format, miss]
      refine iff_of_true ?_ ⟨trivial, fun _ hit => nomatch hit⟩
      by_cases ext : rsegment d.rel.flags = .ext
      · have one : found' = true := foundm.mpr ext
        have two : found = true := foundl.mpr (.inr ext)
        rw [one, two, (symbol ext).1, Nat.zero_add]
        rfl
      · have one : found' = false := by
          rw [← Bool.not_eq_true, foundm]
          exact ext
        have two : found = false := by
          rw [← Bool.not_eq_true, foundl, miss]
          exact fun either => either.elim Bool.false_ne_true ext
        rw [one, two]
        rfl
    · rw [field_found format found, field_twice format d.found found']
      · exact ⟨fun carries => ⟨carries, fun branch => absurd branch format⟩, And.left⟩
      · by_cases ext : rsegment d.rel.flags = .ext
        · left
          rw [(symbol ext).1]
        · exact .inr (moves.later_even add ext)
  · rw [Commutes]
    rw [Classical.not_imp] at fits
    have lost := (moves.again add).lost fits.1 fits.2
    constructor
    · rintro ⟨rel'', made⟩
      rw [relword, lost] at made
      exact nomatch made
    · rintro ⟨small, -⟩
      exact absurd (small fits.1) fits.2

end Moves

end LinkEditor
