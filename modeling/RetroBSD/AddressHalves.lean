import RetroBSD.AssemblerPass2
import RetroBSD.LinkWords

/-!
# The high and the low half of an address

A 32-bit address is loaded by two instructions. The carry from the low half to the high half
depends on the whole address, but `as` and `ld` both add to the high half, and both add the
low half of the offset that stands in the record.

The pair is followed from the expression in the source to the linked words, which are then
executed.
-/

namespace AddressHalves

open ObjectFiles Option
open Assembler (Segment Reloc Pass1)
open Function (update update_self)

/-! ### The instructions -/

/-- `lui` and `addiu` with `%hi` and `%lo`, or `la`. -/
inductive Pair where
  | hiLo
  | la
deriving DecidableEq

def Pair.format : Pair → RFormat
  | .hiLo => .high16s
  | .la => .high16

def Pair.opcode : Pair → ℕ
  | .hiLo => 0x24000000
  | .la => 0x34000000

/-- The word with the high half: `makecmd` for `lui`, and the first word of `emit_la`. -/
def highWord (pair : Pair) (r : ℕ) (segment : RSegment) (index value : ℕ) : ℕ × Reloc :=
  (0x3c000000 + r * 2 ^ 16 + value / 2 ^ 16,
    ⟨rflags segment pair.format, index, value % 2 ^ 16⟩)

/-- The word with the low half: `makecmd` for `addiu`, and the second word of `emit_la`. -/
def lowWord (pair : Pair) (r : ℕ) (segment : RSegment) (index value : ℕ) : ℕ × Reloc :=
  (pair.opcode + r * 2 ^ 21 + r * 2 ^ 16 + value % 2 ^ 16,
    ⟨rflags segment .byte16, index, value % 2 ^ 16⟩)

/-- `getterm` for a name: a label that has been defined, or a reference to the symbol. -/
def term (sym : Nlist) (before : Bool) : RSegment × ℕ :=
  match before, Assembler.segmentOf sym.n_type.kind with
  | true, some g => (g.rel, sym.n_value)
  | _, _ => (.ext, 0)

/-! ### Execution -/

abbrev Regs := ℕ → ℕ

/-- Register 0 is always zero. -/
def Regs.get (regs : Regs) (r : ℕ) : ℕ := if r = 0 then 0 else regs r

def signed (x : ℕ) : ℕ := if x < 2 ^ 15 then x else x + (WORDS - 2 ^ 16)

/-- The three instructions of the pairs. -/
def exec (regs : Regs) (w : ℕ) : Option Regs :=
  let rs := w / 2 ^ 21 % 32
  let rt := w / 2 ^ 16 % 32
  match w / 2 ^ 26 with
  | 0x0f => some (update regs rt (w % 2 ^ 16 * 2 ^ 16))
  | 0x09 => some (update regs rt ((regs.get rs + signed (w % 2 ^ 16)) % WORDS))
  | 0x0d => some (update regs rt (regs.get rs ||| w % 2 ^ 16))
  | _ => none

/-! ### A pair in a program -/

/-- A pair that refers to the symbol with index `index`, plus `k`, in a file with the tables
`pass`; the symbol was defined before the pair or not. The link editor puts the module's text
to `torigin` and its data to `dorigin`. -/
structure Site where
  pass : Pass1
  segm : Segment
  offset : ℕ
  pair : Pair
  r : Fin 32
  index : ℕ
  sym : Nlist
  entry : pass.stab[index]? = some sym
  before : Bool
  k : ℕ
  torigin : ℕ
  dorigin : ℕ
  module : LinkEditor.Module
  ctrel : module.ctrel = torigin % WORDS
  cdrel : module.cdrel = sub dorigin (pass.count .text)
  executable : module.output_relinfo = false

namespace Site

variable (s : Site)

/-- The value of the expression in the first pass. -/
def value : ℕ := ((term s.sym s.before).2 + s.k) % WORDS

def origin : Segment → ℕ
  | .text => s.torigin
  | .data => s.dorigin
  | .strng => s.dorigin + s.pass.count .data
  | .bss => 0

/-- A word that stands `n` bytes behind the start of the pair, as it is linked. -/
def link (word : ℕ × Reloc) (n : ℕ) : Option ℕ :=
  (Assembler.pass2 s.pass s.segm (s.offset + n) word).bind fun w =>
    (LinkEditor.relword s.module w.1 w.2 (s.origin s.segm + s.offset + n)).map Prod.fst

def high : ℕ × Reloc := highWord s.pair s.r (term s.sym s.before).1 s.index s.value

def low : ℕ × Reloc := lowWord s.pair s.r (term s.sym s.before).1 s.index s.value

/-- Executing the two linked words leaves `target` in the register. -/
def Loads (target : ℕ) : Prop :=
  ∀ regs : Regs, ∃ w₁ w₂ regs₁ regs₂, s.link s.high 0 = some w₁ ∧ s.link s.low 4 = some w₂ ∧
    exec regs w₁ = some regs₁ ∧ exec regs₁ w₂ = some regs₂ ∧ regs₂.get s.r = target

/-- The final address of the symbol: a label of the text, data or string segment, or a symbol
that is not defined in the file, for which `ld` has found a definition. -/
inductive Final : ℕ → Prop
  | label (g : Segment) (inside : g ≠ .bss) (kind : s.sym.n_type.kind = g.type) :
    Final ((s.origin g + s.sym.n_value) % WORDS)
  | external (undf : s.sym.n_type = extern_ .undf ∨ s.sym.n_type = extern_ .comm) {i : ℕ}
    {sp : Nlist} (found : LinkEditor.lookloc s.module s.index = some i)
    (entry : s.module.symtab[i]? = some sp) (defined : LinkEditor.undefined sp.n_type = false)
    (word : sp.n_value < WORDS) : Final sp.n_value
  | weak (undf : s.sym.n_type.kind = .undf) (weak : s.sym.n_type.weak = true)
    (zero : s.sym.n_value = 0) (address : ℕ) (word : address < WORDS) : Final address

/-! ### The carries -/

def part : ℕ := s.value % 2 ^ 16

/-- `%hi` rounds, since `addiu` takes the low half with its sign. -/
def round : ℕ := match s.pair with
  | .hiLo => 0x8000
  | .la => 0

/-- What goes to the high half when `x` is added to the low half of the expression. -/
def carry (x : ℕ) : ℕ := (x + (s.part + s.round)) % WORDS / 2 ^ 16

/-- What has to be added to the expression in `as`, for a label of the segment. -/
def start (g : Segment) : ℕ := s.pass.base g + if s.before then 0 else s.sym.n_value

/-- What `as` adds to the high half: for a label that is defined later, the low half of the
expression is added twice. -/
def folded (g : Segment) : ℕ := s.start g + if s.before then 0 else s.part

/-- The carries that are made in `as` and in `ld` are together the carry of the whole. -/
def Carries (address : ℕ) : Prop :=
  if s.r = 0 then (address + s.k) % WORDS = 0
  else match Assembler.segmentOf s.sym.n_type.kind with
    | some g => (s.carry (s.folded g) + s.carry (sub (s.origin g) (s.pass.base g))) % 2 ^ 16 =
      s.carry (s.start g + sub (s.origin g) (s.pass.base g))
    | none => Assembler.Nlist.left s.sym = true ∨ address = s.carry s.part * 2 ^ 16

end Site

/-! ### Records -/

lemma rsegment_rflags (g : RSegment) (f : RFormat) : rsegment (rflags g f) = g := by
  cases g <;> cases f <;> rfl

lemma rformat_rflags (g : RSegment) (f : RFormat) : rformat (rflags g f) = f := by
  cases g <;> cases f <;> rfl

lemma gprel_rflags (g : RSegment) (f : RFormat) : gprel (rflags g f) = false := by
  cases g <;> cases f <;> rfl

lemma resegment_rflags (g g' : RSegment) (f : RFormat) :
    resegment (rflags g f) g' = rflags g' f := by
  cases g <;> cases f <;> cases g' <;> rfl

lemma retype_rflags (g g' : RSegment) (f : RFormat) : retype (rflags g f) g' = rflags g' f := by
  cases g <;> cases f <;> cases g' <;> rfl

def moved (f : RFormat) (w x part : ℕ) : ℕ :=
  match f with
  | .byte16 => setLow w (x + w % 2 ^ 16)
  | .high16 => setLow w ((x + w % 2 ^ 16 * 2 ^ 16 + part) % WORDS / 2 ^ 16)
  | .high16s => setLow w ((x + w % 2 ^ 16 * 2 ^ 16 + (part + 0x8000)) % WORDS / 2 ^ 16)
  | _ => w

def Half (f : RFormat) : Prop := f = .byte16 ∨ f = .high16 ∨ f = .high16s

lemma relocate_half {f : RFormat} (half : Half f) (g : RSegment) (w x i part : ℕ) :
    Assembler.relocate w x ⟨rflags g f, i, part⟩ = some (moved f w x part) := by
  rw [Assembler.relocate, rformat_rflags]
  rcases half with rfl | rfl | rfl <;> rfl

lemma relword_half {f : RFormat} (half : Half f) {m : LinkEditor.Module} {g g' : RSegment}
    {w x i i' part n : ℕ} {found : Bool}
    (add : LinkEditor.delta m ⟨rflags g f, i, part⟩ = some ⟨x, ⟨rflags g' f, i', part⟩, found⟩) :
    (LinkEditor.relword m w ⟨rflags g f, i, part⟩ n).map Prod.fst = some (moved f w x part) := by
  have plain : LinkEditor.gpdelta m ⟨x, ⟨rflags g' f, i', part⟩, found⟩ =
      ⟨x, ⟨rflags g' f, i', part⟩, found⟩ := by
    rw [LinkEditor.gpdelta, gprel_rflags]
    exact if_neg fun both => nomatch both.1
  rw [LinkEditor.relword, add, map_some, plain, LinkEditor.patch]
  simp only [rformat_rflags]
  rcases half with rfl | rfl | rfl <;> simp [LinkEditor.address, moved, Nat.add_comm]

lemma moved_high (f : RFormat) (w x part : ℕ) : moved f w x part / 2 ^ 16 = w / 2 ^ 16 := by
  cases f <;> simp only [moved, setLow] <;> omega

/-! ### The words of a label -/

namespace Site

variable (s : Site)

def record (f : RFormat) : Reloc := ⟨rflags (term s.sym s.before).1 f, s.index, s.part⟩

lemma named (sym : Nlist) (entry : s.pass.stab[s.index]? = some sym) :
    s.pass.symbols[s.index]? = some (s.pass.based sym) ∧
      ¬ Assembler.RLAB_OFFSET - Assembler.RLAB_MAXVAL ≤ s.index := by
  constructor
  · rw [Pass1.symbols, List.getElem?_map, entry]
    rfl
  · obtain ⟨inside, -⟩ := List.getElem?_eq_some_iff.mp entry
    have room := s.pass.room
    simp only [Assembler.RLAB_OFFSET, Assembler.RLAB_MAXVAL, Assembler.STSIZE,
      Assembler.HASHSZ] at room ⊢
    omega

def bits : Segment → RSegment
  | .text => .text
  | .data | .strng => .data
  | .bss => .bss

variable {f : RFormat} {g : Segment}

lemma segment_kind (kind : s.sym.n_type.kind = g.type) :
    Assembler.segmentOf s.sym.n_type.kind = some g := by
  rw [kind]
  cases g <;> rfl

lemma based_kind (kind : s.sym.n_type.kind = g.type) :
    (s.pass.based s.sym).n_value = (s.sym.n_value + s.pass.base g) % WORDS ∧
      Assembler.Nlist.left (s.pass.based s.sym) = false ∧
      Assembler.typerel (s.pass.based s.sym).n_type.kind = bits g := by
  rw [Pass1.based, s.segment_kind kind]
  refine ⟨rfl, ?_, ?_⟩
  · cases g <;> simp [Assembler.Nlist.left, extern_, Segment.type]
  · cases g <;> rfl

def added (g : Segment) : RFormat → ℕ
  | .byte16 => s.start g
  | _ => s.folded g

lemma moved_mod (half : Half f) (w x part : ℕ) : moved f w (x % WORDS) part = moved f w x part := by
  rcases half with rfl | rfl | rfl <;> simp only [moved, setLow, WORDS] <;> omega

lemma term_before (kind : s.sym.n_type.kind = g.type) (before : s.before = true) :
    term s.sym s.before = (g.rel, s.sym.n_value) := by
  rw [before]
  unfold term
  rw [kind]
  cases g <;> rfl

lemma term_after (after : s.before = false) : term s.sym s.before = (.ext, 0) := by
  rw [after]
  rfl

lemma makeword_before (half : Half f) (w i part n : ℕ) :
    Assembler.makeword s.pass s.segm w ⟨rflags g.rel f, i, part⟩ n =
      some (moved f w (s.pass.base g) part, ⟨rflags g.rel f, i, part⟩) := by
  rw [Assembler.makeword, rsegment_rflags]
  cases g <;> simp [Segment.rel, relocate_half half]

lemma resolve_half (half : Half f) (w value part n : ℕ) (kind : Option Kind) :
    Assembler.resolve s.pass s.segm w ⟨rflags .ext f, s.index, part⟩ n kind value =
      some (moved f w (value + if f = .byte16 then 0 else part) part,
        ⟨rflags .ext f, s.index, part⟩) := by
  rw [Assembler.resolve, rformat_rflags]
  rcases half with rfl | rfl | rfl
  · simp [relocate_half (.inl rfl)]
  · simp [relocate_half (.inr (.inl rfl)), moved_mod (.inr (.inl rfl))]
  · simp [relocate_half (.inr (.inr rfl)), moved_mod (.inr (.inr rfl))]

lemma pass2_label (inside : g ≠ .bss) (kind : s.sym.n_type.kind = g.type)
    (half : Half f) (w n : ℕ) : Assembler.pass2 s.pass s.segm n (w, s.record f) =
      some (moved f w (s.added g f) s.part, ⟨rflags (bits g) f, s.index, s.part⟩) := by
  obtain ⟨symbols, index⟩ := s.named s.sym s.entry
  obtain ⟨value, left, type⟩ := s.based_kind kind
  cases before : s.before with
  | true =>
    have same : s.added g f = s.pass.base g := by
      rcases half with rfl | rfl | rfl <;> simp [added, folded, start, before]
    rw [Assembler.pass2, record, s.term_before kind before, s.makeword_before half, same,
      bind_some, Assembler.relrel, rsegment_rflags]
    cases g with
    | text | data => rfl
    | strng => simp [Segment.rel, resegment_rflags, bits]
    | bss => exact absurd rfl inside
  | false =>
    have same : moved f w ((s.pass.based s.sym).n_value + if f = .byte16 then 0 else s.part) s.part =
        moved f w (s.added g f) s.part := by
      rw [value, ← moved_mod half, ← moved_mod half _ (s.added g f)]
      congr 1
      rcases half with rfl | rfl | rfl <;> simp [added, folded, start, before, WORDS] <;> omega
    have made : Assembler.makeword s.pass s.segm w (s.record f) n =
        some (moved f w (s.added g f) s.part, s.record f) := by
      rw [record, s.term_after before, Assembler.makeword, rsegment_rflags]
      simp only [if_neg index, symbols, bind_some, left, Bool.false_eq_true, if_false]
      rw [s.resolve_half half, same]
    rw [Assembler.pass2, made, bind_some, Assembler.relrel, record, s.term_after before]
    simp [rsegment_rflags, symbols, left, resegment_rflags, type]

lemma delta_label (inside : g ≠ .bss) (f : RFormat) :
    LinkEditor.delta s.module ⟨rflags (bits g) f, s.index, s.part⟩ =
      some ⟨sub (s.origin g) (s.pass.base g), ⟨rflags (bits g) f, s.index, s.part⟩, false⟩ := by
  rw [LinkEditor.delta, rsegment_rflags]
  cases g with
  | text =>
    have : s.module.ctrel = sub (s.origin .text) (s.pass.base .text) := by
      rw [s.ctrel]
      simp only [sub, origin, Pass1.base, WORDS]
      omega
    simp [bits, this]
  | data =>
    have : s.module.cdrel = sub (s.origin .data) (s.pass.base .data) := s.cdrel
    simp [bits, this]
  | strng =>
    have : s.module.cdrel = sub (s.origin .strng) (s.pass.base .strng) := by
      rw [s.cdrel]
      simp only [sub, origin, Pass1.base, WORDS]
      omega
    simp [bits, this]
  | bss => exact absurd rfl inside

lemma link_label (inside : g ≠ .bss) (kind : s.sym.n_type.kind = g.type) (half : Half f) (w n : ℕ) :
    s.link (w, s.record f) n = some (moved f (moved f w (s.added g f) s.part)
      (sub (s.origin g) (s.pass.base g)) s.part) := by
  rw [link, s.pass2_label inside kind half]
  exact relword_half half (s.delta_label inside f)

lemma term_undf (undf : Assembler.segmentOf s.sym.n_type.kind = none) :
    term s.sym s.before = (.ext, 0) := by
  unfold term
  rw [undf]
  cases s.before <;> rfl

lemma based_undf (undf : Assembler.segmentOf s.sym.n_type.kind = none) :
    s.pass.based s.sym = s.sym := by
  rw [Pass1.based, undf]

end Site

/-! ### Executing the pair -/

def loaded (pair : Pair) (h l : ℕ) : ℕ :=
  match pair with
  | .hiLo => (h * 2 ^ 16 + signed l) % WORDS
  | .la => h * 2 ^ 16 ||| l

lemma exec_pair (pair : Pair) {r w₁ w₂ : ℕ} (small : r < 32) (first : w₁ / 2 ^ 16 = 0x3c00 + r)
    (second : w₂ / 2 ^ 16 = pair.opcode / 2 ^ 16 + r * 2 ^ 5 + r) (regs : Regs) :
    ∃ regs₁ regs₂, exec regs w₁ = some regs₁ ∧ exec regs₁ w₂ = some regs₂ ∧
      regs₂.get r = if r = 0 then 0 else loaded pair (w₁ % 2 ^ 16) (w₂ % 2 ^ 16) := by
  have lui : w₁ / 2 ^ 26 = 0x0f := by omega
  have rt : w₁ / 2 ^ 16 % 32 = r := by omega
  have upper : exec regs w₁ = some (update regs r (w₁ % 2 ^ 16 * 2 ^ 16)) := by
    simp only [exec, lui, rt]
  have got : r ≠ 0 → Regs.get (update regs r (w₁ % 2 ^ 16 * 2 ^ 16)) r = w₁ % 2 ^ 16 * 2 ^ 16 := by
    intro nonzero
    rw [Regs.get, if_neg nonzero, update_self]
  have field : w₂ / 2 ^ 21 = w₂ / 2 ^ 16 / 2 ^ 5 := (Nat.div_div_eq_div_mul w₂ (2 ^ 16) (2 ^ 5)).symm
  have rs : w₂ / 2 ^ 21 % 32 = r := by
    rw [field, second]
    clear * - small
    revert r
    cases pair <;> decide
  have rt : w₂ / 2 ^ 16 % 32 = r := by cases pair <;> simp only [Pair.opcode] at second <;> omega
  cases pair with
  | hiLo =>
    have addiu : w₂ / 2 ^ 26 = 0x09 := by simp only [Pair.opcode] at second; omega
    refine ⟨_, _, upper, (by simp only [exec, addiu, rs, rt]; rfl), ?_⟩
    rw [Regs.get]
    split_ifs with zero
    · rfl
    · rw [update_self, got zero, loaded]
  | la =>
    have ori : w₂ / 2 ^ 26 = 0x0d := by simp only [Pair.opcode] at second; omega
    refine ⟨_, _, upper, (by simp only [exec, ori, rs, rt]; rfl), ?_⟩
    rw [Regs.get]
    split_ifs with zero
    · rfl
    · rw [update_self, got zero, loaded]

/-- The register holds the target if and only if both halves are right. -/
lemma loaded_iff (s : Site) {h l target : ℕ} (high : h < 2 ^ 16) (low : l < 2 ^ 16)
    (word : target < WORDS) : loaded s.pair h l = target ↔
      l = target % 2 ^ 16 ∧ h = (target + s.round) % WORDS / 2 ^ 16 := by
  simp only [WORDS] at word
  cases pair : s.pair with
  | hiLo =>
    have round : s.round = 0x8000 := by rw [Site.round, pair]
    rw [loaded, signed]
    simp only [WORDS]
    split_ifs with positive
    · omega
    · omega
  | la =>
    have round : s.round = 0 := by rw [Site.round, pair]
    have sum : h * 2 ^ 16 ||| l = h * 2 ^ 16 + l := by
      rw [← Nat.shiftLeft_eq, Nat.shiftLeft_add_eq_or_of_lt low]
    rw [loaded, sum, round]
    simp only [WORDS]
    omega

/-! ### Both halves -/

lemma add_high (x h c : ℕ) :
    (x + h * 2 ^ 16 + c) % WORDS / 2 ^ 16 = (h + (x + c) % WORDS / 2 ^ 16) % 2 ^ 16 := by
  simp only [WORDS]
  omega

namespace Site

variable (s : Site)

lemma format_half : Half s.pair.format := by
  cases s.pair
  · exact .inr (.inr rfl)
  · exact .inr (.inl rfl)

lemma moved_format (w x : ℕ) :
    moved s.pair.format w x s.part % 2 ^ 16 = (w % 2 ^ 16 + s.carry x) % 2 ^ 16 := by
  have low (w x : ℕ) : setLow w x % 2 ^ 16 = x % 2 ^ 16 := by
    rw [setLow]
    omega
  rw [carry, round]
  cases s.pair <;> simp only [Pair.format, moved, low, add_high, Nat.mod_mod, Nat.add_zero]

lemma high_eq : s.high = (0x3c000000 + s.r * 2 ^ 16 + s.value / 2 ^ 16, s.record s.pair.format) := rfl

lemma low_eq : s.low =
    (s.pair.opcode + s.r * 2 ^ 21 + s.r * 2 ^ 16 + s.value % 2 ^ 16, s.record .byte16) := rfl

lemma value_lt : s.value / 2 ^ 16 < 2 ^ 16 := by
  have : s.value < WORDS := Nat.mod_lt _ (by decide)
  simp only [WORDS] at this
  omega

/-- The pair loads the target if and only if its two linked words hold the halves of it. -/
lemma loads_iff {w₁ w₂ target : ℕ} (first : s.link s.high 0 = some w₁)
    (second : s.link s.low 4 = some w₂) (high : w₁ / 2 ^ 16 = 0x3c00 + s.r)
    (low : w₂ / 2 ^ 16 = s.pair.opcode / 2 ^ 16 + s.r * 2 ^ 5 + s.r) (word : target < WORDS) :
    s.Loads target ↔ if s.r = 0 then target = 0
      else w₂ % 2 ^ 16 = target % 2 ^ 16 ∧ w₁ % 2 ^ 16 = (target + s.round) % WORDS / 2 ^ 16 := by
  have exec regs := exec_pair s.pair s.r.isLt high low regs
  have zero : (s.r : ℕ) = 0 ↔ s.r = 0 := Fin.val_eq_zero_iff
  have result : s.Loads target ↔
      (if (s.r : ℕ) = 0 then 0 else loaded s.pair (w₁ % 2 ^ 16) (w₂ % 2 ^ 16)) = target := by
    constructor
    · intro loads
      obtain ⟨v₁, v₂, regs₁, regs₂, link₁, link₂, run₁, run₂, got⟩ := loads fun _ => 0
      obtain ⟨regs₁', regs₂', run₁', run₂', got'⟩ := exec fun _ => 0
      cases some.inj (first.symm.trans link₁)
      cases some.inj (second.symm.trans link₂)
      cases some.inj (run₁.symm.trans run₁')
      cases some.inj (run₂.symm.trans run₂')
      exact got'.symm.trans got
    · intro got regs
      obtain ⟨regs₁, regs₂, run₁, run₂, got'⟩ := exec regs
      exact ⟨w₁, w₂, regs₁, regs₂, first, second, run₁, run₂, got'.trans got⟩
  rw [result]
  by_cases none : s.r = 0
  · rw [if_pos (zero.mpr none), if_pos none]
    exact eq_comm
  · rw [if_neg fun h => none (zero.mp h), if_neg none]
    exact loaded_iff s (Nat.mod_lt _ (by decide)) (Nat.mod_lt _ (by decide)) word

lemma high_upper : s.high.1 / 2 ^ 16 = 0x3c00 + s.r := by
  have := s.value_lt
  simp only [s.high_eq]
  omega

lemma high_lower : s.high.1 % 2 ^ 16 = s.value / 2 ^ 16 := by
  have := s.value_lt
  simp only [s.high_eq]
  omega

lemma low_upper : s.low.1 / 2 ^ 16 = s.pair.opcode / 2 ^ 16 + s.r * 2 ^ 5 + s.r := by
  simp only [s.low_eq]
  cases s.pair <;> simp only [Pair.opcode] <;> omega

lemma low_lower : s.low.1 % 2 ^ 16 = s.part := by
  simp only [s.low_eq, part]
  cases s.pair <;> simp only [Pair.opcode] <;> omega

lemma moved_byte16 (w x : ℕ) : moved .byte16 w x s.part % 2 ^ 16 = (x + w % 2 ^ 16) % 2 ^ 16 := by
  simp only [moved, setLow]
  omega

lemma halves (x : ℕ) : (s.value + x) % WORDS % 2 ^ 16 = (s.part + x) % 2 ^ 16 ∧
    ((s.value + x) % WORDS + s.round) % WORDS / 2 ^ 16 =
      (s.value / 2 ^ 16 + s.carry x) % 2 ^ 16 := by
  constructor
  · simp only [part, WORDS]
    omega
  · have sum : ((s.value + x) % WORDS + s.round) % WORDS =
        (x + s.value / 2 ^ 16 * 2 ^ 16 + (s.part + s.round)) % WORDS := by
      simp only [part, WORDS]
      omega
    rw [sum, add_high, carry]

lemma target_label (g : Segment) : ((s.origin g + s.sym.n_value) % WORDS + s.k) % WORDS =
    ((if s.before then s.sym.n_value + s.k else s.k) % WORDS +
      (s.start g + sub (s.origin g) (s.pass.base g))) % WORDS := by
  rw [start, sub]
  simp only [WORDS]
  cases s.before
  · simp only [Bool.false_eq_true, if_false]
    omega
  · simp only [if_true]
    omega

lemma value_label {g : Segment} (kind : s.sym.n_type.kind = g.type) :
    s.value = (if s.before then s.sym.n_value + s.k else s.k) % WORDS := by
  by_cases before : s.before = true
  · rw [value, s.term_before kind before, if_pos before]
  · rw [value, s.term_after (Bool.not_eq_true _ ▸ before), if_neg before, Nat.zero_add]

lemma loads_label {g : Segment} (inside : g ≠ .bss) (kind : s.sym.n_type.kind = g.type) :
    s.Loads (((s.origin g + s.sym.n_value) % WORDS + s.k) % WORDS) ↔
      s.Carries ((s.origin g + s.sym.n_value) % WORDS) := by
  have high := s.link_label inside kind s.format_half s.high.1 0
  have low := s.link_label inside kind (.inl rfl) s.low.1 4
  rw [s.loads_iff high low (by rw [moved_high, moved_high, high_upper])
    (by rw [moved_high, moved_high, low_upper]) (Nat.mod_lt _ (by decide)), Carries, s.segment_kind kind]
  by_cases zero : s.r = 0
  · rw [if_pos zero, if_pos zero]
  · rw [if_neg zero, if_neg zero, s.moved_byte16, s.moved_byte16, s.low_lower, s.moved_format,
      s.moved_format, s.high_lower, s.target_label, ← s.value_label kind]
    obtain ⟨low_half, high_half⟩ := s.halves _
    have added : s.added g s.pair.format = s.folded g := by cases s.pair <;> rfl
    have small : s.carry (s.start g + sub (s.origin g) (s.pass.base g)) < 2 ^ 16 := by
      rw [carry]
      simp only [WORDS]
      omega
    rw [low_half, high_half, added, Site.added]
    omega

lemma value_undf (undf : Assembler.segmentOf s.sym.n_type.kind = none) : s.value = s.k % WORDS := by
  rw [value, s.term_undf undf, Nat.zero_add]

lemma target_undf (undf : Assembler.segmentOf s.sym.n_type.kind = none) (a : ℕ) :
    (a + s.k) % WORDS = (s.value + a) % WORDS := by
  rw [s.value_undf undf]
  simp only [WORDS]
  omega

section External

variable (undf : s.sym.n_type = extern_ .undf ∨ s.sym.n_type = extern_ .comm) {i : ℕ} {sp : Nlist}
  (found : LinkEditor.lookloc s.module s.index = some i)
  (entry : s.module.symtab[i]? = some sp) (defined : LinkEditor.undefined sp.n_type = false)

include undf in
lemma external_left :
    Assembler.segmentOf s.sym.n_type.kind = none ∧ Assembler.Nlist.left s.sym = true :=
  ⟨by rcases undf with type | type <;> rw [type] <;> rfl, decide_eq_true undf⟩

include undf found entry defined

/-- A word of a pair for a symbol that is left to the link editor. -/
lemma link_external {f : RFormat} (half : Half f) (w n : ℕ) :
    s.link (w, s.record f) n = some (moved f w sp.n_value s.part) := by
  obtain ⟨symbols, index⟩ := s.named s.sym s.entry
  obtain ⟨none, left⟩ := s.external_left undf
  have kept : Assembler.pass2 s.pass s.segm (s.offset + n) (w, s.record f) =
      some (w, ⟨rflags .ext f, s.index, s.part⟩) := by
    simp only [Assembler.pass2, record, s.term_undf none, Assembler.makeword, rsegment_rflags,
      if_neg index, symbols, s.based_undf none, left, if_true, bind_some,
      Assembler.relrel, map_some]
  have add : LinkEditor.delta s.module ⟨rflags .ext f, s.index, s.part⟩ = some ⟨sp.n_value,
      ⟨rflags (LinkEditor.reltype sp.n_type.kind) f, s.index, s.part⟩, true⟩ := by
    simp only [LinkEditor.delta, rsegment_rflags, found, entry, defined, bind_some,
      map_some, Bool.false_eq_true, if_false, retype_rflags]
  rw [link, kept]
  exact relword_half half add

lemma loads_external : s.Loads ((sp.n_value + s.k) % WORDS) ↔ s.Carries sp.n_value := by
  obtain ⟨none, left⟩ := s.external_left undf
  have high := s.link_external undf found entry defined s.format_half s.high.1 0
  have low := s.link_external undf found entry defined (.inl rfl) s.low.1 4
  rw [s.loads_iff high low (by rw [moved_high, high_upper]) (by rw [moved_high, low_upper])
    (Nat.mod_lt _ (by decide)), Carries, none]
  by_cases zero : s.r = 0
  · rw [if_pos zero, if_pos zero]
  · rw [if_neg zero, if_neg zero, s.moved_byte16, s.low_lower, s.moved_format, s.high_lower,
      s.target_undf none, (s.halves sp.n_value).1, (s.halves sp.n_value).2, Nat.add_comm]
    exact ⟨fun _ => .inl left, fun _ => ⟨rfl, rfl⟩⟩

end External

section Weak

variable (undf : s.sym.n_type.kind = .undf) (weak : s.sym.n_type.weak = true)

include undf weak

lemma weak_absolute :
    Assembler.segmentOf s.sym.n_type.kind = none ∧ Assembler.Nlist.left s.sym = false := by
  refine ⟨by rw [undf]; rfl, decide_eq_false ?_⟩
  rintro (type | type) <;> rw [type] at weak <;> exact nomatch weak

/-- A word of a pair for a weak symbol: it is taken as absolute. -/
lemma link_weak {f : RFormat} (half : Half f) (zero : s.sym.n_value = 0) (w n : ℕ) :
    s.link (w, s.record f) n =
      some (moved f (moved f w (if f = .byte16 then 0 else s.part) s.part) 0 s.part) := by
  obtain ⟨symbols, index⟩ := s.named s.sym s.entry
  obtain ⟨none, left⟩ := s.weak_absolute undf weak
  have kept : Assembler.pass2 s.pass s.segm (s.offset + n) (w, s.record f) =
      some (moved f w (0 + if f = .byte16 then 0 else s.part) s.part,
        ⟨rflags .abs f, s.index, s.part⟩) := by
    have resolved := s.resolve_half half w 0 s.part (s.offset + n) (some s.sym.n_type.kind)
    simp only [Assembler.pass2, record, s.term_undf none, Assembler.makeword, rsegment_rflags,
      if_neg index, symbols, s.based_undf none, left, Bool.false_eq_true, if_false,
      bind_some, zero, resolved, Assembler.relrel, map_some, resegment_rflags]
    rw [undf]
    rfl
  have add : LinkEditor.delta s.module ⟨rflags .abs f, s.index, s.part⟩ =
      some ⟨0, ⟨rflags .abs f, s.index, s.part⟩, false⟩ := by
    simp [LinkEditor.delta, rsegment_rflags]
  rw [link, kept, Nat.zero_add]
  exact relword_half half add

lemma loads_weak (zero : s.sym.n_value = 0) {address : ℕ} (word : address < WORDS) :
    s.Loads ((address + s.k) % WORDS) ↔ s.Carries address := by
  obtain ⟨none, left⟩ := s.weak_absolute undf weak
  have high := s.link_weak undf weak s.format_half zero s.high.1 0
  have low := s.link_weak undf weak (.inl rfl) zero s.low.1 4
  rw [s.loads_iff high low (by rw [moved_high, moved_high, high_upper])
    (by rw [moved_high, moved_high, low_upper]) (Nat.mod_lt _ (by decide)), Carries, none]
  by_cases empty : s.r = 0
  · rw [if_pos empty, if_pos empty]
  · have added : (if s.pair.format = .byte16 then 0 else s.part) = s.part := by cases s.pair <;> rfl
    rw [if_neg empty, if_neg empty, s.moved_byte16, s.moved_byte16, s.low_lower, s.moved_format,
      s.moved_format, s.high_lower, s.target_undf none, (s.halves address).1,
      (s.halves address).2, added, if_pos rfl]
    simp only [left, Bool.false_eq_true, false_or]
    simp only [carry, WORDS] at word ⊢
    omega

end Weak

end Site

/-- Executing the pair leaves the final address of the symbol plus `k` in the register, if and
only if the carries made in `as` and in `ld` add up to the carry of the whole address. -/
theorem pair_loads_address_iff (s : Site) {address : ℕ} (final : s.Final address) :
    s.Loads ((address + s.k) % WORDS) ↔ s.Carries address := by
  cases final with
  | label g inside kind => exact s.loads_label inside kind
  | external undf found entry defined word => exact s.loads_external undf found entry defined
  | weak undf weak zero _ word => exact s.loads_weak undf weak zero word

/-- A file without labels that refers to a symbol of another file, which is at 0x7f009234. -/
def externalSite : Site where
  pass := ⟨fun _ => 8, [⟨[0x78], extern_ .undf, 0⟩], [], by decide⟩
  segm := .text
  offset := 0
  pair := .hiLo
  r := 2
  index := 0
  sym := ⟨[0x78], extern_ .undf, 0⟩
  entry := rfl
  before := false
  k := 4
  torigin := 0x7f008000
  dorigin := 0x7f008010
  module := ⟨0x7f008000, 0x7f008008, 0, 0, false, 0, [⟨[0x78], extern_ .data, 0x7f009234⟩], [(0, 0)]⟩
  ctrel := rfl
  cdrel := rfl
  executable := rfl

theorem external_pair_loads : externalSite.Final 0x7f009234 ∧ externalSite.Loads 0x7f009238 := by
  have final : externalSite.Final (Nlist.mk [0x78] (extern_ .data) 0x7f009234).n_value :=
    .external (.inl rfl) rfl rfl rfl (by decide)
  refine ⟨final, (pair_loads_address_iff externalSite final).mpr ?_⟩
  exact .inl rfl

/-- A label at 0x8000 in the text segment, in front of the pair, in a program at the default
address. -/
def labelSite : Site where
  pass := ⟨fun g => if g = .text then 0x8010 else 0, [⟨[0x78], ⟨.text, false, false, false⟩, 0x8000⟩],
    [], by decide⟩
  segm := .text
  offset := 0x8000
  pair := .hiLo
  r := 2
  index := 0
  sym := ⟨[0x78], ⟨.text, false, false, false⟩, 0x8000⟩
  entry := rfl
  before := true
  k := 0
  torigin := 0x7f008000
  dorigin := 0x7f010010
  module := ⟨0x7f008000, 0x7f008000, 0, 0, false, 0, [], []⟩
  ctrel := rfl
  cdrel := rfl
  executable := rfl

/-- Both programs add the carry: the register gets 0x7f020000. -/
theorem label_pair_misses : labelSite.Final 0x7f010000 ∧ ¬ labelSite.Loads 0x7f010000 := by
  refine ⟨.label .text nofun rfl, ?_⟩
  intro loads
  have carries := (labelSite.loads_label (g := .text) nofun rfl).mp loads
  change (labelSite.carry (labelSite.folded .text) + labelSite.carry (sub (labelSite.origin .text)
    _)) % 2 ^ 16 = labelSite.carry _ at carries
  exact absurd carries (by decide)

end AddressHalves
