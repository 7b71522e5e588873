import Mathlib.Tactic

/-!
# The segment streams of the assembler

The first pass of `as` puts the words and bytes of the text, data and string segments into
temporary files, with a file of relocation records beside each. In the text segment an
instruction is held back, so that a branch can take it into its delay slot.

A statement is given as parsed: expressions with their values, machine instructions with
their words, relocations and changed registers. Symbols are not modelled. For every byte
that is written the number of the item is noted to which it belongs; padding has none. The
files stay shorter than 2^32 bytes.
-/

namespace Assembler

inductive Segment where
  | text
  | data
  | strng
  | bss
deriving DecidableEq

/-! ### Relocation records -/

abbrev RSMASK : ℕ := 0x70
abbrev REXT : ℕ := 0x70
abbrev RFMASK : ℕ := 0x07
abbrev RHIGH16 : ℕ := 0x02
abbrev RHIGH16S : ℕ := 0x03

/-- The flags all fit into a byte. -/
structure Reloc where
  flags : UInt8
  index : ℕ
  offset : ℕ

def relabs : Reloc := ⟨0, 0, 0⟩

def external (flags : UInt8) : Bool := flags.toNat &&& RSMASK == REXT

def high (flags : UInt8) : Bool :=
  flags.toNat &&& RFMASK == RHIGH16 || flags.toNat &&& RFMASK == RHIGH16S

def fputrel (r : Reloc) : List UInt8 :=
  r.flags ::
    ((if external r.flags then
        [UInt8.ofNat r.index, UInt8.ofNat (r.index / 2 ^ 8), UInt8.ofNat (r.index / 2 ^ 16)]
      else []) ++
    if high r.flags then [UInt8.ofNat r.offset, UInt8.ofNat (r.offset / 2 ^ 8)] else [])

def fgetindex (flags : UInt8) (file : List UInt8) : Option (ℕ × List UInt8) :=
  if external flags then
    match file with
    | a :: b :: c :: rest => some (a.toNat + b.toNat * 2 ^ 8 + c.toNat * 2 ^ 16, rest)
    | _ => none
  else some (0, file)

def fgetoffset (flags : UInt8) (file : List UInt8) : Option (ℕ × List UInt8) :=
  if high flags then
    match file with
    | a :: b :: rest => some (a.toNat + b.toNat * 2 ^ 8, rest)
    | _ => none
  else some (0, file)

/-- `fgetrel`: one record and what is behind it, unless the file ends inside. -/
def fgetrel : List UInt8 → Option (Reloc × List UInt8)
  | [] => none
  | flags :: rest =>
    (fgetindex flags rest).bind fun i =>
      (fgetoffset flags i.2).map fun o => (⟨flags, i.1, o.1⟩, o.2)

def fgetrels : ℕ → List UInt8 → Option (List Reloc)
  | _, [] => some []
  | 0, _ :: _ => none
  | fuel + 1, byte :: bytes =>
    (fgetrel (byte :: bytes)).bind fun r => (fgetrels fuel r.2).map (r.1 :: ·)

/-! ### Streams -/

/-- A byte in a file, with the number of the item that it belongs to. -/
abbrev Cell := UInt8 × Option ℕ

/-- The counter of a segment, its file, and the records written for it. -/
structure Stream where
  count : ℕ
  file : List Cell
  rel : List Reloc

/-- An item with the segment it was assembled in and the address of a label in front of it. -/
structure Placement where
  segment : Segment
  address : ℕ
  cells : List Cell

/-- The word that is held back; an item has its number and its address. -/
structure Held where
  word : ℕ
  rel : Reloc
  clobber : ℕ
  item : Option (ℕ × ℕ)
  instruction : Bool

structure State where
  streams : Segment → Stream
  segm : Segment
  mode_reorder : Bool
  held : Option Held
  items : List Placement
  serial : ℕ

def State.count (s : State) : ℕ := (s.streams s.segm).count

/-- The bytes of a word, the lowest first. -/
def cells (w : ℕ) (item : Option ℕ) : List Cell :=
  [(UInt8.ofNat w, item), (UInt8.ofNat (w / 2 ^ 8), item), (UInt8.ofNat (w / 2 ^ 16), item),
    (UInt8.ofNat (w / 2 ^ 24), item)]

/-- Bytes and records are put into the files of the current segment, and its counter goes on. -/
def State.put (s : State) (cs : List Cell) (rs : List Reloc) (n : ℕ) : State :=
  let x := s.streams s.segm
  { s with
    streams := Function.update s.streams s.segm ⟨x.count + n, x.file ++ cs, x.rel ++ rs⟩ }

/-- The bss segment has no files. -/
def write (s : State) (cs : List Cell) (rs : List Reloc) (n : ℕ) : Option State :=
  if s.segm = .bss ∧ (cs ≠ [] ∨ rs ≠ []) then none else some (s.put cs rs n)

def Held.cells (h : Held) : List Cell := Assembler.cells h.word (h.item.map Prod.fst)

/-- What is held as an item, where it was assembled. -/
def Held.items (h : Held) : List Placement := h.item.toList.map fun i => ⟨.text, i.2, h.cells⟩

/-- `reorder_flush`: the held word goes to the segment that is current now. -/
def reorder_flush (s : State) : Option State :=
  match s.held with
  | none => some s
  | some h =>
    (write s h.cells [h.rel] 0).map fun s =>
      { s with held := none, items := s.items ++ h.items }

/-- A word to be put out, with its relocation and the register that it changes. -/
structure Emit where
  word : ℕ
  rel : Reloc
  clobber : ℕ

/-- The default emit function; `place` is the address if the word is an item. -/
def emitword (s : State) (e : Emit) (place : Option ℕ) (instruction : Bool) : Option State :=
  let h : Held := ⟨e.word, e.rel, e.clobber, place.map fun a => (s.serial, a), instruction⟩
  if s.mode_reorder = true ∧ s.segm = .text then
    (reorder_flush s).bind fun s =>
      (write s [] [] 4).map fun s => { s with held := some h, serial := s.serial + 1 }
  else
    (write s h.cells [e.rel] 4).map fun t =>
      { t with
        items := t.items ++ h.item.toList.map fun i => ⟨s.segm, i.2, h.cells⟩
        serial := t.serial + 1 }

/-- Words in a row, the first at the address of the label. -/
def emits (instruction : Bool) : ℕ → List Emit → State → Option State
  | _, [], s => some s
  | a, e :: es, s =>
    (emitword s e (some a) instruction).bind fun s => emits instruction s.count es s

/-- The records that go with `n` bytes behind the first `count`. -/
def crossings (count : ℕ) : ℕ → List Reloc
  | 0 => []
  | n + 1 => (if (count + 1) % 4 = 0 then [relabs] else []) ++ crossings (count + 1) n

/-- `add_space` for bytes that are written, or not at all in the bss segment. -/
def add_space (s : State) (cs : List Cell) : Option State :=
  write s cs (if s.segm = .bss then [] else crossings s.count cs.length) cs.length

/-- `n` bytes of zero; the bss segment only counts them. -/
def zeroes (s : State) (n : ℕ) (item : Option ℕ) : Option State :=
  if s.segm = .bss then write s [] [] n else add_space s (List.replicate n (0, item))

def align (s : State) (bits : ℕ) : Option State :=
  zeroes s ((2 ^ bits - s.count % 2 ^ bits) % 2 ^ bits) none

def bytes (s : State) (a : ℕ) (bs : List UInt8) : Option State :=
  let cs := bs.map fun b => (b, some s.serial)
  (add_space s cs).map fun t =>
    { t with items := t.items ++ [⟨s.segm, a, cs⟩], serial := t.serial + 1 }

/-! ### Branches -/

/-- A branch with a delay slot, and whether it reads the registers in its fields. -/
structure Branch where
  word : ℕ
  rel : Reloc
  clobber : ℕ
  usesRs : Bool
  usesRt : Bool

/-- The branch reads the register that the held instruction changes. -/
def Branch.depends (b : Branch) (h : Held) : Bool :=
  h.clobber != 0 &&
    (b.usesRs && b.word / 2 ^ 21 % 32 == h.clobber || b.usesRt && b.word / 2 ^ 16 % 32 == h.clobber)

/-- The held word, unless it has to stay in front of the branch. -/
def settle (s : State) (b : Branch) : Option State :=
  match s.held with
  | some h => if b.depends h then reorder_flush s else some s
  | none => some s

/-- Where the branch and the word in its delay slot belong: an instruction is exchanged with
the branch, and nothing else is. -/
def slotItems (h : Held) (a : ℕ) (cs : List Cell) : List Placement :=
  match h.item with
  | some i =>
    if h.instruction then [⟨.text, i.2, cs⟩, ⟨.text, a, h.cells⟩]
    else [⟨.text, i.2, h.cells⟩, ⟨.text, a, cs⟩]
  | none => [⟨.text, a, cs⟩]

/-- A branch in the text segment, in reorder mode. -/
def delayed (s : State) (b : Branch) (a : ℕ) : Option State :=
  let cs := cells b.word (some s.serial)
  (settle s b).bind fun s =>
    match s.held with
    | some h =>
      (write s (cs ++ h.cells) [b.rel, h.rel] 4).map fun s =>
        { s with held := none, items := s.items ++ slotItems h a cs, serial := s.serial + 1 }
    | none =>
      (write s (cs ++ cells 0 none) [b.rel, relabs] 8).map fun s =>
        { s with items := s.items ++ [⟨.text, a, cs⟩], serial := s.serial + 1 }

def branch (s : State) (b : Branch) (a : ℕ) : Option State :=
  if s.mode_reorder = true ∧ s.segm = .text then delayed s b a
  else emitword s ⟨b.word, b.rel, b.clobber⟩ (some a) true

/-! ### Statements -/

inductive Stmt where
  | label
  | assign (addr : ℕ)
  | instr (first : Emit) (more : List Emit)
  | branch (b : Branch)
  | text
  | data
  | strng
  | bss
  | sect (name : List Char)
  | word (first : ℕ × Reloc) (more : List (ℕ × Reloc))
  | byte (first : UInt8) (more : List UInt8)
  | half (first : ℕ) (more : List ℕ)
  | space (n : ℕ)
  | align (bits : ℕ)
  | ascii (bs : List UInt8)
  | reorder (enable : Bool)
  | other

/-- The names that `setsection` knows; any longer name will do. -/
def sections : List (String × Segment) :=
  [(".text", .text), (".data", .data), (".sdata", .data), (".rodata", .strng), (".bss", .bss),
    (".sbss", .bss), (".mdebug", .strng)]

def setsection (s : State) (name : List Char) : Option State :=
  (sections.find? fun p => p.1.toList.isPrefixOf name).map fun p => { s with segm := p.2 }

/-- The zero words of a count assignment; they are no items. -/
def fill : ℕ → State → Option State
  | 0, s => some s
  | n + 1, s => (emitword s ⟨0, relabs, 0⟩ none false).bind (fill n)

/-- The rest of a count assignment. -/
def advance (s : State) (addr : ℕ) : Option State :=
  if s.segm = .bss then write s [] [] (addr - s.count)
  else fill ((addr - s.count + 3) / 4) s

def halfBytes (v : ℕ) : List UInt8 := [UInt8.ofNat v, UInt8.ofNat (v / 2 ^ 8)]

/-- One statement of the first pass; a refused one, and a write to a file that is not there,
have no result. -/
def assemble (s : State) : Stmt → Option State
  | .label => reorder_flush s
  | .assign addr =>
    if addr < s.count then none else (reorder_flush s).bind fun s => advance s addr
  | .instr first more => (align s 2).bind (emits true s.count (first :: more))
  | .branch b => (align s 2).bind fun t => branch t b s.count
  | .text => reorder_flush { s with segm := .text }
  | .data => some { s with segm := .data }
  | .strng => some { s with segm := .strng }
  | .bss => some { s with segm := .bss }
  | .sect name => setsection s name
  | .word first more =>
    (reorder_flush s).bind fun t =>
      (align t 2).bind (emits false s.count ((first :: more).map fun v => ⟨v.1, v.2, 0⟩))
  | .byte first more => (reorder_flush s).bind fun t => bytes t s.count (first :: more)
  | .half first more =>
    (reorder_flush s).bind fun t =>
      (align t 1).bind fun t => bytes t s.count ((first :: more).flatMap halfBytes)
  | .space n =>
    (reorder_flush s).bind fun t =>
      if t.segm = .bss then zeroes t n none else bytes t s.count (List.replicate n 0)
  | .align bits => (reorder_flush s).bind fun t => align t bits
  | .ascii bs => (reorder_flush s).bind fun t => bytes t s.count bs
  | .reorder enable =>
    if enable then some { s with mode_reorder := true }
    else reorder_flush { s with mode_reorder := false }
  | .other => some s

/-- The end of the input where a statement could start. -/
def finish (s : State) : Option State :=
  (reorder_flush s).bind fun s =>
    (align { s with segm := .text } 2).bind fun s =>
      (align { s with segm := .data } 2).bind fun s =>
        (align { s with segm := .strng } 2).bind fun s => align { s with segm := .bss } 2

/-- How the input ends: where a statement could start, or directly behind a statement. -/
inductive Ending where
  | newline
  | statement

def assembleAll : State → List Stmt → Option State
  | s, [] => some s
  | s, stmt :: stmts => (assemble s stmt).bind fun s => assembleAll s stmts

def startup : State := ⟨fun _ => ⟨0, [], []⟩, .text, true, none, [], 0⟩

def pass1 (stmts : List Stmt) (ending : Ending) : Option State :=
  (assembleAll startup stmts).bind fun s =>
    match ending with
    | .newline => finish s
    | .statement => some s

/-! ### What the files should hold -/

def State.assembled (s : State) : List Placement := s.items ++ s.held.toList.flatMap Held.items

/-- The item stands in the file of its segment, at its address. -/
def Stored (s : State) (p : Placement) : Prop :=
  ((s.streams p.segment).file.drop p.address).take p.cells.length = p.cells

/-- The files at the end of the pass. -/
structure Complete (s : State) : Prop where
  whole : ∀ g ≠ .bss, (s.streams g).count % 4 = 0
  length : ∀ g ≠ .bss, (s.streams g).file.length = (s.streams g).count
  records : ∀ g ≠ .bss, ∃ rs, fgetrels ((s.streams g).rel.flatMap fputrel).length
    ((s.streams g).rel.flatMap fputrel) = some rs ∧ rs.length = (s.streams g).count / 4
  stored : ∀ p ∈ s.assembled, Stored s p

/-! ### When they do -/

/-- The statements that put out what is held, whatever segment is current. -/
def Stmt.flushes : Stmt → Bool
  | .label | .assign _ | .word _ _ | .byte _ _ | .half _ _ | .space _ | .align _ | .ascii _
  | .reorder false => true
  | _ => false

/-- Nothing is held, or the text segment is current. -/
def AtHome (s : State) : Prop := s.held = none ∨ s.segm = .text

/-- A statement is assembled without any of the flaws: what is held is put out in the text
segment only; items that are aligned stand where a label in front of them does; and a branch
takes nothing but an instruction into its delay slot. -/
def Clean (s : State) (stmt : Stmt) : Prop :=
  (stmt.flushes = true → AtHome s) ∧
    match stmt with
    | .instr _ _ | .word _ _ => s.count % 4 = 0
    | .half _ _ => s.count % 2 = 0
    | .branch b => s.count % 4 = 0 ∧
      (s.mode_reorder = true → s.segm = .text →
        ∀ h, s.held = some h → b.depends h = false → h.instruction = true)
    | _ => True

/-- The end of the input: what is held is put out in the text segment, or nothing is held and
every segment has whole words. -/
def CleanEnd (s : State) : Ending → Prop
  | .newline => AtHome s
  | .statement => s.held = none ∧ ∀ g ≠ .bss, (s.streams g).count % 4 = 0

/-- Every statement is, in the state in which it is met, and so is the end. -/
def CleanInput : State → List Stmt → Ending → Prop
  | s, [], ending => CleanEnd s ending
  | s, stmt :: stmts, ending =>
    Clean s stmt ∧ ∀ t, assemble s stmt = some t → CleanInput t stmts ending

end Assembler
