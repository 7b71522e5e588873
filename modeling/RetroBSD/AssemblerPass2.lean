import RetroBSD.ObjectFiles

/-!
# The second pass of the assembler

Every word of the three segments is made from the word and the record of the first pass: the
base of its segment is added, and references to symbols that have been defined meanwhile are
resolved. `relrel` then gives the record its final form.
-/

namespace Assembler

open ObjectFiles

/-- `segmrel` for the four segments. -/
def Segment.rel : Segment → RSegment
  | .text => .text
  | .data => .data
  | .strng => .strng
  | .bss => .bss

/-- `segmtype` for the four segments. -/
def Segment.type : Segment → Kind
  | .text => .text
  | .data => .data
  | .strng => .strng
  | .bss => .bss

abbrev HASHSZ : ℕ := 1024
abbrev STSIZE : ℕ := HASHSZ * 9 / 10

/-- The sizes of the segments, the symbols and the numeric labels after the first pass and
`middle`. A full symbol table is an error. -/
structure Pass1 where
  count : Segment → ℕ
  stab : List Nlist
  labeltab : List (ℕ × ℕ)
  room : stab.length ≤ STSIZE

/-- Where the segment starts in the module: `tbase`, `dbase`, `adbase` and `bbase`. -/
def Pass1.base (p : Pass1) : Segment → ℕ
  | .text => 0
  | .data => p.count .text
  | .strng => p.count .text + p.count .data
  | .bss => p.count .text + p.count .data + p.count .strng

def segmentOf : Kind → Option Segment
  | .text => some .text
  | .data => some .data
  | .strng => some .strng
  | .bss => some .bss
  | _ => none

/-- A symbol after the loop at the start of `pass2`. -/
def Pass1.based (p : Pass1) (sym : Nlist) : Nlist :=
  match segmentOf sym.n_type.kind with
  | some g =>
    { sym with
      n_value := (sym.n_value + p.base g) % WORDS
      n_type := { sym.n_type with kind := if g = .strng then .data else g.type } }
  | none => sym

def Pass1.symbols (p : Pass1) : List Nlist := p.stab.map p.based

abbrev RLAB_OFFSET : ℕ := 2 ^ 23
abbrev RLAB_MAXVAL : ℕ := 1000000

/-- The address of a numeric label; backward references have the smaller indices. -/
def findlabel (labeltab : List (ℕ × ℕ)) (addr index : ℕ) : Option ℕ :=
  if index < RLAB_OFFSET then
    (labeltab.reverse.find? fun p => p.2 ≤ addr ∧ p.1 = RLAB_OFFSET - index).map Prod.snd
  else (labeltab.find? fun p => addr < p.2 ∧ p.1 = index - RLAB_OFFSET).map Prod.snd

/-- `relocate`; a relative word address is refused. -/
def relocate (opcode offset : ℕ) (rel : Reloc) : Option ℕ :=
  match rformat rel.flags with
  | .byte32 => some ((opcode + offset) % WORDS)
  | .byte16 => some (setLow opcode (offset + opcode % 2 ^ 16))
  | .high16 =>
    some (setLow opcode ((offset + opcode % 2 ^ 16 * 2 ^ 16 + rel.offset) % WORDS / 2 ^ 16))
  | .high16s =>
    some (setLow opcode
      ((offset + opcode % 2 ^ 16 * 2 ^ 16 + (rel.offset + 0x8000)) % WORDS / 2 ^ 16))
  | .word16 => none
  | .word26 =>
    some (setTarget opcode ((offset + opcode % 2 ^ 26 * 2 ^ 2) % WORDS / 2 ^ 2))
  | .none => some opcode

/-- A branch to a label of the same segment. -/
def displace (p : Pass1) (segm : Segment) (opcode value offset : ℕ) : ℕ :=
  let start := match segm with
    | .data => p.base .data
    | .strng => p.base .strng
    | _ => 0
  setLow opcode ((sub (sub value (offset + 4)) start + opcode % 2 ^ 16 * 2 ^ 2) % WORDS / 2 ^ 2)

/-- The rest of `makeword` once the value of the symbol, or the numeric label, is known. -/
def resolve (p : Pass1) (segm : Segment) (opcode : ℕ) (rel : Reloc) (offset : ℕ)
    (kind : Option Kind) (value : ℕ) : Option (ℕ × Reloc) :=
  match rformat rel.flags with
  | .word16 =>
    if kind.any (· ≠ segm.type) then none
    else some (displace p segm opcode value offset, { rel with flags := 0 })
  | .high16 | .high16s =>
    (relocate opcode ((value + rel.offset) % WORDS) rel).map fun w => (w, rel)
  | _ => (relocate opcode value rel).map fun w => (w, rel)

/-- The symbol is left to the link editor. -/
def Nlist.left (sym : Nlist) : Bool :=
  sym.n_type = extern_ .undf ∨ sym.n_type = extern_ .comm

def makeword (p : Pass1) (segm : Segment) (opcode : ℕ) (rel : Reloc) (offset : ℕ) :
    Option (ℕ × Reloc) :=
  match rsegment rel.flags with
  | .abs => some (opcode, rel)
  | .text => (relocate opcode (p.base .text) rel).map fun w => (w, rel)
  | .data => (relocate opcode (p.base .data) rel).map fun w => (w, rel)
  | .strng => (relocate opcode (p.base .strng) rel).map fun w => (w, rel)
  | .bss => (relocate opcode (p.base .bss) rel).map fun w => (w, rel)
  | .ext =>
    if RLAB_OFFSET - RLAB_MAXVAL ≤ rel.index then
      (findlabel p.labeltab offset rel.index).bind fun value =>
        resolve p segm opcode { rel with flags := retype rel.flags segm.rel } offset none value
    else
      (p.symbols[rel.index]?).bind fun sym =>
        if Nlist.left sym then some (opcode, rel)
        else resolve p segm opcode rel offset (some sym.n_type.kind) sym.n_value

/-- `typerel`: the segment bits for a symbol. -/
def typerel : Kind → RSegment
  | .text => .text
  | .data => .data
  | .bss => .bss
  | .strng => .data
  | _ => .abs

/-- `relrel`, without the options that leave out symbols. -/
def relrel (p : Pass1) (rel : Reloc) : Option Reloc :=
  match rsegment rel.flags with
  | .strng => some { rel with flags := resegment rel.flags .data }
  | .ext =>
    (p.symbols[rel.index]?).map fun sym =>
      if Nlist.left sym then rel
      else { rel with flags := resegment rel.flags (typerel sym.n_type.kind) }
  | _ => some rel

/-- A word and its record, as they stand in the object file. -/
def pass2 (p : Pass1) (segm : Segment) (offset : ℕ) (word : ℕ × Reloc) : Option (ℕ × Reloc) :=
  (makeword p segm word.1 word.2 offset).bind fun w => (relrel p w.2).map fun rel => (w.1, rel)

end Assembler
