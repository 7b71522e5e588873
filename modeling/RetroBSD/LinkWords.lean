import RetroBSD.ObjectFiles

/-!
# Relocation of words in the link editor

`relword` of `ld`: a word of an object file, with its record, is moved to the addresses of its
module. The record changes as well, for an output that is linked again.
-/

namespace LinkEditor

open ObjectFiles
open Assembler (Reloc)

/-- What `relword` reads: the displacements of the module, the global pointer, the symbols by
their index in the file, and how the output numbers symbols. -/
structure Module where
  ctrel : ℕ
  cdrel : ℕ
  cbrel : ℕ
  gp : ℕ
  output_relinfo : Bool
  nsym : ℕ
  symtab : List Nlist
  locals : List (ℕ × ℕ)

/-- `lookloc`: the place in the symbol table. -/
def lookloc (m : Module) (sn : ℕ) : Option ℕ := (m.locals.find? (·.1 = sn)).map Prod.snd

/-- `reltype`: the segment bits for a symbol. -/
def reltype : Kind → RSegment
  | .text => .text
  | .data => .data
  | .bss => .bss
  | .strng => .data
  | .comm => .bss
  | _ => .abs

def address (word : ℕ) : RFormat → ℕ
  | .byte16 => word % 2 ^ 16
  | .byte32 => word
  | .word16 => word % 2 ^ 16 * 2 ^ 2
  | .word26 => word % 2 ^ 26 * 2 ^ 2
  | .high16 | .high16s => word % 2 ^ 16 * 2 ^ 16
  | .none => 0

/-- What is to be added, with the record as it is then; `found` is set for a symbol that has
been defined. -/
structure Delta where
  delta : ℕ
  rel : Reloc
  found : Bool

def undefined (type : NType) : Bool := type = extern_ .undf ∨ type = extern_ .comm

def delta (m : Module) (rel : Reloc) : Option Delta :=
  match rsegment rel.flags with
  | .text => some ⟨m.ctrel, rel, false⟩
  | .data => some ⟨m.cdrel, rel, false⟩
  | .bss => some ⟨m.cbrel, rel, false⟩
  | .ext =>
    (lookloc m rel.index).bind fun i =>
      (m.symtab[i]?).map fun sp =>
        if undefined sp.n_type then ⟨0, { rel with index := m.nsym + i }, false⟩
        else ⟨sp.n_value, { rel with flags := retype rel.flags (reltype sp.n_type.kind) }, true⟩
  | _ => some ⟨0, rel, false⟩

/-- An address relative to the global pointer, unless the output is linked again. -/
def gpdelta (m : Module) (d : Delta) : Delta :=
  if gprel d.rel.flags ∧ ¬ m.output_relinfo then
    ⟨sub d.delta m.gp, { d.rel with flags := ungprel d.rel.flags }, d.found⟩
  else d

def patch (word : ℕ) (d : Delta) (offset : ℕ) : ℕ × Reloc :=
  let format := rformat d.rel.flags
  let addr := address word format
  match format with
  | .byte16 => (setLow word (addr + d.delta), d.rel)
  | .byte32 => ((addr + d.delta) % WORDS, d.rel)
  | .word16 =>
    if d.found then
      (setLow word (sub (addr + d.delta) (offset + 4) / 2 ^ 2), { d.rel with flags := 0 })
    else (word, d.rel)
  | .word26 => (setTarget word ((addr + d.delta) % WORDS / 2 ^ 2), d.rel)
  | .high16 => (setLow word ((addr + d.delta + d.rel.offset) % WORDS / 2 ^ 16), d.rel)
  | .high16s => (setLow word ((addr + d.delta + (d.rel.offset + 0x8000)) % WORDS / 2 ^ 16), d.rel)
  | .none => (word, d.rel)

/-- `relword`; a record that names no symbol of the file is refused. -/
def relword (m : Module) (word : ℕ) (rel : Reloc) (offset : ℕ) : Option (ℕ × Reloc) :=
  (delta m rel).map fun d => patch word (gpdelta m d) offset

end LinkEditor
