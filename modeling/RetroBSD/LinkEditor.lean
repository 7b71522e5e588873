import RetroBSD.LinkWords
import RetroBSD.ProbeTables

/-!
# The link editor

`ld` without libraries, for an executable and with `-r`: the first pass over the files collects
the sizes of the segments and the external symbols, `middle` gives addresses to commons and
symbols, and the second pass moves every word. A message is a refusal. Sizes are numbers
without bound, addresses are words.
-/

namespace LinkEditor

open ObjectFiles
open Assembler (Reloc fgetrel fputrel)

abbrev W : ℕ := 4
abbrev BADDR : ℕ := 0x7f008000
abbrev NSYM : ℕ := 1500
abbrev NSYMPR : ℕ := 500
abbrev gpoffset : ℕ := 0x8000

/-- A relocatable file: the words of text and data, the size of the bss, the bytes of the
relocation records, the symbols, and the bytes behind these. -/
structure Object where
  text : List ℕ
  data : List ℕ
  bss : ℕ
  reltext : List UInt8
  reldata : List UInt8
  syms : List Nlist
  fill : List UInt8
  words : ∀ s ∈ syms, s.n_value < WORDS

/-- The type of a symbol as a byte. -/
def NType.byte (t : NType) : UInt8 :=
  let kind := match t.kind with
    | .undf => 0
    | .abs => 1
    | .text => 2
    | .data => 3
    | .bss => 4
    | .strng => 5
    | .comm => 6
    | .fn => 0x1f
    | .other n => n % 32
  UInt8.ofNat (kind + (if t.ext then 0x20 else 0) + (if t.weak then 0x40 else 0) +
    if t.loc then 0x80 else 0)

def fputsym (s : Nlist) : List UInt8 :=
  [UInt8.ofNat s.n_name.length, NType.byte s.n_type, UInt8.ofNat s.n_value,
    UInt8.ofNat (s.n_value / 2 ^ 8), UInt8.ofNat (s.n_value / 2 ^ 16),
    UInt8.ofNat (s.n_value / 2 ^ 24)] ++ s.n_name

/-- The file behind the records of the data. -/
def Object.symbols (o : Object) : List UInt8 := o.syms.flatMap fputsym ++ 0 :: o.fill

def Object.a_text (o : Object) : ℕ := W * o.text.length
def Object.a_data (o : Object) : ℕ := W * o.data.length

/-! ### The symbol table -/

/-- A name up to its first zero byte. -/
def cstring (name : List UInt8) : List UInt8 := name.takeWhile (· ≠ 0)

def hash_rot13 (s : List UInt8) : ℕ :=
  s.foldl (fun hash c =>
    let hash := (hash + c.toNat) % WORDS
    sub hash (hash * 2 ^ 13 % WORDS + hash / 2 ^ 19)) 0

/-- The hash table: a name is taken for every name of which it is the beginning. -/
def scheme : ProbeTables.Scheme (List UInt8) where
  hash s := hash_rot13 s % NSYM + 2
  next i := if i + 1 < NSYM + 2 then i + 1 else 0
  same s t := s.isPrefixOf t
  slots := NSYM + 2

def keys (symtab : List Nlist) : List (List UInt8) := symtab.map fun s => cstring s.n_name

/-- `lookup`: the index of the symbol in the table, if it is there. -/
def lookup (symtab : List Nlist) (name : List UInt8) : Option (Option ℕ) :=
  ProbeTables.lookup scheme (keys symtab) (cstring name)

/-- `symreloc`: a symbol of a file, with the displacements of the segments. -/
def symreloc (ctrel cdrel cbrel : ℕ) (s : Nlist) : Nlist :=
  match s.n_type with
  | ⟨.text, _, false, false⟩ => { s with n_value := (s.n_value + ctrel) % WORDS }
  | ⟨.data, _, false, false⟩ => { s with n_value := (s.n_value + cdrel) % WORDS }
  | ⟨.bss, _, false, false⟩ => { s with n_value := (s.n_value + cbrel) % WORDS }
  | ⟨.undf, true, false, false⟩ => s
  | ⟨.comm, true, false, false⟩ => s
  | type => if type.ext then { s with n_type := extern_ .abs } else s

/-- A symbol of the table that is met again. -/
def merge (sp cursym : Nlist) : Nlist :=
  if cursym.n_type = extern_ .undf then sp
  else if undefined sp.n_type then
    if cursym.n_type = extern_ .comm then
      { sp with n_type := extern_ .comm, n_value := max sp.n_value cursym.n_value }
    else if sp.n_type = extern_ .undf ∨ cursym.n_type = extern_ .data ∨
        cursym.n_type = extern_ .bss then
      { sp with n_type := cursym.n_type, n_value := cursym.n_value }
    else sp
  else sp

/-- `enter`, and what `load1` does with a symbol that is there. -/
def enter (symtab : List Nlist) (cursym : Nlist) : Option (List Nlist) :=
  (lookup symtab cursym.n_name).bind fun
    | none => if symtab.length < NSYM then some (symtab ++ [cursym]) else none
    | some i => some (symtab.modify i (merge · cursym))

/-! ### The first pass -/

/-- The sizes so far, the number of local symbols, and the symbol table. -/
structure Pass1 where
  tsize : ℕ
  dsize : ℕ
  bsize : ℕ
  nsym : ℕ
  symtab : List Nlist

/-- One symbol of a file: a local one is counted. -/
def load1sym (ctrel cdrel cbrel : ℕ) (p : ℕ × List Nlist) (s : Nlist) : Option (ℕ × List Nlist) :=
  if s.n_type.ext then
    (enter p.2 (symreloc ctrel cdrel cbrel s)).map fun symtab => (p.1, symtab)
  else some (p.1 + 1, p.2)

def whole (n : ℕ) : ℕ := (n + 3) / 4 * 4

/-- `load1`; the name of the file is a local symbol, and the bss has whole words. -/
def load1 (p : Pass1) (o : Object) : Option Pass1 :=
  if o.bss % W ≠ 0 then none
  else (o.syms.foldlM (load1sym p.tsize (sub p.dsize o.a_text) (sub p.bsize (o.a_text + o.a_data)))
    (p.nsym + 1, p.symtab)).map fun t =>
      ⟨whole (p.tsize + o.a_text), whole (p.dsize + o.a_data), whole (p.bsize + o.bss), t.1, t.2⟩

abbrev Files := List (List UInt8 × Object)

def pass1 (files : Files) : Option Pass1 :=
  files.foldlM (fun p f => load1 p f.2) ⟨0, 0, 0, 0, []⟩

/-! ### Addresses -/

def ascii (s : String) : List UInt8 := s.toList.map fun c => UInt8.ofNat c.toNat

/-- `ldrsym`: a symbol that the link editor defines, if the program has it. -/
def ldrsym (symtab : List Nlist) (sp : Option ℕ) (val : ℕ) (kind : Kind) : Option (List Nlist) :=
  match sp with
  | none => some symtab
  | some i =>
    if (symtab[i]?).any (·.n_type = extern_ .undf) then
      some (symtab.modify i fun s => { s with n_type := extern_ kind, n_value := val % WORDS })
    else none

/-- The commons one behind the other, and their size. -/
def allocate : ℕ → List Nlist → List Nlist × ℕ
  | cmsize, [] => ([], cmsize)
  | cmsize, sp :: rest =>
    if sp.n_type.kind = .comm then
      let more := allocate (whole (cmsize + sp.n_value)) rest
      ({ sp with n_value := cmsize % WORDS } :: more.1, more.2)
    else
      let more := allocate cmsize rest
      (sp :: more.1, more.2)

/-- A symbol gets its final value. -/
def settle (torigin dorigin cmorigin borigin : ℕ) (sp : Nlist) : Nlist :=
  if sp.n_type = extern_ .text then { sp with n_value := (sp.n_value + torigin) % WORDS }
  else if sp.n_type = extern_ .data then { sp with n_value := (sp.n_value + dorigin) % WORDS }
  else if sp.n_type = extern_ .bss then { sp with n_value := (sp.n_value + borigin) % WORDS }
  else if sp.n_type.kind = .comm then
    { sp with n_type := extern_ .bss, n_value := (sp.n_value + cmorigin) % WORDS }
  else sp

/-- What the second pass starts from. -/
structure Link where
  torigin : ℕ
  dorigin : ℕ
  borigin : ℕ
  tsize : ℕ
  bsize : ℕ
  gp : ℕ
  nsym : ℕ
  output_relinfo : Bool
  symtab : List Nlist

/-- The end of `middle`: origins and symbols, once the commons have their places. -/
def assign (basaddr : ℕ) (output_relinfo : Bool) (p : Pass1) (symtab : List Nlist) (cmsize : ℕ) :
    Link :=
  let tsize := (p.tsize + 15) / 16 * 16
  let dorigin := basaddr + tsize
  let cmorigin := dorigin + p.dsize
  let borigin := cmorigin + cmsize
  ⟨basaddr, dorigin, borigin, tsize, p.bsize + cmsize, dorigin + gpoffset, p.nsym, output_relinfo,
    symtab.map (settle basaddr dorigin cmorigin borigin)⟩

/-- `middle` with `-r`: commons have no places. -/
def middleR (basaddr : ℕ) (p : Pass1) : Link := assign basaddr true p p.symtab 0

/-- The symbols that the link editor knows, in the order in which it looks them up. -/
def special (p : Pass1) : Option (Option ℕ × Option ℕ × Option ℕ × Option ℕ) :=
  (lookup p.symtab (ascii "_etext")).bind fun etext =>
    (lookup p.symtab (ascii "_edata")).bind fun edata =>
      (lookup p.symtab (ascii "_end")).bind fun end_ =>
        (lookup p.symtab (ascii "_gp")).map fun gp => (etext, edata, end_, gp)

/-- These symbols are defined. -/
def define (p : Pass1) : Option (List Nlist) :=
  (special p).bind fun at_ =>
    (ldrsym p.symtab at_.1 ((p.tsize + 15) / 16 * 16) .text).bind fun symtab =>
      (ldrsym symtab at_.2.1 p.dsize .data).bind fun symtab =>
        (ldrsym symtab at_.2.2.1 p.bsize .bss).bind fun symtab =>
          ldrsym symtab at_.2.2.2 gpoffset .data

/-- `middle` for an executable: no symbol may be undefined. -/
def middle (basaddr : ℕ) (p : Pass1) : Option Link :=
  (define p).bind fun symtab =>
    if symtab.any (·.n_type = extern_ .undf) then none
    else
      let placed := allocate 0 symtab
      some (assign basaddr false p placed.1 placed.2)

/-! ### The second pass -/

/-- The symbols of a file again: the external references by their index, and the local symbols
for the output. A definition that is not the one in the table is refused. -/
def load2sym (m : Module) (p : ℕ × List (ℕ × ℕ) × List Nlist) (s : Nlist) :
    Option (ℕ × List (ℕ × ℕ) × List Nlist) :=
  let cursym := symreloc m.ctrel m.cdrel m.cbrel s
  if cursym.n_type.ext then
    ((lookup m.symtab cursym.n_name).bind id).bind fun i =>
      if undefined cursym.n_type then
        if p.2.1.length < NSYMPR then some (p.1 + 1, p.2.1 ++ [(p.1, i)], p.2.2) else none
      else if (m.symtab[i]?).any fun sp =>
          sp.n_type = cursym.n_type ∧ sp.n_value = cursym.n_value then some (p.1 + 1, p.2)
      else none
  else some (p.1 + 1, p.2.1, p.2.2 ++ [cursym])

/-- `relocate`: the words of a segment with the records from a file. -/
def relocate (m : Module) : List ℕ → List UInt8 → ℕ → Option (List (ℕ × Reloc))
  | [], _, _ => some []
  | word :: words, file, offset =>
    (fgetrel file).bind fun r =>
      (relword m word r.1 offset).bind fun w =>
        (relocate m words r.2 (offset + W)).map fun rest => w :: rest

/-- The words of text and data with their records, and the local symbols. -/
structure Output where
  text : List (ℕ × Reloc)
  data : List (ℕ × Reloc)
  syms : List Nlist

def Output.append (a b : Output) : Output := ⟨a.text ++ b.text, a.data ++ b.data, a.syms ++ b.syms⟩

/-- The module of a file, with the symbols that it refers to. -/
def moduleOf (l : Link) (o : Object) (locals : List (ℕ × ℕ)) : Module where
  ctrel := l.torigin % WORDS
  cdrel := sub l.dorigin o.a_text
  cbrel := sub l.borigin (o.a_text + o.a_data)
  gp := l.gp
  output_relinfo := l.output_relinfo
  nsym := l.nsym
  symtab := l.symtab
  locals := locals

/-- The name of a file, as a symbol. -/
def mkfsym (l : Link) (name : List UInt8) : Nlist :=
  ⟨name, ⟨.fn, false, false, false⟩, l.torigin % WORDS⟩

/-- The origins behind a file. -/
def Link.next (l : Link) (o : Object) : Link :=
  { l with
    torigin := whole (l.torigin + o.a_text)
    dorigin := whole (l.dorigin + o.a_data)
    borigin := whole (l.borigin + o.bss) }

/-- The symbols that a file refers to, and its local symbols. -/
def locals (l : Link) (o : Object) : Option (List (ℕ × ℕ) × List Nlist) :=
  (o.syms.foldlM (load2sym (moduleOf l o [])) (0, [], [])).map Prod.snd

def load2 (l : Link) (f : List UInt8 × Object) : Option Output :=
  (locals l f.2).bind fun t =>
    let m := moduleOf l f.2 t.1
    (relocate m f.2.text (f.2.reltext ++ f.2.reldata ++ f.2.symbols) l.torigin).bind fun text =>
      (relocate m f.2.data (f.2.reldata ++ f.2.symbols) l.dorigin).map fun data =>
        ⟨text, data, mkfsym l f.1 :: t.2⟩

def pass2 : Link → Files → Option Output
  | _, [] => some ⟨[], [], []⟩
  | l, f :: files =>
    (load2 l f).bind fun out => (pass2 (l.next f.2) files).map out.append

/-! ### The output -/

/-- The loaded words and the symbols of an executable. -/
structure Image where
  text : List ℕ
  data : List ℕ
  symtab : List Nlist

/-- The text is filled up with zeros. -/
def padText (tsize : ℕ) (text : List ℕ) : List ℕ :=
  text ++ List.replicate ((tsize - W * text.length) / W) 0

/-- Records, filled up to whole words. -/
def records (rels : List Reloc) : List UInt8 :=
  let bytes := rels.flatMap fputrel
  bytes ++ List.replicate (whole bytes.length - bytes.length) 0

/-- `ld` for an executable at `basaddr`. -/
def ld (basaddr : ℕ) (files : Files) : Option Image :=
  (pass1 files).bind fun p =>
    (middle basaddr p).bind fun l =>
      (pass2 l files).map fun out =>
        ⟨padText l.tsize (out.text.map Prod.fst), out.data.map Prod.fst, l.symtab⟩

def stored (s : Nlist) : Nlist := { s with n_value := s.n_value % WORDS }

lemma stored_lt {l : List Nlist} {s : Nlist} (inside : s ∈ l.map stored) : s.n_value < WORDS := by
  obtain ⟨-, -, rfl⟩ := List.mem_map.mp inside
  exact Nat.mod_lt _ (by decide)

/-- The file that `ld -r -T0` writes. -/
def outputR (l : Link) (out : Output) : Object where
  text := padText l.tsize (out.text.map Prod.fst)
  data := out.data.map Prod.fst
  bss := l.bsize
  reltext := records (out.text.map Prod.snd)
  reldata := records (out.data.map Prod.snd)
  syms := (out.syms ++ l.symtab).map stored
  fill :=
    let bytes := ((out.syms ++ l.symtab).map stored).flatMap fputsym
    List.replicate (whole (bytes.length + 1) - (bytes.length + 1)) 0
  words _ inside := stored_lt inside

def ldR (files : Files) : Option Object :=
  (pass1 files).bind fun p => (pass2 (middleR 0 p) files).map (outputR (middleR 0 p))

end LinkEditor
