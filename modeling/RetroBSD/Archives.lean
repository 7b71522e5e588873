import RetroBSD.Numerals
import Mathlib.Data.List.DropRight

/-!
# Archives, as `ar` writes and reads them and as `ld` walks them

`put_arobj` writes a sixty-byte header of printed fields, the name itself where it is
long or holds a blank, the contents, and a byte of padding. `get_arobj` and `skip_arobj`
read the members back one after another; `ld` has a reader of its own, `fgetarhdr`.
A file is a list of bytes, and a descriptor is a position in it.

The owner, group and mode of a file, and its length together with its name, are numbers
that fit their header fields: a wider one overruns the buffer `hb`, which is not modelled.
Truncated names (`AR_TR`) and members copied from another archive are left out.
-/

namespace Archives

open Numerals

abbrev NEWLINE : UInt8 := 10
abbrev SLASH : UInt8 := 47
abbrev MAXNAMLEN : ℕ := 63
abbrev ARHDRSZ : ℕ := 60
abbrev SARMAG : ℕ := 8

/-- The text `!<arch>` and a newline. -/
def ARMAG : List UInt8 := [33, 60, 97, 114, 99, 104, 62, NEWLINE]

/-- A back quote and a newline, at the end of every header. -/
def ARFMAG : List UInt8 := [96, NEWLINE]

/-- The text `#1/`, which marks a name kept behind the header. -/
def AR_EFMT1 : List UInt8 := [35, 49, SLASH]

/-- A file to be archived: the last component of its name, its contents, and what
`fstat` says of it. -/
structure File where
  name : List UInt8
  content : List UInt8
  mtime : ℤ
  uid : ℕ
  gid : ℕ
  mode : ℕ
  named : 0 < name.length ∧ name.length ≤ MAXNAMLEN
  component : 0 ∉ name ∧ SLASH ∉ name
  mtime_fits : -2 ^ 31 ≤ mtime ∧ mtime < 2 ^ 31
  uid_fits : uid < 10 ^ 6
  gid_fits : gid < 10 ^ 6
  mode_fits : mode < 8 ^ 8
  size_fits : content.length + MAXNAMLEN < 2 ^ 31

/-! ### Writing -/

def signed (z : ℤ) : List UInt8 :=
  if z < 0 then MINUS :: numeral 10 z.natAbs else numeral 10 z.natAbs

def File.extended (f : File) : Bool := 16 < f.name.length || f.name.contains SPACE

def File.lname (f : File) : ℕ := if f.extended then f.name.length else 0

def File.label (f : File) : List UInt8 :=
  if f.extended then AR_EFMT1 ++ field 13 (numeral 10 f.name.length) else field 16 f.name

def File.attributes (f : File) : List UInt8 :=
  field 12 (signed f.mtime) ++ field 6 (numeral 10 f.uid) ++ field 6 (numeral 10 f.gid) ++
    field 8 (numeral 8 f.mode)

def File.header (f : File) : List UInt8 :=
  f.label ++ f.attributes ++ field 10 (numeral 10 (f.content.length + f.lname)) ++ ARFMAG

/-- What `copy_ar` writes with `WPAD` on: nothing at all for empty contents. -/
def copy_ar (content : List UInt8) (already_written : ℕ) : List UInt8 :=
  if content = [] then []
  else content ++ if (content.length + already_written) % 2 = 1 then [NEWLINE] else []

def put_arobj (f : File) : List UInt8 :=
  f.header ++ (if f.extended then f.name else []) ++ copy_ar f.content f.lname

def archive (files : List File) : List UInt8 := ARMAG ++ files.flatMap put_arobj

/-! ### Reading with `ar` -/

/-- `read`: fewer bytes at the end of the file, none behind it. -/
def read (file : List UInt8) (pos n : ℕ) : List UInt8 := (file.drop pos).take n

structure Chdr where
  name : List UInt8
  size : ℤ
  lname : ℕ
  date : ℤ
  uid : ℤ
  gid : ℤ
  mode : ℤ

inductive Got where
  | eof
  | badfmt
  | member (chdr : Chdr) (pos : ℕ)

def strip (s : List UInt8) : List UInt8 := s.rdropWhile (· == SPACE)

def convert (hb : List UInt8) : Chdr where
  name := strip (hb.take 16)
  size := strtol 10 ((hb.drop 48).take 10)
  lname := 0
  date := strtol 10 ((hb.drop 16).take 12)
  uid := strtol 10 ((hb.drop 28).take 6)
  gid := strtol 10 ((hb.drop 34).take 6)
  mode := strtol 8 ((hb.drop 40).take 8) % 2 ^ 16

def long_name (file hb : List UInt8) (pos : ℕ) : Got :=
  let len := strtol 10 (hb.drop 3)
  if len ≤ 0 ∨ (MAXNAMLEN : ℤ) < len then .badfmt
  else
    let name := read file pos len.toNat
    if name.length ≠ len.toNat then .badfmt
    else .member
      { convert hb with name := name, size := (convert hb).size - len, lname := len.toNat }
      (pos + len.toNat)

def get_arobj (file : List UInt8) (pos : ℕ) : Got :=
  let hb := read file pos ARHDRSZ
  if hb.length ≠ ARHDRSZ then (if hb = [] then .eof else .badfmt)
  else if hb.drop 58 ≠ ARFMAG then .badfmt
  else if hb.head? = some SPACE then .badfmt
  else if hb.take 3 = AR_EFMT1 then long_name file hb (pos + ARHDRSZ)
  else .member (convert hb) (pos + ARHDRSZ)

/-- The seek past a member; a place before the file is refused. -/
def skip_arobj (chdr : Chdr) (pos : ℕ) : Option ℕ :=
  let next : ℤ := pos + (chdr.size + (chdr.lname % 2 : ℕ))
  if next < 0 then none else some next.toNat

/-- `get_arobj` and `skip_arobj` in turn, as far as they go: each member with the position
of its contents, or nothing where the format is refused. -/
def members (file : List UInt8) : ℕ → ℕ → Option (List (Chdr × ℕ))
  | 0, _ => none
  | fuel + 1, pos =>
    match get_arobj file pos with
    | .eof => some []
    | .badfmt => none
    | .member chdr start =>
      (skip_arobj chdr start).bind fun next =>
        (members file fuel next).map ((chdr, start) :: ·)

variable {file : List UInt8} {pos : ℕ}

lemma members_end {fuel : ℕ} (last : get_arobj file pos = .eof) :
    members file (fuel + 1) pos = some [] := by
  rw [members, last]

/-! ### Walking with `ld` -/

structure Archdr where
  ar_name : List UInt8
  ar_size : ℤ
  ar_date : ℤ
  ar_uid : ℤ
  ar_gid : ℤ
  ar_mode : ℤ

/-- The fields behind the name, each read in full or the header is refused. -/
def fields (file : List UInt8) (name : List UInt8) (pos : ℕ) : Option Archdr :=
  let rest := read file pos 44
  if rest.length ≠ 44 then none
  else if rest.drop 42 ≠ ARFMAG then none
  else some
    { ar_name := name
      ar_size := strtol 10 ((rest.drop 32).take 10)
      ar_date := strtol 10 (rest.take 12)
      ar_uid := strtol 10 ((rest.drop 12).take 6)
      ar_gid := strtol 10 ((rest.drop 18).take 6)
      ar_mode := strtol 8 ((rest.drop 24).take 8) }

/-- `fgetarhdr`: a name behind the header is looked for right behind the first sixteen
bytes, and its length is not kept. -/
def fgetarhdr (file : List UInt8) (offset : ℕ) : Option Archdr :=
  let buf := read file offset 16
  if buf.length ≠ 16 ∨ buf.head? = some SPACE then none
  else if buf.take 3 = AR_EFMT1 then
    let len := strtol 10 (buf.drop 3)
    if len ≤ 0 ∨ (MAXNAMLEN : ℤ) < len then none
    else
      let name := read file (offset + 16) len.toNat
      if name.length ≠ len.toNat then none else fields file name (offset + 16 + len.toNat)
  else fields file (strip buf) (offset + 16)

/-- The linear walk of `load1lib`: every member with its offset, up to the first header
that is refused. -/
def load1lib (file : List UInt8) : ℕ → ℕ → Option (List (Archdr × ℕ))
  | 0, _ => none
  | fuel + 1, offset =>
    match fgetarhdr file offset with
    | none => some []
    | some h =>
      (load1lib file fuel (offset + h.ar_size + ARHDRSZ).toNat).map ((h, offset) :: ·)

lemma load1lib_none (refused : fgetarhdr file pos = none) (fuel : ℕ) :
    load1lib file (fuel + 1) pos = some [] := by
  rw [load1lib, refused]

/-! ### What reading back means -/

/-- `ar` finds the names, the sizes and the contents that were written. -/
def ReadBack (files : List File) : Prop :=
  (members (archive files) ((archive files).length + 1) SARMAG).map
      (List.map fun m => (m.1.name, m.1.size, read (archive files) m.2 m.1.size.toNat)) =
    some (files.map fun f => (f.name, (f.content.length : ℤ), f.content))

/-- A relocatable object starts with a header whose first word is `RMAGIC`, 0406. -/
def File.Object (f : File) : Prop := 32 ≤ f.content.length ∧ f.content.take 4 = [6, 1, 0, 0]

/-- `ld` visits the members that were written, under their names and with their contents. -/
def Visited (files : List File) : Prop :=
  (load1lib (archive files) ((archive files).length + 1) SARMAG).map
      (List.map fun m =>
        (m.1.ar_name, read (archive files) (m.2 + ARHDRSZ) m.1.ar_size.toNat)) =
    some (files.map fun f => (f.name, f.content))

instance (files : List File) : Decidable (ReadBack files) :=
  inferInstanceAs (Decidable (_ = _))

instance (files : List File) : Decidable (Visited files) :=
  inferInstanceAs (Decidable (_ = _))

instance (f : File) : Decidable f.Object :=
  inferInstanceAs (Decidable (_ ∧ _))

end Archives
