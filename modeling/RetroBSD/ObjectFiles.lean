import RetroBSD.Assembler

/-!
# Object files of the assembler and the link editor

The types of symbols and the kinds of relocation records, as `as` writes and `ld` reads them.
Words and addresses are numbers below 2^32, and the fields of a word are found by division.
-/

namespace ObjectFiles

open Assembler (Reloc)

abbrev WORDSZ : ℕ := 4

abbrev WORDS : ℕ := 2 ^ 32

def sub (a b : ℕ) : ℕ := (a + (WORDS - b % WORDS)) % WORDS

def setLow (w x : ℕ) : ℕ := w / 2 ^ 16 * 2 ^ 16 + x % 2 ^ 16

def setTarget (w x : ℕ) : ℕ := w / 2 ^ 26 * 2 ^ 26 + x % 2 ^ 26

/-! ### Relocation records -/

/-- The segment bits of a record; `strng` stands in files between the passes of `as` only. -/
inductive RSegment where
  | abs
  | text
  | data
  | bss
  | strng
  | ext
deriving DecidableEq

inductive RFormat where
  | byte16
  | byte32
  | high16
  | high16s
  | word16
  | word26
  | none
deriving DecidableEq

/-- `flags & RSMASK`. -/
def rsegment (flags : UInt8) : RSegment :=
  match flags.toNat / 16 % 8 with
  | 2 => .text
  | 3 => .data
  | 4 => .bss
  | 6 => .strng
  | 7 => .ext
  | _ => .abs

/-- `flags & RFMASK`. -/
def rformat (flags : UInt8) : RFormat :=
  match flags.toNat % 8 with
  | 0 => .byte16
  | 1 => .byte32
  | 2 => .high16
  | 3 => .high16s
  | 4 => .word16
  | 5 => .word26
  | _ => .none

/-- `flags & RGPREL`. -/
def gprel (flags : UInt8) : Bool := flags.toNat / 8 % 2 == 1

def RSegment.bits : RSegment → ℕ
  | .abs => 0
  | .text => 2
  | .data => 3
  | .bss => 4
  | .strng => 6
  | .ext => 7

def RFormat.bits : RFormat → ℕ
  | .byte16 => 0
  | .byte32 => 1
  | .high16 => 2
  | .high16s => 3
  | .word16 => 4
  | .word26 => 5
  | .none => 6

/-- The flags of a record that is not relative to the global pointer. -/
def rflags (segment : RSegment) (format : RFormat) : UInt8 :=
  UInt8.ofNat (segment.bits * 16 + format.bits)

/-- `flags & (RFMASK | RGPREL) | segment`. -/
def retype (flags : UInt8) (segment : RSegment) : UInt8 :=
  UInt8.ofNat (segment.bits * 16 + flags.toNat % 16)

/-- `flags & ~RSMASK | segment`. -/
def resegment (flags : UInt8) (segment : RSegment) : UInt8 :=
  UInt8.ofNat (flags.toNat / 128 * 128 + segment.bits * 16 + flags.toNat % 16)

/-- `flags & ~RGPREL`. -/
def ungprel (flags : UInt8) : UInt8 := UInt8.ofNat (flags.toNat / 16 * 16 + flags.toNat % 8)

/-! ### Symbols -/

/-- `n_type & N_TYPE`. -/
inductive Kind where
  | undf
  | abs
  | text
  | data
  | bss
  | strng
  | comm
  | fn
  | other (n : ℕ)
deriving DecidableEq

/-- The type of a symbol: what it is in, and the bits `N_EXT`, `N_WEAK` and `N_LOC`. -/
structure NType where
  kind : Kind
  ext : Bool
  weak : Bool
  loc : Bool
deriving DecidableEq

/-- `N_EXT+N_UNDF`, `N_EXT+N_TEXT` and so on. -/
def extern_ (kind : Kind) : NType := ⟨kind, true, false, false⟩

structure Nlist where
  n_name : List UInt8
  n_type : NType
  n_value : ℕ
deriving DecidableEq

end ObjectFiles
