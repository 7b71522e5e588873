import RetroBSD.LinkMoves

/-!
# The relocation areas of an object file

`makereloc` writes the records of a segment and fills the last word with zero bytes. `ld` reads
one record for every word, and takes these bytes for records of the strings. What the second
pass computes for a word is given.
-/

namespace Assembler

open ObjectFiles List
open LinkEditor (readBack fgetrel_fputrel)

/-- What is known after the second pass, which makes a word of every four bytes begun. -/
structure Parts where
  count : Segment → ℕ
  words : Segment → List (ℕ × Reloc)
  stab : List Nlist
  rounds : ∀ g, g ≠ .bss → (words g).length = (count g + 3) / WORDSZ

def fputword (w : ℕ) : List UInt8 := (cells w none).map Prod.fst

def fputrels (ws : List (ℕ × Reloc)) : List UInt8 := ws.flatMap fun w => fputrel w.2

def makereloc (ws : List (ℕ × Reloc)) : List UInt8 :=
  fputrels ws ++ replicate ((WORDSZ - (fputrels ws).length % WORDSZ) % WORDSZ) 0

namespace Parts

variable (o : Parts)

def reltext : List UInt8 := makereloc (o.words .text)
def reldata : List UInt8 := makereloc (o.words .data) ++ makereloc (o.words .strng)
def a_data : ℕ := o.count .data + o.count .strng

/-- `stlength` and `stalign` as `middle` leaves them. -/
def stlength : ℕ := (o.stab.map fun s => 2 + WORDSZ + s.n_name.length).sum
def stalign : ℕ := WORDSZ - o.stlength % WORDSZ

/-- `makesymtab`; the bit `N_LOC` is not written. -/
def makesymtab : List UInt8 :=
  (o.stab.flatMap fun s => LinkEditor.fputsym { s with n_type := { s.n_type with loc := false } }) ++
    replicate o.stalign 0

def makeheader : List UInt8 :=
  [0o406, o.count .text, o.a_data, o.count .bss, o.reltext.length, o.reldata.length,
    o.stlength + o.stalign, 0].flatMap fputword

def file : List UInt8 :=
  o.makeheader ++ (o.words .text ++ o.words .data ++ o.words .strng).flatMap (fputword ·.1) ++
    o.reltext ++ o.reldata ++ o.makesymtab

end Parts

/-- The records that `relocate` of `ld` reads for `n` words. -/
def getrels : ℕ → List UInt8 → Option (List Reloc)
  | 0, _ => some []
  | n + 1, file => (fgetrel file).bind fun r => (getrels n r.2).map (r.1 :: ·)

lemma getrels_put (ws : List (ℕ × Reloc)) (rest : List UInt8) :
    getrels ws.length (fputrels ws ++ rest) = some (ws.map (readBack ·.2)) := by
  induction ws with
  | nil => rfl
  | cons w ws ih =>
    rw [length_cons, fputrels, flatMap_cons, append_assoc, getrels, fgetrel_fputrel]
    exact congrArg (Option.map _) ih

lemma makesymtab_length (o : Parts) : o.makesymtab.length = o.stlength + o.stalign := by
  rw [Parts.makesymtab, length_append, length_replicate, length_flatMap]
  congr 3
  funext s
  simp [LinkEditor.fputsym, WORDSZ]
  omega

/-- One word of data and one of the strings, with their records. -/
def twoWords (data strng : Reloc) : Parts where
  count g := if g = .data ∨ g = .strng then 4 else 0
  words
    | .data => [(0, data)]
    | .strng => [(0, strng)]
    | _ => []
  stab := []
  rounds g _ := by cases g <;> rfl

end Assembler
