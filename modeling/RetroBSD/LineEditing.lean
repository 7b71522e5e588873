import RetroBSD.Clists

/-!
# Line editing

What `ttyinput` does to the raw queue of a terminal in cooked mode. A queue is the list of
its characters, and blocks for it do not run out. Echo is left out, except that it
decides which of two ways a line is killed.
-/

namespace LineEditing

open Clists (Byte)
open Runs

abbrev TTYHOG : ℕ := 255
abbrev VDISABLE : Byte := 0xff

structure Tty where
  t_erase : Byte
  t_kill : Byte
  t_werasc : Byte
  /-- `t_flags & PASS8`. -/
  pass8 : Bool
  /-- The characters that are line delimiters or have effects other than editing. -/
  special : Byte → Bool
  /-- `t_canq.c_cc`. -/
  canq : ℕ

def CCEQ (val c : Byte) : Bool := c = val && val ≠ VDISABLE

def blank (c : Byte) : Bool := c = 0x20 || c = 0x09

/-- `while (getc (q) > 0)`. -/
def drain : List Byte → List Byte
  | [] => []
  | c :: q => if c ≠ 0 then drain q else q

/-- The second loop of a word erase, on the queue from its end: the character that stops
it is put back. -/
def erasenb : List Byte → List Byte
  | [] => []
  | c :: q => if blank c then c :: q else erasenb q

/-- The first loop, on the queue from its end. -/
def werase : List Byte → List Byte
  | [] => []
  | c :: q => if blank c then werase q else erasenb q

namespace Tty

variable (tp : Tty)

def strip (c : Byte) : Byte := if tp.pass8 then c else c &&& 0x7f

/-- `crt` if the line is rubbed out character by character when it is killed. -/
def ttyinput (rawq : List Byte) (c : Byte) (crt : Bool) : Option (List Byte) :=
  let c := tp.strip c
  if tp.special c then none
  else if CCEQ tp.t_erase c || CCEQ 0x08 c then some rawq.dropLast
  else if CCEQ tp.t_kill c then some (if crt then [] else drain rawq)
  else if CCEQ tp.t_werasc c then some (werase rawq.reverse).reverse
  else if rawq.length + tp.canq ≥ TTYHOG then some rawq
  else some (rawq ++ [c])

/-- The reference editor. -/
def edit (line : List Byte) (c : Byte) : List Byte :=
  let c := tp.strip c
  if CCEQ tp.t_erase c || CCEQ 0x08 c then line.dropLast
  else if CCEQ tp.t_kill c then []
  else if CCEQ tp.t_werasc c then ((line.reverse.dropWhile blank).dropWhile (!blank ·)).reverse
  else line ++ [c]

def Step (rawq : List Byte) (a : Byte × Bool) (rawq' : List Byte) : Prop :=
  tp.ttyinput rawq a.1 a.2 = some rawq'

/-- There is room, and no line is killed by `getc` with a null character before its end. -/
abbrev Sound (rawq : List Byte) (a : Byte × Bool) : Prop :=
  rawq.length + tp.canq < TTYHOG ∧ (CCEQ tp.t_kill (tp.strip a.1) → a.2 ∨ 0 ∉ rawq.dropLast)

end Tty

lemma drain_eq_nil {q : List Byte} (free : 0 ∉ q.dropLast) : drain q = [] := by
  induction q with
  | nil => rfl
  | cons c q ih =>
    cases q with
    | nil => simp [drain]
    | cons d q =>
      rw [List.dropLast_cons_cons, List.mem_cons, not_or] at free
      rw [drain, if_pos (Ne.symm free.1)]
      exact ih free.2

lemma erasenb_eq (q : List Byte) : erasenb q = q.dropWhile (!blank ·) := by
  induction q with
  | nil => rfl
  | cons c q ih => cases stops : blank c <;> simp [erasenb, stops, ih]

lemma werase_eq (q : List Byte) : werase q = (q.dropWhile blank).dropWhile (!blank ·) := by
  induction q with
  | nil => rfl
  | cons c q ih => cases skips : blank c <;> simp [werase, skips, ih, erasenb_eq]

lemma step_edit {tp : Tty} {rawq rawq' : List Byte} {a : Byte × Bool} (sound : tp.Sound rawq a)
    (step : tp.Step rawq a rawq') : rawq' = tp.edit rawq a.1 := by
  simp only [Tty.Step, Tty.ttyinput] at step
  split_ifs at step with special erase kill crt werase full <;> cases step
  · simp only [Tty.edit, if_pos erase]
  · simp only [Tty.edit, if_neg erase, if_pos kill]
  · simp only [Tty.edit, if_neg erase, if_pos kill]
    exact drain_eq_nil ((sound.2 kill).resolve_left crt)
  · simp only [Tty.edit, if_neg erase, if_neg kill, if_pos werase, werase_eq]
  · exact absurd sound.1 (not_lt.mpr full)
  · simp only [Tty.edit, if_neg erase, if_neg kill, if_neg werase]

/-- Erase with DEL, kill with `^U`, erase a word with `^W`. -/
def sampleTty : Tty := ⟨0x7f, 0x15, 0x17, false, fun _ => false, 0⟩

end LineEditing
