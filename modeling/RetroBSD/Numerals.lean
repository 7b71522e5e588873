import Mathlib.Tactic

/-!
# Numbers as text

Numbers printed in a base of at most ten, left-justified in a field of blanks, and
read back the way `strtol` reads: leading white space is skipped, a sign is taken,
and reading stops at the first byte that is no digit.
-/

namespace Numerals

open List

abbrev SPACE : UInt8 := 32
abbrev MINUS : UInt8 := 45
abbrev PLUS : UInt8 := 43

def digitByte (d : ℕ) : UInt8 := UInt8.ofNat (48 + d)

/-- The digits of `n`, most significant first; zero prints as one digit. -/
def numeral (base n : ℕ) : List UInt8 :=
  if n = 0 then [digitByte 0] else (Nat.digits base n).reverse.map digitByte

/-- `%-wd` and `%-ws`: `s` and then blanks up to the width; a longer text is not cut. -/
def field (w : ℕ) (s : List UInt8) : List UInt8 :=
  s ++ List.replicate (w - s.length) SPACE

def digit (base : ℕ) (c : UInt8) : Option ℕ :=
  if 48 ≤ c.toNat ∧ c.toNat < 48 + base then some (c.toNat - 48) else none

/-- Reading digits from the left until a byte is none. -/
def scan (base : ℕ) : ℕ → List UInt8 → ℕ
  | acc, [] => acc
  | acc, c :: cs =>
    match digit base c with
    | some d => scan base (acc * base + d) cs
    | none => acc

def isspace (c : UInt8) : Bool := c == SPACE || (9 ≤ c && c ≤ 13)

def strtol (base : ℕ) (s : List UInt8) : ℤ :=
  match s.dropWhile isspace with
  | c :: cs =>
    if c = MINUS then -(scan base 0 cs)
    else if c = PLUS then scan base 0 cs
    else scan base 0 (c :: cs)
  | [] => 0

variable {base : ℕ}

variable {rest : List UInt8} {d : ℕ}

lemma digitByte_toNat (h : d < 10) : (digitByte d).toNat = 48 + d := by
  simp only [digitByte, UInt8.toNat_ofNat']
  omega

lemma digit_digitByte (ten : base ≤ 10) (h : d < base) : digit base (digitByte d) = some d := by
  have value := digitByte_toNat (h.trans_le ten)
  simp only [digit]
  rw [if_pos ⟨by omega, by omega⟩]
  congr 1
  omega

/-- The text ends, or goes on with a byte that is no digit. -/
def Stops (base : ℕ) (rest : List UInt8) : Prop := ∀ c ∈ rest.head?, digit base c = none

lemma stops_space (rest : List UInt8) : Stops base (SPACE :: rest) := by
  intro c hc
  cases Option.some.inj hc
  apply if_neg
  rintro ⟨low, -⟩
  exact absurd low (by decide)

lemma stops_spaces (k : ℕ) : Stops base (List.replicate k SPACE) := by
  cases k with
  | zero => exact fun c hc => nomatch hc
  | succ k => exact stops_space _

lemma scan_cons {c : UInt8} (first : digit base c = some d) (acc : ℕ) (cs : List UInt8) :
    scan base acc (c :: cs) = scan base (acc * base + d) cs := by
  rw [scan, first]

/-- Reading the digits of a number, in front of anything. -/
lemma scan_digits (ten : base ≤ 10) (ds : List ℕ) (small : ∀ d ∈ ds, d < base) (acc : ℕ)
    (rest : List UInt8) : scan base acc (ds.reverse.map digitByte ++ rest) =
      scan base (acc * base ^ ds.length + Nat.ofDigits base ds) rest := by
  induction ds generalizing rest with
  | nil => simp
  | cons d ds ih =>
    have tail : ∀ e ∈ ds, e < base := fun e he => small e (mem_cons_of_mem d he)
    have head : d < base := small d mem_cons_self
    rw [reverse_cons, map_append, append_assoc, ih tail]
    rw [map_singleton, singleton_append, scan_cons (digit_digitByte ten head), length_cons, Nat.ofDigits_cons]
    congr 1
    ring

lemma scan_stops (stops : Stops base rest) (acc : ℕ) : scan base acc rest = acc := by
  cases rest with
  | nil => rfl
  | cons c cs => simp [scan, stops c rfl]

lemma scan_numeral (two : 1 < base) (ten : base ≤ 10) (n : ℕ)
    (stops : Stops base rest) : scan base 0 (numeral base n ++ rest) = n := by
  rw [numeral]
  split
  · rename_i zero
    have first := digit_digitByte ten (show 0 < base by omega)
    rw [singleton_append, scan_cons first, scan_stops stops]
    omega
  · have small : ∀ d ∈ Nat.digits base n, d < base := fun d hd => Nat.digits_lt_base two hd
    rw [scan_digits ten _ small, scan_stops stops, Nat.ofDigits_digits]
    omega

lemma numeral_head (two : 1 < base) (ten : base ≤ 10) (n : ℕ) :
    ∃ d < base, ∃ ds, numeral base n = digitByte d :: ds := by
  rw [numeral]
  split
  · exact ⟨0, by omega, [], rfl⟩
  · rename_i pos
    have small : ∀ d ∈ (Nat.digits base n).reverse, d < base := by
      intro d hd
      exact Nat.digits_lt_base two (mem_reverse.mp hd)
    cases shape : (Nat.digits base n).reverse with
    | nil =>
      rw [reverse_eq_nil_iff, Nat.digits_eq_nil_iff_eq_zero] at shape
      exact absurd shape pos
    | cons d ds =>
      rw [shape] at small
      exact ⟨d, small d mem_cons_self, ds.map digitByte, rfl⟩

lemma isspace_digitByte (h : d < 10) : isspace (digitByte d) = false := by
  have value := digitByte_toNat h
  simp only [isspace, Bool.or_eq_false_iff, beq_eq_false_iff_ne, ne_eq,
    Bool.and_eq_false_iff, decide_eq_false_iff_not, UInt8.le_iff_toNat_le, ← UInt8.toNat_inj, value]
  constructor
  · intro same
    change 48 + d = 32 at same
    omega
  · right
    change ¬ 48 + d ≤ 13
    omega

lemma strtol_numeral (two : 1 < base) (ten : base ≤ 10) (n : ℕ)
    (stops : Stops base rest) : strtol base (numeral base n ++ rest) = n := by
  have whole := scan_numeral two ten n stops
  obtain ⟨d, small, ds, shape⟩ := numeral_head two ten n
  have value := digitByte_toNat (small.trans_le ten)
  have sign : ∀ c : UInt8, c.toNat < 48 → digitByte d ≠ c := by
    intro c low same
    rw [same] at value
    omega
  rw [shape, cons_append] at whole ⊢
  rw [strtol, dropWhile_cons_of_neg (by rw [isspace_digitByte (small.trans_le ten)]; decide)]
  simp [sign MINUS (by decide), sign PLUS (by decide), whole]

/-- A number left-justified in a field is read back. -/
lemma strtol_field (two : 1 < base) (ten : base ≤ 10) (w n : ℕ) :
    strtol base (field w (numeral base n)) = n :=
  strtol_numeral two ten n (stops_spaces _)

/-- The same where the reader runs on past the end of a field with a blank in it. -/
lemma strtol_field_append (two : 1 < base) (ten : base ≤ 10) {w n : ℕ}
    (room : (numeral base n).length < w) (rest : List UInt8) :
    strtol base (field w (numeral base n) ++ rest) = n := by
  obtain ⟨k, hk⟩ : ∃ k, w - (numeral base n).length = k + 1 := ⟨_, (Nat.succ_pred (by omega)).symm⟩
  rw [field, hk, append_assoc, replicate_succ]
  exact strtol_numeral two ten n (stops_space _)

lemma numeral_length {n k : ℕ} (two : 1 < base) (some_digit : 0 < k) (h : n < base ^ k) :
    (numeral base n).length ≤ k := by
  rw [numeral]
  split
  · exact some_digit
  · rw [length_map, length_reverse]
    exact Nat.digits_length_le_iff two n |>.mpr h

lemma field_length {w : ℕ} {s : List UInt8} (h : s.length ≤ w) : (field w s).length = w := by
  rw [field, length_append, length_replicate]
  omega

end Numerals
