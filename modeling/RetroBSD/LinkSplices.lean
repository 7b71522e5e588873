import RetroBSD.MemoryWindows

/-!
# Expanding a symbolic link in the path buffer

When `namei` meets a symbolic link it moves the rest of the path inside of its
buffer, to make room for the contents of the link, with `bcopy`. The loops of
`bcopy` run upwards, so a move to a higher address reads again what it has
written as soon as the two places overlap: it repeats the first bytes of the
rest of the path, and the NUL behind them is lost.
-/

namespace LinkSplices

open MemoryWindows

abbrev Memory := ℕ → UInt8

abbrev MAXPATHLEN : ℕ := 256

/-- `*dst++ = *src++`, `k` times, for units of `w` bytes. -/
def moveUnits (w : ℕ) : ℕ → Memory → ℕ → ℕ → Memory
  | 0, mem, _, _ => mem
  | k + 1, mem, dst, src => moveUnits w k (transfer mem dst mem src w) (dst + w) (src + w)

def bcopy (mem : Memory) (src dst nbytes : ℕ) : Memory :=
  if 16 ≤ nbytes ∧ src % 4 = 0 ∧ dst % 4 = 0 then
    -- the loop of four words and the one of single words make the same moves
    let words := nbytes / 4
    moveUnits 1 (nbytes % 4) (moveUnits 4 words mem dst src) (dst + 4 * words) (src + 4 * words)
  else
    moveUnits 1 nbytes mem dst src

/-- A string that is too long for any path counts as `MAXPATHLEN` bytes. -/
def strlen (mem : Memory) (cp : ℕ) : ℕ := (List.range MAXPATHLEN).findIdx fun i => mem (cp + i) = 0

/-- The buffer `path` after the link in the block at `b_addr` is put before the
rest of the path at `cp`. -/
def splice (mem : Memory) (path cp b_addr i_size : ℕ) : Memory :=
  let pathlen := strlen mem cp + 1
  bcopy (bcopy mem cp (path + i_size) pathlen) b_addr path i_size

/-- `path` holds the link, and then the rest of the path with its NUL. -/
structure Spliced (mem after : Memory) (path cp b_addr i_size : ℕ) : Prop where
  link : window after path i_size = window mem b_addr i_size
  rest : window after (path + i_size) (strlen mem cp + 1) = window mem cp (strlen mem cp + 1)

/-- Where the byte `i` of an upward copy comes from: a copy to a higher address
goes around in the bytes between the two places. -/
def origin (src dst i : ℕ) : ℕ := if dst ≤ src then i else i % (dst - src)

def Copied (mem after : Memory) (dst src n : ℕ) : Prop :=
  ∀ a, after a = if dst ≤ a ∧ a < dst + n then mem (src + origin src dst (a - dst)) else mem a

variable {mem m₁ m₂ : Memory} {dst src m n w k i path c b_addr i_size : ℕ}

lemma origin_of_apart (apart : dst ≤ src ∨ src + n ≤ dst) (small : i < n) :
    origin src dst i = i := by
  unfold origin
  split
  · rfl
  · exact Nat.mod_eq_of_lt (by omega)

lemma copied_unit (apart : dst ≤ src ∨ src + w ≤ dst) :
    Copied mem (transfer mem dst mem src w) dst src w := by
  intro a
  unfold transfer
  split
  · rw [origin_of_apart apart (by omega)]
  · rfl

/-- The second of two moves in a row may read what the first one wrote. -/
lemma Copied.append (first : Copied mem m₁ dst src m)
    (second : Copied m₁ m₂ (dst + m) (src + m) n) : Copied mem m₂ dst src (m + n) := by
  intro a
  rw [second]
  by_cases late : dst + m ≤ a ∧ a < dst + m + n
  · rw [if_pos late, if_pos (by omega), first]
    by_cases down : dst ≤ src
    · simp only [origin, down, Nat.add_le_add_iff_right, if_true]
      rw [if_neg (by omega)]
      congr 1
      omega
    · simp only [origin, down, Nat.add_le_add_iff_right, if_false, Nat.add_sub_add_right]
      obtain ⟨j, rfl⟩ : ∃ j, a = dst + m + j := ⟨a - (dst + m), by omega⟩
      obtain ⟨d, positive, rfl⟩ : ∃ d, 0 < d ∧ dst = src + d := ⟨dst - src, by omega, by omega⟩
      have small := Nat.mod_lt j positive
      have turn : (m + j) % d = (m + j % d) % d := by rw [Nat.add_mod_mod]
      rw [Nat.add_sub_cancel_left, Nat.add_sub_cancel_left,
        show src + d + m + j - (src + d) = m + j by omega, turn]
      split
      · -- the byte was written by the first move, one turn earlier
        rw [show src + m + j % d - (src + d) = m + j % d - d by omega,
          Nat.mod_eq_sub_mod (a := m + j % d) (by omega)]
      · rw [Nat.mod_eq_of_lt (show m + j % d < d by omega), Nat.add_assoc]
  · rw [if_neg late, first]
    congr 1
    exact propext ⟨fun early => by omega, fun whole => by omega⟩

lemma copied_moveUnits (k : ℕ) (mem : Memory) (apart : dst ≤ src ∨ src + w ≤ dst) :
    Copied mem (moveUnits w k mem dst src) dst src (w * k) := by
  induction k generalizing mem dst src with
  | zero =>
    intro a
    exact (if_neg (by omega)).symm
  | succ k ih =>
    rw [Nat.mul_succ, Nat.add_comm (w * k)]
    exact (copied_unit apart).append (ih _ (by omega))

/-- Words are moved only between places that are a whole number of words apart,
so the width of a move makes no difference. -/
lemma copied_bcopy : Copied mem (bcopy mem src dst n) dst src n := by
  have bytes {mem : Memory} {dst src n} : Copied mem (moveUnits 1 n mem dst src) dst src n := by
    have copied := copied_moveUnits n mem (show dst ≤ src ∨ src + 1 ≤ dst by omega)
    rwa [Nat.one_mul] at copied
  unfold bcopy
  split
  · have words := copied_moveUnits (n / 4) mem (show dst ≤ src ∨ src + 4 ≤ dst by omega)
    have whole := words.append (bytes (n := n % 4))
    rwa [Nat.div_add_mod] at whole
  · exact bytes

lemma bcopy_outside (outside : i < dst ∨ dst + n ≤ i) : bcopy mem src dst n i = mem i := by
  rw [copied_bcopy, if_neg (by omega)]

lemma bcopy_inside (inside : i < n) :
    bcopy mem src dst n (dst + i) = mem (src + origin src dst i) := by
  rw [copied_bcopy, if_pos (by omega), Nat.add_sub_cancel_left]

lemma strlen_zero (mem : Memory) (c : ℕ) (fits : strlen mem c < MAXPATHLEN) : mem (c + strlen mem c) = 0 := by
  have found := List.findIdx_getElem (w := Nat.lt_of_lt_of_eq fits List.length_range.symm)
  rwa [List.getElem_range, decide_eq_true_eq] at found

lemma strlen_before (before : i < strlen mem c) : mem (c + i) ≠ 0 := by
  have passed := List.not_of_lt_findIdx before
  simpa using passed

/-- The splice is right unless the rest of the path is moved up by less than
its own length. -/
theorem splice_spliced_iff (fits : i_size + (strlen mem (path + c) + 1) < MAXPATHLEN - 1)
    (apart : b_addr + i_size ≤ path ∨ path + MAXPATHLEN ≤ b_addr) :
    Spliced mem (splice mem path (path + c) b_addr i_size) path (path + c) b_addr i_size ↔
      i_size ≤ c ∨ c + strlen mem (path + c) + 1 ≤ i_size := by
  simp only [MAXPATHLEN] at fits apart
  have rest {i} (small : i < strlen mem (path + c) + 1) :
      splice mem path (path + c) b_addr i_size (path + i_size + i) =
        mem (path + c + origin (path + c) (path + i_size) i) := by
    unfold splice
    rw [bcopy_outside (by omega), bcopy_inside small]
  constructor
  · intro spliced
    by_contra overlap
    -- the NUL is the one byte that the others of the path cannot stand for
    have last := window_eq_iff.mp spliced.rest _ (Nat.lt_succ_self _)
    rw [rest (Nat.lt_succ_self _), strlen_zero mem _ (by simp only [MAXPATHLEN]; omega), origin,
      if_neg (by omega)] at last
    have turn := Nat.mod_lt (strlen mem (path + c)) (show 0 < path + i_size - (path + c) by omega)
    exact strlen_before (by omega) last
  · intro room
    constructor
    · apply window_eq_iff.mpr
      intro i small
      unfold splice
      rw [bcopy_inside small, origin_of_apart (by omega) small, bcopy_outside (by omega)]
    · apply window_eq_iff.mpr
      intro i small
      rw [rest small, origin_of_apart (by omega) small]

/-- The path `a/bcd` at 0 and, behind the buffer, the text `xyz`. -/
def linked : Memory := fun a =>
  if a < 5 then [97, 47, 98, 99, 100].getD a 0 else if a < 256 then 0 else [120, 121, 122].getD (a - 256) 0

/-- A link `a` to `x`: the rest of the path stays where it is. -/
theorem splice_spliced_iff_short : Spliced linked (splice linked 0 (0 + 1) 256 1) 0 (0 + 1) 256 1 :=
  (splice_spliced_iff (by decide) (by decide)).mpr (.inl (Nat.le_refl 1))

/-- A link `a` to `xyz`: the path becomes `xyz/b/b/`. -/
theorem splice_loses_end : 3 + (strlen linked 1 + 1) < MAXPATHLEN - 1 ∧
    window (splice linked 0 1 256 3) 0 8 = [120, 121, 122, 47, 98, 47, 98, 47] ∧
    ¬ Spliced linked (splice linked 0 1 256 3) 0 1 256 3 := by
  refine ⟨by decide, by decide, fun spliced => ?_⟩
  exact absurd spliced.rest (by decide)

end LinkSplices
