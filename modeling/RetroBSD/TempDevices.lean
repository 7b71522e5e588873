import RetroBSD.SwapSpace

/-!
# Transfers of the temp devices

`swcread`, `swcwrite` and `swstrategy` as the calls of `swap` that they make,
with the machine's 32-bit numbers: an offset is signed, a size in bytes may
wrap, and a block number is added to the start of the allocation modulo
`2 ^ 32`. The allocation of a unit is therefore the blocks `tdstart + k` for
`k` below `tdsize`, counted in the same way.
-/

namespace TempDevices

open SwapSpace (NTMP)
open List

abbrev Word := BitVec 32

structure Temps where
  tdstart : Fin NTMP → Word
  tdsize : Fin NTMP → Word

structure SwapCall where
  blkno : Word
  count : Word
  write : Bool
  deriving DecidableEq

abbrev DEV_BSIZE : Word := 1024

/-- The loop of `swcread` and `swcwrite`; `n` bounds its rounds. -/
def transfers (start size : Word) (write : Bool) : ℕ → (block rlen rsize : Word) → List SwapCall
  | 0, _, _, _ => []
  | n + 1, block, rlen, rsize =>
    if 0 < rlen ∧ block < size then
      ⟨start + block, DEV_BSIZE, write⟩ ::
        transfers start size write n (block + 1) (rlen - rsize)
          (if rlen - rsize ≥ DEV_BSIZE then DEV_BSIZE else rlen - rsize)
    else []

/-- What `swcread` and `swcwrite` share. The loop ends when `block` reaches the size. -/
def swcrw (write : Bool) (t : Temps) (unit : ℕ) (uio_offset iov_len : Word) : List SwapCall :=
  if h : unit < NTMP then
    let start := t.tdstart ⟨unit, h⟩
    let size := t.tdsize ⟨unit, h⟩
    if start = 0 then []
    else if uio_offset ≥ size <<< 10 then []
    else
      let block := uio_offset.sshiftRight 10
      let boff := uio_offset - block <<< 10
      transfers start size write (size.toNat - block.toNat) block iov_len (DEV_BSIZE - boff)
  else []

def swcread := swcrw false
def swcwrite := swcrw true

structure Buf where
  b_blkno : Word
  b_bcount : Word
  isRead : Bool

/-- `swstrategy`. Requests for minor device 64 go to the swap device and make no call of `swap`. -/
def swstrategy (t : Temps) (unit : ℕ) (bp : Buf) : List SwapCall :=
  if h : unit < NTMP then
    if t.tdstart ⟨unit, h⟩ = 0 then []
    else if bp.b_blkno > t.tdsize ⟨unit, h⟩ then []
    else [⟨t.tdstart ⟨unit, h⟩ + bp.b_blkno, bp.b_bcount, !bp.isRead⟩]
  else []

inductive Request where
  | read (uio_offset iov_len : Word)
  | write (uio_offset iov_len : Word)
  | block (bp : Buf)

def calls (t : Temps) (unit : ℕ) : Request → List SwapCall
  | .read uio_offset iov_len => swcread t unit uio_offset iov_len
  | .write uio_offset iov_len => swcwrite t unit uio_offset iov_len
  | .block bp => swstrategy t unit bp

def blocks (count : Word) : ℕ := (count.toNat + 1023) / 1024

/-- All blocks of a call belong to the allocation of the unit. -/
def Within (start size : Word) (c : SwapCall) : Prop :=
  ∀ i < blocks c.count, ∃ k : Word, k < size ∧ c.blkno + BitVec.ofNat 32 i = start + k

/-- What `swstrategy` does not look at: where a request ends. -/
def Ends (t : Temps) (u : Fin NTMP) : Request → Prop
  | .block bp => t.tdstart u = 0 ∨ t.tdsize u < bp.b_blkno ∨ bp.b_bcount = 0 ∨
      bp.b_blkno.toNat + blocks bp.b_bcount ≤ (t.tdsize u).toNat
  | _ => True

lemma transfers_within (start size : Word) (write : Bool) (n : ℕ) (block rlen rsize : Word) :
    ∀ c ∈ transfers start size write n block rlen rsize, Within start size c := by
  induction n generalizing block rlen rsize with
  | zero => exact fun c member => absurd member not_mem_nil
  | succ n ih =>
    intro c member
    unfold transfers at member
    split at member
    · rename_i goes
      rcases mem_cons.mp member with rfl | later
      · intro i few
        have zero : i = 0 := by
          have one : blocks DEV_BSIZE = 1 := by decide
          rw [one] at few
          omega
        subst zero
        exact ⟨block, goes.2, by simp⟩
      · exact ih _ _ _ c later
    · exact absurd member not_mem_nil

/-- Reads and writes stay inside of the allocation. -/
lemma swcrw_within (write : Bool) (t : Temps) (u : Fin NTMP) (uio_offset iov_len : Word) :
    ∀ c ∈ swcrw write t u uio_offset iov_len, Within (t.tdstart u) (t.tdsize u) c := by
  intro c member
  unfold swcrw at member
  rw [dif_pos u.isLt] at member
  dsimp only at member
  split_ifs at member
  · exact absurd member not_mem_nil
  · exact absurd member not_mem_nil
  · exact transfers_within _ _ _ _ _ _ _ c member

/-- A request from block `b` on is within an allocation of `size` blocks if it ends there. -/
lemma within_iff (start size b count : Word) (write : Bool) (first : ¬ size < b) :
    Within start size ⟨start + b, count, write⟩ ↔
      count = 0 ∨ b.toNat + blocks count ≤ size.toNat := by
  have place : ∀ i : ℕ, ∀ k : Word, start + b + BitVec.ofNat 32 i = start + k ↔
      b + BitVec.ofNat 32 i = k := by
    intro i k
    rw [BitVec.add_assoc, BitVec.add_right_inj]
  have begins : b.toNat ≤ size.toNat := by
    rw [BitVec.lt_def] at first
    omega
  have sum : ∀ i, b.toNat + i < 2 ^ 32 → (b + BitVec.ofNat 32 i).toNat = b.toNat + i := by
    intro i small
    rw [BitVec.toNat_add, BitVec.toNat_ofNat, Nat.add_mod_mod, Nat.mod_eq_of_lt small]
  constructor
  · intro within
    by_contra neither
    -- the block behind the allocation is one of the request
    obtain ⟨k, inside, eq⟩ := within (size.toNat - b.toNat) (by dsimp only; omega)
    have last := sum (size.toNat - b.toNat) (by omega)
    rw [(place _ k).mp eq] at last
    rw [BitVec.lt_def] at inside
    omega
  · rintro (none | ends) i few
    · rw [none] at few
      exact absurd few (by simp [blocks])
    · dsimp only at few
      refine ⟨b + BitVec.ofNat 32 i, ?_, (place i _).mpr rfl⟩
      rw [BitVec.lt_def, sum i (by omega)]
      omega

lemma swstrategy_within (t : Temps) (u : Fin NTMP) (bp : Buf) :
    (∀ c ∈ swstrategy t u bp, Within (t.tdstart u) (t.tdsize u) c) ↔ Ends t u (.block bp) := by
  unfold swstrategy Ends
  rw [dif_pos u.isLt]
  split_ifs with unused past
  · exact ⟨fun _ => .inl unused, fun _ => by simp⟩
  · exact ⟨fun _ => .inr (.inl past), fun _ => by simp⟩
  · simp only [mem_singleton, forall_eq]
    refine (within_iff _ _ _ _ _ past).trans ⟨fun ends => .inr (.inr ends), ?_⟩
    rintro (is | is | ends)
    · exact absurd is unused
    · exact absurd is past
    · exact ends

/-- The blocks that a request passes to `swap` lie in the allocation of the unit if and only if it
is a read or a write, or makes no transfer, or ends inside of the allocation. -/
theorem temp_isolation (t : Temps) (u : Fin NTMP) (r : Request) :
    (∀ c ∈ calls t u r, Within (t.tdstart u) (t.tdsize u) c) ↔ Ends t u r := by
  cases r with
  | read uio_offset iov_len =>
    exact ⟨fun _ => trivial, fun _ => swcrw_within false t u uio_offset iov_len⟩
  | write uio_offset iov_len =>
    exact ⟨fun _ => trivial, fun _ => swcrw_within true t u uio_offset iov_len⟩
  | block bp => exact swstrategy_within t u bp

/-- A request of one block for the block behind the allocation. -/
theorem block_behind_allocation :
    swstrategy ⟨fun _ => 1, fun _ => 4⟩ 0 ⟨4, 1024, false⟩ = [⟨5, 1024, true⟩] ∧
      ¬ Within 1 4 ⟨5, 1024, true⟩ := by
  refine ⟨rfl, fun within => ?_⟩
  have ends := (within_iff 1 4 4 1024 true (by decide)).mp within
  revert ends
  decide

end TempDevices
