import Mathlib.Data.BitVec
import RetroBSD.ImageLayout

/-!
# Kernel access to user memory

`copyin` and `copyout` test the two ends of a range, modulo 2^32, and `uiomove`
tests nothing. The model keeps the ranges of user memory that a system call
touches at addresses its arguments supply. A file or a device takes the bytes of
a transfer through `uiomove`, in pieces of sizes of its own; the bytes moved and
the kernel's side of a copy are left out.
-/

namespace UserMemory

open ImageLayout (Word USER_DATA_START USER_DATA_END)
open List

abbrev USER_FLASH_START : Word := 0x9d030000
abbrev USER_FLASH_END : Word := 0x9d080000
abbrev NOFILE : Word := 30

inductive Errno where
  | EFAULT
  | EINVAL

/-- Returns false if a user address is valid: in flash memory, or in RAM. -/
def baduaddr (addr : Word) : Bool :=
  if USER_FLASH_START ≤ addr ∧ addr < USER_FLASH_END then false
  else if USER_DATA_START ≤ addr ∧ addr < USER_DATA_END then false
  else true

/-- The `len` addresses from `base` on, modulo 2^32. -/
structure Range where
  base : Word
  len : Word
  deriving DecidableEq

namespace Range

def Has (r : Range) (a : Word) : Prop := a - r.base < r.len

def last (r : Range) : Word := r.base + r.len - 1

def User (r : Range) : Prop := ∀ a, r.Has a → baduaddr a = false

/-- The ends lie, in order, in one of the two user regions. -/
def Inside (r : Range) : Prop :=
  r.len = 0 ∨ USER_FLASH_START ≤ r.base ∧ r.base ≤ r.last ∧ r.last < USER_FLASH_END ∨
    USER_DATA_START ≤ r.base ∧ r.base ≤ r.last ∧ r.last < USER_DATA_END

/-- The test of `copyin` and `copyout`. -/
def badEnds (r : Range) : Bool := baduaddr r.base || baduaddr r.last

instance (r : Range) (a : Word) : Decidable (r.Has a) := by unfold Has; infer_instance

instance (r : Range) : Decidable r.Inside := by unfold Inside; infer_instance

end Range

lemma baduaddr_eq_false (a : Word) : baduaddr a = false ↔
    (USER_FLASH_START ≤ a ∧ a < USER_FLASH_END) ∨ (USER_DATA_START ≤ a ∧ a < USER_DATA_END) := by
  unfold baduaddr
  split_ifs with flash data
  · exact iff_of_true rfl (.inl flash)
  · exact iff_of_true rfl (.inr data)
  · exact iff_of_false (by decide) (not_or.mpr ⟨flash, data⟩)

namespace Range

variable {r : Range}

lemma user_of_inside (inside : r.Inside) : r.User := by
  intro a has
  unfold Has at has
  rw [baduaddr_eq_false]
  rcases inside with empty | flash | data
  · bv_omega
  · left
    unfold last at flash
    bv_omega
  · right
    unfold last at data
    bv_omega

/-- A range that is not inside one region reaches the end of the region its
first byte is in. -/
lemma inside_of_user (user : r.User) : r.Inside := by
  by_contra outside
  unfold Inside last at outside
  have first := user r.base
  have flash := user USER_FLASH_END
  have data := user USER_DATA_END
  unfold Has at first flash data
  rw [baduaddr_eq_false] at first flash data
  bv_omega

lemma user_iff (r : Range) : r.User ↔ r.Inside := ⟨inside_of_user, user_of_inside⟩

lemma User.take (user : r.User) {cnt : Word} (small : cnt ≤ r.len) :
    (Range.mk r.base cnt).User := by
  intro a has
  apply user
  unfold Has at has ⊢
  bv_omega

lemma User.drop (user : r.User) {cnt : Word} (small : cnt ≤ r.len) :
    (Range.mk (r.base + cnt) (r.len - cnt)).User := by
  intro a has
  apply user
  unfold Has at has ⊢
  bv_omega

/-- A short range with good ends cannot reach from one region to the other. -/
lemma inside_of_short (short : r.len ≤ 128) (good : r.badEnds = false) : r.Inside := by
  unfold badEnds at good
  rw [Bool.or_eq_false_iff, baduaddr_eq_false, baduaddr_eq_false] at good
  unfold Inside
  unfold last at good ⊢
  bv_omega

lemma user_of_empty (empty : r.len = 0) : r.User := user_of_inside (.inl empty)

end Range

/-! ### Copies -/

/-- A copy between the kernel and a user range, refused at a bad end. -/
def copy (addr nbytes : Word) : Except Errno Range :=
  if Range.badEnds ⟨addr, nbytes⟩ then .error .EFAULT else .ok ⟨addr, nbytes⟩

def copyin (from_ nbytes : Word) : Except Errno Range := copy from_ nbytes

def copyout (to_ nbytes : Word) : Except Errno Range := copy to_ nbytes

variable {r : Range}

lemma copy_bad (bad : r.badEnds = true) : copy r.base r.len = .error .EFAULT := if_pos bad

lemma copy_good (good : r.badEnds = false) : copy r.base r.len = .ok r :=
  if_neg (Bool.not_eq_true _ ▸ good)

lemma copy_user_iff (p n : Word) : (0 < n → (copy p n).isOk → (Range.mk p n).User) ↔
      Range.badEnds ⟨p, n⟩ ∨ Range.Inside ⟨p, n⟩ := by
  rw [← Range.user_iff]
  unfold copy
  by_cases bad : Range.badEnds ⟨p, n⟩
  · simp [bad, Except.toBool]
  · simp only [bad, Bool.false_eq_true, false_or]
    constructor
    · intro user
      by_cases empty : n = 0
      · exact Range.user_of_empty empty
      · exact user (by bv_omega) rfl
    · intro user _ _
      exact user

/-! ### Transfers through a vector -/

/-- The state of a transfer: the user vectors left and the count of bytes left. -/
structure Uio where
  uio_iov : List Range
  uio_resid : Word

namespace Uio

/-- `rwuio` sets the count to the total of the lengths, modulo 2^32. -/
def rwuio (iov : List Range) : Uio where
  uio_iov := iov
  uio_resid := (iov.map Range.len).sum

/-- The bytes of a vector of the given length that one round of `uiomove` moves. -/
def count (n len : Word) : Word := if len > n then n else len

lemma count_le (n len : Word) : count n len ≤ len := by
  unfold count
  split_ifs <;> bv_omega

variable {n resid : Word}

lemma count_eq_len {len : Word} (more : n - count n len ≠ 0) : count n len = len := by
  unfold count at more ⊢
  split_ifs at more ⊢
  · bv_omega
  · rfl

/-- The loop of `uiomove`: the transfer after a move of `n` bytes, and the ranges
touched. Past the last vector there is nothing the user supplied. -/
def move (n : Word) : List Range → Word → Uio × List Range
  | [], resid => (⟨[], resid⟩, [])
  | iov :: rest, resid =>
    if n = 0 ∨ resid = 0 then (⟨iov :: rest, resid⟩, [])
    else if iov.len = 0 then move n rest resid
    else
      let cnt := count n iov.len
      if n - cnt = 0 ∨ resid - cnt = 0 then
        (⟨⟨iov.base + cnt, iov.len - cnt⟩ :: rest, resid - cnt⟩, [⟨iov.base, cnt⟩])
      else
        -- here the whole vector was moved, and the loop drops it as empty
        let next := move (n - cnt) rest (resid - cnt)
        (next.1, ⟨iov.base, cnt⟩ :: next.2)

def uiomove (n : Word) (uio : Uio) : Uio × List Range := move n uio.uio_iov uio.uio_resid

/-- What a file operation touches that moves pieces of the given sizes. -/
def fo_rw : List Word → Uio → List Range
  | [], _ => []
  | n :: sizes, uio => (uio.uiomove n).2 ++ fo_rw sizes (uio.uiomove n).1

/-- Every vector that the transfer comes to lies in one user region. -/
def Covered : List Range → Word → Prop
  | [], _ => True
  | iov :: rest, resid => resid = 0 ∨ iov.Inside ∧ Covered rest (resid - iov.len)

lemma move_of_stop (stop : n = 0 ∨ resid = 0) (iov : List Range) :
    move n iov resid = (⟨iov, resid⟩, []) := by
  cases iov with
  | nil => rfl
  | cons iov rest => exact if_pos stop

lemma move_of_empty (go : ¬ (n = 0 ∨ resid = 0)) {iov : Range}
    (empty : iov.len = 0) (rest : List Range) : move n (iov :: rest) resid = move n rest resid :=
  (if_neg go).trans (if_pos empty)

/-- A move of the length of the first vector leaves that vector empty. -/
lemma move_len {iov : Range} (go : ¬ (iov.len = 0 ∨ resid = 0))
    (rest : List Range) : move iov.len (iov :: rest) resid =
      (⟨⟨iov.base + iov.len, iov.len - iov.len⟩ :: rest, resid - iov.len⟩, [iov]) := by
  have count_self : count iov.len iov.len = iov.len := ite_self iov.len
  simp only [move, if_neg go, if_neg (not_or.mp go).1, count_self]
  have nothing : iov.len - iov.len = 0 := BitVec.sub_self iov.len
  rw [if_pos (.inl nothing)]

/-- A move stays in the vectors and leaves a transfer that is covered still. -/
lemma move_covered (n : Word) (iov : List Range) (resid : Word) (covered : Covered iov resid) :
    (∀ r ∈ (move n iov resid).2, r.User) ∧
      Covered (move n iov resid).1.uio_iov (move n iov resid).1.uio_resid := by
  induction iov generalizing n resid with
  | nil => simp [move, Covered]
  | cons iov rest ih =>
    by_cases stop : n = 0 ∨ resid = 0
    · rw [move_of_stop stop]
      exact ⟨by simp, covered⟩
    obtain ⟨inside, after⟩ := covered.resolve_left (not_or.mp stop).2
    by_cases empty : iov.len = 0
    · rw [move_of_empty stop empty]
      apply ih
      simpa [empty] using after
    have user := Range.user_of_inside inside
    have small := count_le n iov.len
    simp only [move]
    split_ifs with last
    · refine ⟨by simpa using user.take small, .inr ⟨Range.inside_of_user (user.drop small), ?_⟩⟩
      convert after using 1
      bv_omega
    · have whole := count_eq_len (not_or.mp last).1
      rw [whole]
      obtain ⟨users, next⟩ := ih _ _ after
      exact ⟨forall_mem_cons.mpr ⟨user, users⟩, next⟩

lemma fo_rw_user (sizes : List Word) (uio : Uio) (covered : Covered uio.uio_iov uio.uio_resid) :
    ∀ r ∈ fo_rw sizes uio, r.User := by
  induction sizes generalizing uio with
  | nil => simp [fo_rw]
  | cons n sizes ih =>
    obtain ⟨users, next⟩ := move_covered n uio.uio_iov uio.uio_resid covered
    exact forall_mem_append.mpr ⟨users, ih _ next⟩

lemma fo_rw_empty (sizes : List Word) (iov : Range) (rest : List Range) (resid : Word)
    (empty : iov.len = 0) : fo_rw sizes ⟨iov :: rest, resid⟩ = fo_rw sizes ⟨rest, resid⟩ := by
  induction sizes with
  | nil => rfl
  | cons n sizes ih =>
    by_cases stop : n = 0 ∨ resid = 0
    · simp only [fo_rw, uiomove, move_of_stop stop]
      exact congrArg _ ih
    · simp [fo_rw, uiomove, move_of_empty stop empty]

/-- A file that takes each vector in one piece touches all the transfer comes to. -/
lemma covered_of_fo_rw (iov : List Range) (resid : Word)
    (users : ∀ r ∈ fo_rw (iov.map Range.len) ⟨iov, resid⟩, r.User) : Covered iov resid := by
  induction iov generalizing resid with
  | nil => trivial
  | cons iov rest ih =>
    by_cases done : resid = 0
    · exact .inl done
    · right
      by_cases empty : iov.len = 0
      · refine ⟨.inl empty, ih _ ?_⟩
        rw [map_cons, fo_rw_empty _ _ _ _ empty, fo_rw, uiomove,
          move_of_stop (.inl empty)] at users
        simpa [empty] using users
      · rw [map_cons, fo_rw, uiomove, move_len (not_or.mpr ⟨empty, done⟩)] at users
        obtain ⟨user, others⟩ := forall_mem_cons.mp users
        rw [fo_rw_empty _ _ _ _ (BitVec.sub_self iov.len)] at others
        exact ⟨Range.inside_of_user user, ih _ others⟩

lemma fo_rw_user_iff (uio : Uio) :
    (∀ sizes, ∀ r ∈ fo_rw sizes uio, r.User) ↔ Covered uio.uio_iov uio.uio_resid :=
  ⟨fun users => covered_of_fo_rw _ _ (users _), fun covered sizes => fo_rw_user sizes uio covered⟩

end Uio

/-! ### The system calls -/

/-- `getbits` and the copy of the time: null pointers are passed by, and the first
copy refused ends the call. Gives the ranges touched, and whether all copies were made. -/
def getbits : List Range → List Range × Bool
  | [] => ([], true)
  | r :: rest =>
    if r.base = 0 then getbits rest
    else match copyin r.base r.len with
      | .error _ => ([], false)
      | .ok r => (r :: (getbits rest).1, (getbits rest).2)

lemma getbits_null (null : r.base = 0) (rest : List Range) :
    getbits (r :: rest) = getbits rest := if_pos null

lemma getbits_bad (set : r.base ≠ 0) (bad : r.badEnds = true)
    (rest : List Range) : getbits (r :: rest) = ([], false) := by
  refine (if_neg set).trans ?_
  rw [copyin, copy_bad bad]

lemma getbits_good (set : r.base ≠ 0) (good : r.badEnds = false) (rest : List Range) :
    getbits (r :: rest) = (r :: (getbits rest).1, (getbits rest).2) := by
  refine (if_neg set).trans ?_
  rw [copyin, copy_good good]

/-- `putbits` goes on after a copy that is refused. -/
def putbits (rs : List Range) : List Range :=
  rs.filter fun r => r.base ≠ 0 ∧ (copyout r.base r.len).isOk

/-- The length of a set of descriptors: `howmany` divides an unsigned number, so
that a negative `nd` gives about 2^29. -/
def setSize (nd : Word) : Word :=
  let nd := if NOFILE.slt nd then NOFILE else nd
  (nd + 31) / 32 * 4

/-- What the rest of the kernel decides about a call: the sizes of the pieces that
a file moves, and whether `select` fails after its copies. -/
structure Outcome where
  sizes : List Word
  failed : Bool

/-- A call with its arguments. The vectors of `readv` and `writev` are those found
in user memory at `iovp`. -/
inductive Call where
  | read (cbuf count : Word)
  | write (cbuf count : Word)
  | readv (iovp : Word) (aiov : List Range)
  | writev (iovp : Word) (aiov : List Range)
  | select (nd input output except tv : Word)

namespace Call

/-- `readv` and `writev`: the vectors are copied in, then the transfer is made. -/
def vectored (iovp : Word) (aiov : List Range) (sizes : List Word) : List Range :=
  if 16 < aiov.length then []
  else match copyin iovp (BitVec.ofNat 32 (aiov.length * 8)) with
    | .error _ => []
    | .ok r => r :: Uio.fo_rw sizes (Uio.rwuio aiov)

/-- The ranges of user memory that a call touches. -/
def touched (out : Outcome) : Call → List Range
  | .read cbuf count => Uio.fo_rw out.sizes (Uio.rwuio [⟨cbuf, count⟩])
  | .write cbuf count => Uio.fo_rw out.sizes (Uio.rwuio [⟨cbuf, count⟩])
  | .readv iovp aiov => vectored iovp aiov out.sizes
  | .writev iovp aiov => vectored iovp aiov out.sizes
  | .select nd input output except tv =>
    let sets := [input, output, except].map fun p => Range.mk p (setSize nd)
    let got := getbits (sets ++ [⟨tv, 8⟩])
    if got.2 && !out.failed then got.1 ++ putbits sets else got.1

/-- The pointers of a chain of copies, up to the first one that is refused, point
to ranges inside one user region. -/
def Chain : List Range → Prop
  | [] => True
  | r :: rest => if r.base = 0 then Chain rest else r.badEnds ∨ r.Inside ∧ Chain rest

/-- The arguments with which a call stays in user memory, whatever the outcome. -/
def Sound : Call → Prop
  | .read cbuf count => Range.Inside ⟨cbuf, count⟩
  | .write cbuf count => Range.Inside ⟨cbuf, count⟩
  | .readv iovp aiov => 16 < aiov.length ∨
      Range.badEnds ⟨iovp, BitVec.ofNat 32 (aiov.length * 8)⟩ ∨
        Uio.Covered aiov (aiov.map Range.len).sum
  | .writev iovp aiov => 16 < aiov.length ∨
      Range.badEnds ⟨iovp, BitVec.ofNat 32 (aiov.length * 8)⟩ ∨
        Uio.Covered aiov (aiov.map Range.len).sum
  | .select nd input output except tv =>
      Chain [⟨input, setSize nd⟩, ⟨output, setSize nd⟩, ⟨except, setSize nd⟩, ⟨tv, 8⟩]

lemma transfer_user_iff (r : Range) :
    (∀ sizes, ∀ t ∈ Uio.fo_rw sizes (Uio.rwuio [r]), t.User) ↔ r.Inside := by
  rw [Uio.fo_rw_user_iff]
  simp only [Uio.rwuio, Uio.Covered, map_cons, map_nil, sum_cons, sum_nil, and_true]
  constructor
  · rintro (empty | inside)
    · exact .inl (by bv_omega)
    · exact inside
  · exact .inr

lemma vectored_user_iff (iovp : Word) (aiov : List Range) :
    (∀ sizes, ∀ t ∈ vectored iovp aiov sizes, t.User) ↔
      16 < aiov.length ∨ Range.badEnds ⟨iovp, BitVec.ofNat 32 (aiov.length * 8)⟩ ∨
        Uio.Covered aiov (aiov.map Range.len).sum := by
  by_cases many : 16 < aiov.length
  · simp [vectored, many]
  have short : BitVec.ofNat 32 (aiov.length * 8) ≤ 128 := by
    rw [BitVec.le_def, BitVec.toNat_ofNat, Nat.mod_eq_of_lt (by omega)]
    exact Nat.mul_le_mul_right 8 (Nat.le_of_not_lt many)
  simp only [vectored, if_neg many]
  generalize BitVec.ofNat 32 _ = len at short
  cases bad : Range.badEnds ⟨iovp, len⟩ with
  | true => simp [copyin, copy, bad]
  | false =>
    have vector := Range.user_of_inside (Range.inside_of_short short bad)
    simp only [copyin, copy_good bad, forall_mem_cons, vector, true_and, many,
      Bool.false_eq_true, false_or]
    exact Uio.fo_rw_user_iff _

lemma getbits_user_iff (rs : List Range) : (∀ t ∈ (getbits rs).1, t.User) ↔ Chain rs := by
  induction rs with
  | nil => simp [getbits, Chain]
  | cons r rest ih =>
    by_cases null : r.base = 0
    · rw [getbits_null null, Chain, if_pos null, ih]
    · rw [Chain, if_neg null]
      cases bad : r.badEnds with
      | true => simp [getbits_bad null bad]
      | false =>
        rw [getbits_good null bad, forall_mem_cons, r.user_iff, ih]
        simp

/-- Once all copies in are made, a copy out touches what a copy in touched. -/
lemma mem_getbits {rs : List Range} (made : (getbits rs).2 = true) {r : Range}
    (member : r ∈ rs) (set : r.base ≠ 0) : r ∈ (getbits rs).1 := by
  induction rs with
  | nil => cases member
  | cons q rest ih =>
    by_cases null : q.base = 0
    · rw [getbits_null null] at made ⊢
      have other : r ≠ q := fun same => set (same ▸ null)
      exact ih made ((mem_cons.mp member).resolve_left other)
    · cases bad : q.badEnds with
      | true => simp [getbits_bad null bad] at made
      | false =>
        rw [getbits_good null bad] at made ⊢
        exact mem_cons.mpr ((mem_cons.mp member).imp_right (ih made))

lemma select_user_iff (nd input output except tv : Word) :
    (∀ out, ∀ t ∈ (select nd input output except tv).touched out, t.User) ↔
      (select nd input output except tv).Sound := by
  simp only [touched, Sound]
  rw [← getbits_user_iff]
  constructor
  · intro users
    simpa using users ⟨[], true⟩
  · intro users out t member
    split_ifs at member with made
    · rcases mem_append.mp member with read | written
      · exact users t read
      · obtain ⟨argument, set⟩ := mem_filter.mp written
        have made := (Bool.and_eq_true_iff.mp made).1
        apply users
        exact mem_getbits made (mem_append_left _ argument) (by simp at set; exact set.1)
    · exact users t member

lemma touched_user_iff (call : Call) : (∀ out, ∀ t ∈ call.touched out, t.User) ↔ call.Sound := by
  have any_sizes (f : List Word → List Range) :
      (∀ out : Outcome, ∀ t ∈ f out.sizes, t.User) ↔ ∀ sizes, ∀ t ∈ f sizes, t.User :=
    ⟨fun users sizes => users ⟨sizes, false⟩, fun users out => users out.sizes⟩
  cases call with
  | read cbuf count => exact (any_sizes _).trans (transfer_user_iff _)
  | write cbuf count => exact (any_sizes _).trans (transfer_user_iff _)
  | readv iovp aiov => exact (any_sizes _).trans (vectored_user_iff iovp aiov)
  | writev iovp aiov => exact (any_sizes _).trans (vectored_user_iff iovp aiov)
  | select nd input output except tv => exact select_user_iff nd input output except tv

end Call

/-- The copies and the calls stay in user memory exactly where the ranges they are
given begin and end, in order, in one user region, or are refused. -/
theorem kernel_access (p n : Word) (call : Call) :
    ((0 < n → (copyin p n).isOk → ∀ a, (Range.mk p n).Has a → baduaddr a = false) ↔
      Range.badEnds ⟨p, n⟩ ∨ Range.Inside ⟨p, n⟩) ∧
    ((0 < n → (copyout p n).isOk → ∀ a, (Range.mk p n).Has a → baduaddr a = false) ↔
      Range.badEnds ⟨p, n⟩ ∨ Range.Inside ⟨p, n⟩) ∧
    ((∀ out, ∀ r ∈ call.touched out, ∀ a, r.Has a → baduaddr a = false) ↔ call.Sound) := by
  refine ⟨?_, ?_, ?_⟩
  · exact copy_user_iff p n
  · exact copy_user_iff p n
  · exact call.touched_user_iff

/-- A copy from RAM to flash memory is let through over all the addresses between,
and `read` into the kernel's RAM is not refused. -/
theorem kernel_address_touched : ((copyin 0x7f01fffc 0x1e010005).isOk ∧
      (Range.mk 0x7f01fffc 0x1e010005).Has 0x80000000 ∧ baduaddr 0x80000000) ∧
    Range.mk 0x80000000 4 ∈ (Call.read 0x80000000 4).touched ⟨[4], false⟩ := by
  decide

end UserMemory
