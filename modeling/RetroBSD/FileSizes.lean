import RetroBSD.BlockMap
import RetroBSD.Runs

/-!
# Sizes of files

`truncate` and `ftruncate`, which reach `itrunc` through `ufs_setattr`, and the
writes of `rwip`, on the files of a volume. The length of a call is a signed
number for `ufs_setattr`, an unsigned one for `itrunc` and a signed one in the
inode. What refuses a truncate before the length is looked at (`access`, a volume
that is read only, the flags of the file) is given with the call.
-/

namespace FileSizes

open FreeList Volumes BlockMap Runs
open Function (update update_of_ne)

/-- The `va_size` of an attribute that is not to be changed. -/
abbrev VNOVAL : BitVec 32 := -1

structure Files where
  vol : Vol
  inode : ℕ → Inode

inductive Call where
  | truncate (i : ℕ) (length : BitVec 32) (refused : Bool)
  | write (i : ℕ) (r : Request) (data : ℕ → UInt8)

/-- `ufs_setattr` for a change of the size. -/
def setattr (v : Vol) (ip : Inode) (va_size : BitVec 32) (refused : Bool) : Inode × Vol :=
  if refused ∨ ip.append then (ip, v)
  else if va_size = VNOVAL then (ip, v)
  else if fmt ip = IFDIR then (ip, v)
  else itrunc v ip va_size.toNat

def Files.set (s : Files) (i : ℕ) (r : Inode × Vol) : Files := ⟨r.2, update s.inode i r.1⟩

def exec (s : Files) : Call → Files
  | .truncate i length refused => s.set i (setattr s.vol (s.inode i) length refused)
  | .write i r data => s.set i (rwipWrite s.vol (s.inode i) r data).2.2

/-- A length that the signed and the unsigned reading agree on, or none. -/
def Plain (_ : Files) : Call → Prop
  | .truncate _ length _ => 0 ≤ length.toInt ∨ length = VNOVAL
  | .write _ _ _ => True

section Steps

variable (v : Vol) (ip : Inode)

lemma fetchAddr_size (i : ℕ) (rwflg : Rw) (clr : Bool) :
    (fetchAddr v ip i rwflg clr).2.1.i_size = ip.i_size := by
  simp only [fetchAddr]
  split_ifs
  · rfl
  · rfl
  · split <;> rfl

lemma bmap_size (bn : Int) (rwflg : Rw) (clr : Bool) :
    (bmap v ip bn rwflg clr).2.1.i_size = ip.i_size := by
  unfold bmap
  split_ifs
  · rfl
  · exact fetchAddr_size v ip _ rwflg clr
  · split
    · rfl
    · next j b found =>
      have first := fetchAddr_size v ip (NADDR - j) rwflg true
      unfold fetchFrom
      split
      · next call => rwa [call] at first
      · exact first

end Steps

/-- A size that a write stores is larger than the one before. -/
lemma writeLoop_size (u_ruid fuel : ℕ) (data : ℕ → UInt8) (v : Vol) (ip : Inode) (uio : Uio)
    (start : 0 ≤ ip.i_size) : 0 ≤ (writeLoop u_ruid fuel data v ip uio).2.2.1.i_size := by
  induction fuel generalizing data v ip uio with
  | zero => exact start
  | succ fuel ih =>
    have kept : ∀ {clr m ip' v'}, bmap v ip (lblkno (ofInt32 uio.uio_offset)) .write clr =
        (m, ip', v') → 0 ≤ ip'.i_size := by
      intro clr m ip' v' call
      rwa [← bmap_size v ip _ .write clr, call] at start
    unfold writeLoop
    dsimp only
    split
    · next call => exact kept call
    · next call => exact kept call
    · next bn ip' v' call =>
      have here := kept call
      have grown : ∀ size : ℤ, 0 ≤ (dropSetid (if size > ip'.i_size then
          { ip' with i_size := size } else ip') u_ruid).i_size := by
        intro size
        unfold dropSetid
        split_ifs
        all_goals first | exact here | exact here.trans (le_of_lt ‹size > _›)
      by_cases failed : (Mapped.block bn).failed = true
      · rwa [if_pos failed]
      · rw [if_neg failed]
        split
        · exact grown _
        · exact ih _ _ _ _ (grown _)

lemma rwipWrite_size {v : Vol} {ip : Inode} (start : 0 ≤ ip.i_size) (r : Request) (data : ℕ → UInt8) :
    0 ≤ (rwipWrite v ip r data).2.2.1.i_size := by
  unfold rwipWrite
  dsimp only
  split_ifs
  all_goals first | exact start | exact writeLoop_size _ _ _ v ip _ start

lemma itrunc_size (v : Vol) (ip : Inode) {length : ℕ} (signed : length < 2 ^ 31)
    (start : 0 ≤ ip.i_size) : 0 ≤ (itrunc v ip length).1.i_size := by
  have stored : 0 ≤ toInt32 length := by
    rw [toInt32, if_pos signed]
    exact Int.natCast_nonneg _
  have start : 0 ≤ (if ip.ipipe then { ip with i_size := MAXPIPSIZ } else ip).i_size := by
    split_ifs
    · exact Int.natCast_nonneg _
    · exact start
  unfold itrunc
  generalize (if ip.ipipe then { ip with i_size := MAXPIPSIZ } else ip) = ip at start ⊢
  dsimp only
  split_ifs
  · exact start
  · rwa [bmap_size]
  · exact stored
  · exact stored
  · unfold shortenInside
    have kept := bmap_size v ip (lblkno length) .write true
    split
    · next call =>
      split_ifs
      · simpa [call, ← kept] using start
      · exact stored
    · next call => simpa [call, ← kept] using start

/-- Calls that pass no negative length other than the one that stands for no length keep every size
non-negative, and those leave the files as they are. -/
theorem sizes_nonnegative {s t : Files} {calls : List Call} (start : ∀ i, 0 ≤ (s.inode i).i_size)
    (run : Run (fun s c t => exec s c = t) Plain s calls t) : (∀ i, 0 ≤ (t.inode i).i_size) ∧
    ∀ i length refused, Plain t (.truncate i length refused) → length.toInt < 0 →
      exec t (.truncate i length refused) = t := by
  constructor
  · refine run_invariant (fun s => ∀ i, 0 ≤ (s.inode i).i_size) ?_ run start
    rintro s call _ good plain rfl j
    have set : ∀ i r, 0 ≤ r.1.i_size → 0 ≤ ((s.set i r).inode j).i_size := by
      intro i r size
      by_cases same : j = i
      · simpa [Files.set, same] using size
      · simpa [Files.set, update_of_ne same] using good j
    cases call with
    | truncate i length refused =>
      apply set
      unfold setattr
      split_ifs with _ none_
      · exact good i
      · exact good i
      · exact good i
      · have signed := (plain).resolve_right none_
        exact itrunc_size _ _ (by rw [BitVec.toInt_eq_toNat_cond] at signed; omega) (good i)
    | write i r data => exact set i _ (rwipWrite_size (good i) r data)
  · intro i length refused plain negative
    obtain signed | rfl := plain
    · omega
    · simp [exec, setattr, Files.set]

/-- A volume with the four blocks that lead to a block far out in a file, all of them free. -/
def fiveFree : Files :=
  ⟨⟨⟨2, 6, 5, fun k => if k = 0 then 0 else k + 1, 0, 0, 4⟩, fun _ => Words.zeroBlock⟩,
    fun _ => ⟨0o100644, 1, 1, false, false, 0, fun _ => 0⟩⟩

theorem sizes_nonnegative_sample :
    let calls : List Call := [.truncate 3 1 false, .truncate 3 VNOVAL false]
    ∃ t, Run (fun s c t => exec s c = t) Plain fiveFree calls t ∧ 0 ≤ (t.inode 3).i_size := by
  intro calls
  have run : Run (fun s c t => exec s c = t) Plain fiveFree calls _ :=
    .cons (.inl (by decide)) rfl (.cons (.inr rfl) rfl (.nil _))
  exact ⟨_, run, (sizes_nonnegative (fun _ => le_rfl) run).1 3⟩

/-- A truncate to -2. -/
theorem truncate_negative : ((exec fiveFree (.truncate 3 (-2) false)).inode 3).i_size = -2 := by
  decide

end FileSizes
