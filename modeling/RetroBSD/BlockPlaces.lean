import RetroBSD.FileBlocks

/-!
# Which block of a file is where

`bmap` for writing adds blocks on the way to the one asked for and takes nothing
away, so the other blocks of the file stay where they are, and what it gave is
found again.
-/

namespace BlockMap

open Words FreeList Volumes PointerTrees

section Inodes

variable {v v' : Vol} {ip ip' : Inode}

lemma bmap_outside (v : Vol) (ip : Inode) {b : Int} (outside : b < 0 ∨ (maxBlocks : Int) ≤ b)
    (rwflg : Rw) (clr : Bool) : bmap v ip b rwflg clr = (.efbig, ip, v) := by
  rcases outside with negative | large
  · rw [bmap, if_pos negative]
  · obtain ⟨bn, rfl⟩ := Int.eq_ofNat_of_zero_le (le_trans (Int.natCast_nonneg _) large)
    have none_ : place bn = none := by
      have total : maxBlocks = 16843012 := by decide
      rcases place_cases bn with ⟨_, _⟩ | ⟨_, _⟩ | ⟨_, _⟩ | ⟨_, _⟩ | ⟨_, p⟩
      all_goals first | exact p | omega
    rw [bmap_eq, none_]

/-- What `bmap` for reading gives. -/
lemma read_block_iff {b : Int} {clr : Bool} {nb : Nat} : (bmap v ip b .read clr).1 = .block nb ↔
      ∃ bn : Nat, b = bn ∧ bn < maxBlocks ∧ lookup v ip.i_addr bn = nb ∧ nb ≠ 0 := by
  by_cases inside : 0 ≤ b ∧ b < maxBlocks
  · obtain ⟨bn, rfl⟩ := Int.eq_ofNat_of_zero_le inside.1
    have small : bn < maxBlocks := by exact_mod_cast inside.2
    rw [bmap_read v ip small]
    constructor
    · intro read
      by_cases hole : lookup v ip.i_addr bn = 0
      · simp [hole] at read
      · simp only [hole, if_false, Mapped.block.injEq] at read
        exact ⟨bn, rfl, small, read, read ▸ hole⟩
    · rintro ⟨bn', same, _, rfl, found⟩
      obtain rfl : bn = bn' := by exact_mod_cast same
      simp [found]
  · rw [bmap_outside v ip (by omega)]
    refine ⟨fun read => absurd read (by nofun), ?_⟩
    rintro ⟨bn, rfl, small, _⟩
    exact absurd ⟨Int.natCast_nonneg _, by exact_mod_cast small⟩ inside

lemma bmap_read_state (v : Vol) (ip : Inode) (b : Int) (clr : Bool) :
    (bmap v ip b .read clr).2 = (ip, v) := by
  by_cases inside : 0 ≤ b ∧ b < maxBlocks
  · obtain ⟨bn, rfl⟩ := Int.eq_ofNat_of_zero_le inside.1
    rw [bmap_read v ip (by exact_mod_cast inside.2)]
  · rw [bmap_outside v ip (by omega)]

/-- Two files with the same number for a block give the same when it is read. -/
lemma read_congr {b : Int} (clr : Bool)
    (same : ∀ bn : Nat, b = bn → lookup v' ip'.i_addr bn = lookup v ip.i_addr bn) :
    (bmap v' ip' b .read clr).1 = (bmap v ip b .read clr).1 := by
  by_cases inside : 0 ≤ b ∧ b < maxBlocks
  · obtain ⟨bn, rfl⟩ := Int.eq_ofNat_of_zero_le inside.1
    have small : bn < maxBlocks := by exact_mod_cast inside.2
    rw [bmap_read v ip small, bmap_read v' ip' small, same bn rfl]
  · rw [bmap_outside v ip (by omega), bmap_outside v' ip' (by omega)]

/-- `bmap` as a map from the blocks of a file to blocks of the volume. With as many free
blocks as are missing on the way, a write finds or makes the block, a read finds it again,
and nothing else moves; no two blocks of the file are one; reading changes nothing; outside
of the range of a file there is EFBIG; and without space the file stays as it was. -/
theorem bmap_maps {v : Vol} {list : List Nat} {ip : Inode}
    (holds : Holds v list (owned v ip.i_addr)) :
    (∀ (bn : Nat) (clr : Bool), bn < maxBlocks → needed v ip.i_addr bn ≤ list.length →
      ∃ nb ip' v', bmap v ip bn .write clr = (.block nb, ip', v') ∧ badblock v.fs nb = false ∧
        (∃ list', Holds v' list' (owned v' ip'.i_addr)) ∧
        (∀ clr', (bmap v' ip' bn .read clr').1 = .block nb) ∧
        ∀ b : Int, b ≠ bn → ∀ clr', (bmap v' ip' b .read clr').1 = (bmap v ip b .read clr').1) ∧
    (∀ (b b' : Int) (clr : Bool) (nb : Nat), (bmap v ip b .read clr).1 = .block nb →
      (bmap v ip b' .read clr).1 = .block nb → b = b') ∧
    (∀ (b : Int) (clr : Bool), (bmap v ip b .read clr).2 = (ip, v)) ∧
    (∀ (b : Int) (rwflg : Rw) (clr : Bool), b < 0 ∨ (maxBlocks : Int) ≤ b →
      (bmap v ip b rwflg clr).1 = .efbig) ∧
    (∀ (b : Int) (clr : Bool) (ip' : Inode) (v' : Vol),
      bmap v ip b .write clr = (.missing, ip', v') →
      (∃ list', Holds v' list' (owned v' ip'.i_addr)) ∧
      ∀ (b' : Int) (clr' : Bool) (nb : Nat), (bmap v ip b' .read clr').1 = .block nb →
        (bmap v' ip' b' .read clr').1 = .block nb) := by
  refine ⟨?_, ?_, bmap_read_state v ip, ?_, ?_⟩
  · intro bn clr small enough
    obtain ⟨m, addr', v', list', call, moves, grows, given, _, lost⟩ := bmap_spec ip bn clr holds
    have held := moves.holds holds
    have present : m ≠ .missing := lost.not.mpr (not_lt.mpr enough)
    obtain ⟨rfl, found⟩ := (given small).resolve_right fun none_ => present none_.1
    refine ⟨_, _, v', call, ?_, ⟨list', held⟩, ?_, ?_⟩
    · rw [← badblock_size moves.size]
      exact held.good _ (lookup_mem found)
    · intro clr'
      exact read_block_iff.mpr ⟨bn, rfl, small, rfl, found⟩
    · intro b other clr'
      apply read_congr
      rintro c rfl
      exact grows.lookup (.inl (by exact_mod_cast other))
  · intro b b' clr nb first second
    obtain ⟨c, rfl, _, rfl, found⟩ := read_block_iff.mp first
    obtain ⟨c', rfl, _, same, _⟩ := read_block_iff.mp second
    have nodup := (Multiset.nodup_add.mp holds.nodup).2.1
    exact congrArg Int.ofNat (lookup_inj nodup found same.symm)
  · intro b rwflg clr outside
    rw [bmap_outside v ip outside]
  · intro b clr ip' v' call
    obtain ⟨bn, rfl⟩ : ∃ bn : Nat, b = bn := by
      apply Int.eq_ofNat_of_zero_le
      by_contra negative
      rw [bmap_outside v ip (.inl (by omega))] at call
      cases call
    obtain ⟨_, addr', v₁, list', call', moves, grows, _⟩ := bmap_spec ip bn clr holds
    rw [call'] at call
    cases call
    refine ⟨⟨list', moves.holds holds⟩, ?_⟩
    intro b' clr' nb read
    obtain ⟨c, rfl, small, rfl, found⟩ := read_block_iff.mp read
    exact read_block_iff.mpr ⟨c, rfl, small, grows.lookup (.inr found), found⟩

end Inodes

/-- A volume with two blocks, both free. -/
def twoFree : Vol :=
  ⟨{ fs_isize := 2, fs_fsize := 4, fs_nfree := 3, fs_free := fun i => if i = 0 then 0 else i + 1,
      fs_flock := 0, fs_fmod := 0, fs_tfree := 2 }, fun _ => zeroBlock⟩

def emptyFile : Inode :=
  { i_mode := 0o100644, i_nlink := 1, i_count := 1, ipipe := false, append := false, i_size := 0,
    i_addr := fun _ => 0 }

lemma twoFree_holds : Holds twoFree [3, 2] (owned twoFree emptyFile.i_addr) := by
  refine ⟨⟨⟨by decide, .last [2, 3], by decide, by decide, by decide, by decide⟩, fun _ => .last⟩,
    by decide, fun b member => absurd member (Multiset.notMem_zero b)⟩

/-- The first block behind the direct ones takes both blocks of the volume. -/
theorem first_indirect_block_maps : needed twoFree emptyFile.i_addr 4 = 2 ∧
    ∃ nb ip v, bmap twoFree emptyFile (4 : Nat) .write false = (.block nb, ip, v) ∧
      badblock twoFree.fs nb = false ∧ (bmap v ip (4 : Nat) .read false).1 = .block nb := by
  have counted : needed twoFree emptyFile.i_addr 4 = 2 := by decide
  obtain ⟨nb, ip, v, call, good, _, read, _⟩ :=
    (bmap_maps twoFree_holds).1 4 false (by decide) (counted ▸ le_rfl)
  exact ⟨counted, nb, ip, v, call, good, read false⟩

end BlockMap
