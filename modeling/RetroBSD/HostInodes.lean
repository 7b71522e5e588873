import Mathlib.Tactic

/-!
# The free inodes of a new file system

`fs_create` (`tools/fsutil/create.c`) and the creation of files in `fs_inode_by_name`
(`tools/fsutil/inode.c`), as far as they read or change the modes of the inodes on the
disk, the counter of free inodes and the list of some of them. Blocks and directory entries
are left out, and so are calls that find their name: they change none of these.
-/

namespace HostInodes

open Function (update)
open Finset (Icc card_erase_add_one mem_erase)
open List

abbrev NICINOD : ℕ := 32
abbrev INODES_PER_BLOCK : ℕ := 16
abbrev FDIR : ℕ := 0o40000
abbrev FREG : ℕ := 0o100000

/-- The modes on the disk. `inode` holds `inode[ninode - 1]` first. -/
structure Fs where
  mode : ℕ → ℕ
  inode : List ℕ
  tinode : ℤ

namespace Fs

def save (fs : Fs) (number mode : ℕ) : Fs := { fs with mode := update fs.mode number mode }

/-- The list is empty when it is built from the `n` inodes. -/
def inode_build_list (n : ℕ) (fs : Fs) : Fs :=
  { fs with inode := (((range' 1 n).filter (fs.mode · = 0)).take NICINOD).reverse }

/-- The loop of `fs_inode_alloc`, at most `fuel` rounds of it. -/
def fs_inode_alloc (n : ℕ) : ℕ → Fs → Option (ℕ × Fs)
  | 0, _ => none
  | fuel + 1, fs =>
    let fs := if fs.inode = [] then fs.inode_build_list n else fs
    match fs.inode with
    | [] => none
    | ino :: rest =>
      let fs := { fs with inode := rest, tinode := fs.tinode - 1 }
      if ino = 0 ∨ n < ino then none
      else if fs.mode ino = 0 then some (ino, fs)
      else fs_inode_alloc n fuel fs

/-- The mode of a new file, which is a regular one unless told otherwise. -/
def newMode (mode : ℕ) : ℕ :=
  if mode % 2 ^ 16 / 2 ^ 12 = 0 then mode % 2 ^ 16 + FREG else mode % 2 ^ 16

/-- A name is entered. A round without success takes an inode off the list. -/
def create_file (n : ℕ) (fs : Fs) (mode : ℕ) : Option Fs :=
  (fs_inode_alloc n (fs.inode.length + 1) fs).map fun r => r.2.save r.1 (newMode mode)

def create_files (n : ℕ) : Fs → List ℕ → Option Fs
  | fs, [] => some fs
  | fs, mode :: modes => (fs.create_file n mode).bind (create_files n · modes)

/-- `create_inode1`, `create_root_directory` and `create_lost_found_directory`. -/
def create (fs : Fs) (number mode : ℕ) : Fs :=
  { fs.save number mode with tinode := fs.tinode - 1 }

end Fs

def swapsz (swap_kbytes : ℕ) : ℕ := swap_kbytes * 1024 % 2 ^ 32 / 1024

/-- The inodes of `isize - 1` blocks. -/
def inodes (kbytes : ℕ) : ℕ :=
  (kbytes / 16 + INODES_PER_BLOCK - 1) / INODES_PER_BLOCK * INODES_PER_BLOCK

def fs_create (kbytes swap_kbytes : ℕ) : Option Fs :=
  if inodes kbytes = 0 then none
  else
    let fs := (((⟨fun _ => 0, [], inodes kbytes⟩ : Fs).create 1 FREG).create 3
      (FDIR + 0o777)).create 2 (FDIR + 0o777)
    let fs := if swapsz swap_kbytes ≠ 0 then fs.save 4 (FREG + 0o400) else fs
    some (fs.inode_build_list (inodes kbytes))

/-- The inodes that are free on the disk. -/
def unused (n : ℕ) (mode : ℕ → ℕ) : Finset ℕ := (Icc 1 n).filter (mode · = 0)

variable {n i m : ℕ} {fs fs' : Fs} {mode : ℕ → ℕ} {extra : ℤ}

/-- The counter is too large by `extra`. -/
def Counted (n : ℕ) (extra : ℤ) (fs : Fs) : Prop := fs.tinode = (unused n fs.mode).card + extra

structure Accounted (n : ℕ) (extra : ℤ) (fs : Fs) : Prop where
  counted : Counted n extra fs
  nodup : fs.inode.Nodup
  listed : ∀ ino ∈ fs.inode, ino ∈ unused n fs.mode

lemma mem_unused : i ∈ unused n mode ↔ (1 ≤ i ∧ i ≤ n) ∧ mode i = 0 := by
  simp [unused]

lemma unused_update (used : m ≠ 0) : unused n (update mode i m) = (unused n mode).erase i := by
  ext x
  rw [mem_erase, mem_unused, mem_unused]
  by_cases same : x = i
  · simp [same, used]
  · simp [same]

lemma Counted.save (counted : Counted n extra fs) (free : i ∈ unused n fs.mode) (used : m ≠ 0) :
    Counted n (extra + 1) (fs.save i m) := by
  have := card_erase_add_one free
  have before : fs.tinode = _ := counted
  change fs.tinode = ((unused n (update fs.mode i m)).card : ℤ) + (extra + 1)
  rw [unused_update used]
  omega

lemma Counted.create (counted : Counted n extra fs) (free : i ∈ unused n fs.mode) (used : m ≠ 0) :
    Counted n extra (fs.create i m) := by
  have saved : fs.tinode = _ := counted.save free used
  change fs.tinode - 1 = ((unused n (fs.save i m).mode).card : ℤ) + extra
  omega

lemma Counted.build (counted : Counted n extra fs) : Accounted n extra (fs.inode_build_list n) := by
  refine ⟨counted, ?_, fun i member => mem_unused.mpr ?_⟩
  · exact nodup_reverse.mpr ((Nodup.filter _ nodup_range').sublist (take_sublist ..))
  · have listed := mem_of_mem_take (mem_reverse.mp member)
    simp only [mem_filter, mem_range'_1, decide_eq_true_eq] at listed
    exact ⟨by omega, listed.2⟩

/-- The first inode of the list is free, so the loop ends in its first round. -/
lemma Accounted.create_file (inv : Accounted n extra fs) (done : fs.create_file n m = some fs') :
    Accounted n extra fs' := by
  obtain ⟨⟨_, t⟩, alloc, rfl⟩ := Option.map_eq_some_iff.mp done
  rw [Fs.fs_inode_alloc] at alloc
  have full : Accounted n extra (if fs.inode = [] then fs.inode_build_list n else fs) := by
    split_ifs
    · exact inv.counted.build
    · exact inv
  generalize (if fs.inode = [] then fs.inode_build_list n else fs) = u at alloc full
  obtain ⟨mode, _ | ⟨x, rest⟩, tinode⟩ := u
  · cases alloc
  · have free := full.listed x mem_cons_self
    obtain ⟨inside, zero⟩ := mem_unused.mp free
    dsimp only at alloc
    rw [if_neg (by omega), if_pos zero] at alloc
    cases alloc
    have used : Fs.newMode m ≠ 0 := by
      simp only [Fs.newMode, FREG]
      split_ifs <;> omega
    obtain ⟨out, nodup⟩ := nodup_cons.mp full.nodup
    refine ⟨full.counted.create free used, nodup, fun y member => ?_⟩
    rw [Fs.save, unused_update used]
    refine mem_erase.mpr ⟨?_, full.listed y (mem_cons_of_mem _ member)⟩
    rintro rfl
    exact out member

lemma Accounted.create_files (inv : Accounted n extra fs) (modes : List ℕ)
    (run : fs.create_files n modes = some fs') : Accounted n extra fs' := by
  induction modes generalizing fs with
  | nil =>
    cases run
    exact inv
  | cons mode modes ih =>
    obtain ⟨t, first, rest⟩ := Option.bind_eq_some_iff.mp run
    exact ih (inv.create_file first) rest

/-- The swap file takes an inode that stays counted. -/
lemma accounted_new {kbytes swap_kbytes : ℕ} (made : fs_create kbytes swap_kbytes = some fs) :
    Accounted (inodes kbytes) (if swapsz swap_kbytes = 0 then 0 else 1) fs := by
  obtain ⟨some_, made⟩ := Option.ite_none_left_eq_some.mp made
  cases made
  refine Counted.build ?_
  have large : 16 ≤ inodes kbytes := by
    simp only [inodes, INODES_PER_BLOCK] at some_ ⊢
    omega
  generalize inodes kbytes = n at large
  have start : Counted n 0 ⟨fun _ => 0, [], n⟩ := by simp [Counted, unused]
  have made := ((start.create (i := 1) (mem_unused.mpr ⟨by omega, rfl⟩) (by decide : FREG ≠ 0)).create
    (i := 3) (mem_unused.mpr ⟨by omega, rfl⟩) (by decide : FDIR + 0o777 ≠ 0)).create (i := 2)
    (mem_unused.mpr ⟨by omega, rfl⟩) (by decide : FDIR + 0o777 ≠ 0)
  by_cases swap : swapsz swap_kbytes = 0
  · rw [if_neg (not_not.mpr swap), if_pos swap]
    exact made
  · rw [if_pos swap, if_neg swap]
    exact made.save (mem_unused.mpr ⟨by omega, rfl⟩) (by decide)

/-- Whether a swap file was made or not, the list is of free inodes, but the counter is right
only without one. -/
theorem free_inodes_counted_iff (kbytes swap_kbytes : ℕ) (modes : List ℕ)
    (made : fs_create kbytes swap_kbytes = some fs)
    (run : fs.create_files (inodes kbytes) modes = some fs') :
    (fs'.tinode = (unused (inodes kbytes) fs'.mode).card ↔ swapsz swap_kbytes = 0) ∧
      fs'.inode.Nodup ∧ ∀ ino ∈ fs'.inode, ino ∈ unused (inodes kbytes) fs'.mode := by
  have inv := (accounted_new made).create_files modes run
  refine ⟨?_, inv.nodup, inv.listed⟩
  rw [show fs'.tinode = _ from inv.counted]
  split_ifs with none <;> simp [none]

theorem free_inodes_counted_one_file : ∃ fs fs', fs_create 256 0 = some fs ∧
    fs.create_files (inodes 256) [0o644] = some fs' ∧
    fs'.tinode = (unused (inodes 256) fs'.mode).card :=
  ⟨_, _, rfl, rfl, (free_inodes_counted_iff 256 0 [0o644] rfl rfl).1.mpr (by decide)⟩

/-- With a swap file of one block 12 of the 16 inodes are free. -/
theorem swap_inode_counted : ∃ fs, fs_create 256 1 = some fs ∧ fs.tinode = 13 ∧
    (unused (inodes 256) fs.mode).card = 12 :=
  ⟨_, rfl, rfl, by decide⟩

end HostInodes
