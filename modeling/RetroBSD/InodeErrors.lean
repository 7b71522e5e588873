import RetroBSD.BlockMap
import RetroBSD.InodeCache

/-!
# Inodes that cannot be read

The end of `iget` for an i-list block with an error. The slot it took from the
free list still has the fields of the file that used it before, now with the
device of the file wanted, and goes to `iput`. Its count is one.

`image` are the bytes of an inode on the disk; whether `iupdat` can read a block
is given for each of its calls.
-/

namespace InodeErrors

open Volumes BlockMap

structure Fs where
  vol : Vol
  inodes : InodeCache.Fs
  fs_ronly : Bool
  fs_tinode : ℕ

structure Slot where
  inode : Inode
  i_number : ℕ
  i_nlink : ℤ
  /-- One of the flags `IUPD`, `IACC`, `ICHG`, `IMOD`. -/
  changed : Bool

def itoo (ino : ℕ) : ℕ := (ino + InodeCache.INOPB - 1) % InodeCache.INOPB

def Fs.ifree (fs : Fs) (ino : ℕ) : Fs :=
  { fs with fs_tinode := fs.fs_tinode + 1, inodes := fs.inodes.ifree ino }

section Release

variable (image : Inode → ℕ → UInt8)

def iupdat (fs : Fs) (ip : Slot) (readable : Bool) : Fs :=
  let b := InodeCache.itod ip.i_number
  if !ip.changed || fs.fs_ronly || !readable then fs
  else { fs with vol := fs.vol.write b (splice (fs.vol.disk b) (64 * itoo ip.i_number) 64 (image ip.inode)) }

/-- `irele` for the last reference, with the slots of the free list. -/
def irele (fs : Fs) (free : List ℕ) (x : ℕ) (ip : Slot) (readable : Bool × Bool) : Fs × List ℕ :=
  let (fs, ip) :=
    if ip.i_nlink ≤ 0 ∧ fs.fs_ronly = false then
      let (inode, vol) := itrunc fs.vol ip.inode 0
      let ip := { ip with inode := inode, changed := true }
      let fs := iupdat image { fs with vol := vol } ip readable.1
      (fs.ifree ip.i_number, { ip with inode := { inode with i_mode := 0 } })
    else (fs, ip)
  (iupdat image fs ip readable.2, free ++ [x])

/-- `iget` when its `bread` has failed, for the slot `x` that was first on the free list. -/
def igetFailed (fs : Fs) (free : List ℕ) (x : ℕ) (ip : Slot) (readable : Bool × Bool) : Fs × List ℕ :=
  irele image fs free x { ip with i_number := 0, changed := false, inode := { ip.inode with ipipe := false } }
    readable

/-- The failure leaves the file system alone if the former file of the slot had links, or if nothing
may be written. Otherwise a file that does not exist is removed and inode 0 is freed. -/
theorem iget_failure_harmless_iff (fs : Fs) (free : List ℕ) (x : ℕ) (ip : Slot)
    (readable : Bool × Bool) : ((igetFailed image fs free x ip readable).1.vol.disk = fs.vol.disk ∧
      (igetFailed image fs free x ip readable).1.fs_tinode = fs.fs_tinode ∧
      (igetFailed image fs free x ip readable).1.inodes.fs_ninode = fs.inodes.fs_ninode ∧
      (igetFailed image fs free x ip readable).1.inodes.fs_inode = fs.inodes.fs_inode ∧
      x ∈ (igetFailed image fs free x ip readable).2) ↔
    0 < ip.i_nlink ∨ fs.fs_ronly = true := by
  have counted : ∀ fs ip r, (iupdat image fs ip r).fs_tinode = fs.fs_tinode := by
    intro fs ip r
    unfold iupdat
    split_ifs <;> rfl
  by_cases removed : ip.i_nlink ≤ 0 ∧ fs.fs_ronly = false
  · simp [igetFailed, irele, removed, counted, Fs.ifree]
  · have kept : 0 < ip.i_nlink ∨ fs.fs_ronly = true := by
      by_contra neither
      simp only [not_or, not_lt, Bool.not_eq_true] at neither
      exact removed neither
    simp [igetFailed, irele, removed, kept, iupdat]

end Release

/-- The slot of a file that was removed is taken for another file, whose block cannot be read: inode
0 is put into the cache of free inodes. -/
theorem removed_slot_frees_inode_zero :
    let fs : Fs := ⟨⟨⟨2, 3, 1, fun _ => 0, 0, 0, 0⟩, fun _ => Words.zeroBlock⟩,
      ⟨2, 1, fun _ => 7, 0, 0, 0, false⟩, false, 1⟩
    let t := igetFailed (fun _ _ => 1) fs [] 5 ⟨⟨0, 0, 0, false, false, 0, fun _ => 0⟩, 9, 0, false⟩ (true, true)
    t.1.fs_tinode = 2 ∧ t.1.inodes.fs_ninode = 2 ∧ t.1.inodes.fs_inode 1 = 0 ∧ t.1.vol.disk 0 960 = 1 := by
  decide

end InodeErrors
