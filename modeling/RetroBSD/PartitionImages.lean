import RetroBSD.MemoryWindows

/-!
# Partitions of a disk image

`mkrd` lays its files out one behind the other in sectors of 512 bytes, and the
kernel addresses them in blocks of 1024. A block of a partition is that of the file
if the partition starts with a block and no other file starts inside of this one.
-/

namespace PartitionImages

open MemoryWindows List

abbrev File := List UInt8

def BUFSZ : ℕ := 512

/-- The bytes of a file, with zeros behind its end. -/
def bytes (file : File) (k : ℕ) : UInt8 := file.getD k 0

/-- The sectors of a file of `tl` bytes. -/
def sectors (tl : ℕ) : ℕ := if tl % BUFSZ ≠ 0 then tl / BUFSZ + 1 else tl / BUFSZ

/-- The first loop over the files: where they start, in sectors. -/
def lbastart : ℕ → List File → List ℕ
  | _, [] => []
  | start, file :: files => start :: lbastart (start + sectors file.length) files

/-- The loop over one file, read from `fin` on and written from `fd` on. The buffer is
cleared before each `read` and written whole. -/
def copy (file : File) : ℕ → ℕ → ℕ → (ℕ → UInt8) → ℕ → UInt8
  | 0, _, _, disk => disk
  | fuel + 1, fin, fd, disk =>
    let buf := (file.drop fin).take BUFSZ
    if buf = [] then disk
    else copy file fuel (fin + buf.length) (fd + BUFSZ) (transfer disk fd (bytes buf) 0 BUFSZ)

def load (disk : ℕ → UInt8) (p : ℕ × File) : ℕ → UInt8 :=
  copy p.2 p.2.length 0 (p.1 * BUFSZ) disk

/-- The table in the first sector, and the bytes behind that. -/
structure Image where
  lbastart : List ℕ
  disk : ℕ → UInt8

def mkrd (files : List File) : Image where
  lbastart := lbastart 2 files
  disk := (zip (lbastart 2 files) files).foldl load fun _ => 0

/-- The `start` that `init_device` notes for a partition. -/
def start (image : Image) (i : ℕ) : ℕ := image.lbastart.getD i 0 / 2

/-- A read by `rdstrategy` from the device with minor `part`. -/
def rdstrategy (image : Image) (part blkno : ℕ) : List UInt8 :=
  window image.disk (1024 * ((if part > 0 then start image (part - 1) else 0) + blkno)) 1024

lemma sectors_eq (tl : ℕ) : sectors tl = (tl + 511) / 512 := by
  by_cases whole : tl % 512 = 0 <;> simp only [sectors, BUFSZ, ne_eq, whole] <;> simp <;> omega

variable {file : File} {files : List File} {start fin fd i b q : ℕ} {disk : ℕ → UInt8}

lemma copy_eq (fuel : ℕ) (enough : file.length ≤ fin + fuel) : copy file fuel fin fd disk =
    transfer disk fd (bytes file) fin (BUFSZ * sectors (file.length - fin)) := by
  induction fuel generalizing fin fd disk with
  | zero =>
    rw [Nat.sub_eq_zero_of_le (by omega)]
    exact (transfer_zero ..).symm
  | succ fuel ih =>
    have read : ((file.drop fin).take BUFSZ).length = min 512 (file.length - fin) := by simp [BUFSZ]
    by_cases done : (file.drop fin).take BUFSZ = []
    · rw [done, length_nil] at read
      rw [copy, if_pos done, Nat.sub_eq_zero_of_le (by omega)]
      exact (transfer_zero ..).symm
    · have some := length_pos_iff.mpr done
      have count : BUFSZ * sectors (file.length - fin) =
          BUFSZ + BUFSZ * sectors (file.length - (fin + min 512 (file.length - fin))) := by
        simp only [sectors_eq, BUFSZ]
        omega
      rw [copy, if_neg done, ih (by omega), read, count]
      apply transfer_behind
      · intro i small
        simp [bytes, small]
      · simp only [sectors_eq, BUFSZ]
        omega

lemma load_eq : load disk (start, file) =
    transfer disk (start * BUFSZ) (bytes file) 0 (BUFSZ * sectors file.length) :=
  copy_eq _ (Nat.le_add_left ..)

/-- What is in front of the first of the files stays. -/
lemma lay_before (before : q < start * BUFSZ) :
    (zip (lbastart start files) files).foldl load disk q = disk q := by
  induction files generalizing start disk with
  | nil => rfl
  | cons file files ih =>
    have next : q < (start + sectors file.length) * BUFSZ := by
      rw [Nat.add_mul]
      omega
    refine (ih next).trans ?_
    rw [load_eq]
    exact if_neg (by omega)

/-- The bytes from the start of a file on, up to its last sector, or behind if it is the last. -/
lemma lay_at (inside : i < files.length) (clear : ∀ x, start * BUFSZ ≤ x → disk x = 0)
    (alone : q < BUFSZ * sectors files[i].length ∨ i + 1 = files.length) :
    (zip (lbastart start files) files).foldl load disk
      ((lbastart start files).getD i 0 * BUFSZ + q) = bytes files[i] q := by
  induction files generalizing i start disk with
  | nil => cases inside
  | cons file files ih =>
    have size : (start + sectors file.length) * BUFSZ =
        start * BUFSZ + BUFSZ * sectors file.length := by rw [Nat.add_mul, Nat.mul_comm BUFSZ]
    cases i with
    | zero =>
      show (zip (lbastart _ files) files).foldl load (load disk (start, file))
        (start * BUFSZ + q) = bytes file q
      by_cases short : q < BUFSZ * sectors file.length
      · rw [lay_before (by omega), load_eq, transfer, if_pos (by omega)]
        congr 1
        omega
      · have far : file.length ≤ q := by
          simp only [sectors_eq, BUFSZ] at short
          omega
        obtain rfl := length_eq_zero_iff.mp (Nat.succ.inj (alone.resolve_left short)).symm
        rw [load_eq]
        refine (if_neg (by omega)).trans ?_
        rw [clear _ (by omega)]
        simp [bytes, far]
    | succ i =>
      refine ih (Nat.lt_of_succ_lt_succ inside) (fun x far => ?_) (alone.imp_right Nat.succ.inj)
      rw [load_eq, transfer, if_neg (by omega)]
      exact clear x (by omega)

end PartitionImages
