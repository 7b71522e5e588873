import RetroBSD.BlockOwnership

/-!
# The contents of a file

A file is a size and a byte for every offset below it. Writing, truncating and
reading an inode through `rwip` and `itrunc` are what these operations are on
files, provided that the bytes which the inode maps past its size are zero to
begin with; every call keeps them so. Directories and symbolic links are written
by the same code and are covered. No call runs out of blocks or offsets.
-/

namespace FileContents

open Words FreeList Volumes PointerTrees BlockMap BlockOwnership Runs List
open Function (update update_of_ne update_self)

/-! ## Files -/

structure File where
  size : Nat
  byte : Nat → UInt8

/-- Offsets between the old end and the place of the write become zero bytes. -/
def File.write (f : File) (o n : Nat) (data : Nat → UInt8) : File :=
  ⟨max f.size (o + n), fun k =>
    if o ≤ k ∧ k < o + n then data (k - o) else if k < f.size then f.byte k else 0⟩

def File.trunc (f : File) (length : Nat) : File :=
  ⟨length, fun k => if k < min f.size length then f.byte k else 0⟩

def File.read (f : File) (o n : Nat) : List UInt8 :=
  (List.range (min n (f.size - o))).map (fun i => f.byte (o + i))

/-! ## Calls -/

inductive Call where
  | write (r : Request) (data : Nat → UInt8)
  | itrunc (length : Nat)
  | read (uio : Uio)

def perform (ino : Nat) (s : Image) : Call → Image × List UInt8
  | .write r data => (exec s (.write ino r data), [])
  | .itrunc length => (exec s (.itrunc ino length), [])
  | .read uio => (s, (rwipRead s.vol (s.inodes ino) uio).2.1)

/-- Where a write starts; IO_APPEND counts for regular files only. -/
def start (regular : Bool) (size : Nat) (r : Request) : Nat :=
  if regular ∧ r.io_append then size else r.uio.uio_offset.toNat

def act (regular : Bool) (f : File) : Call → File × List UInt8
  | .write r data => (f.write (start regular f.size r) r.uio.uio_resid data, [])
  | .itrunc length => (f.trunc length, [])
  | .read uio => (f, f.read uio.uio_offset.toNat uio.uio_resid)

/-- What `u_error` says after `itrunc` of anything but a pipe. -/
def itruncError (v : Vol) (ip : Inode) (length : Nat) : Option Errno :=
  let error (m : Mapped) := match m with
    | .missing => some Errno.enospc
    | .efbig => some Errno.efbig
    | .block _ => none
  if ofInt32 ip.i_size = length then none
  else if ofInt32 ip.i_size < length then error (bmap v ip (lblkno (length - 1)) .write true).1
  else if blkoff length = 0 then none
  else error (bmap v ip (lblkno length) .write true).1

/-- The call stops for want of a free block. -/
def RunsOut (ino : Nat) (s : Image) : Call → Prop
  | .write r data => (rwipWrite s.vol (s.inodes ino) r data).1 = some .enospc
  | .itrunc length => itruncError s.vol (s.inodes ino) length = some .enospc
  | .read _ => False

instance (ino : Nat) (s : Image) (call : Call) : Decidable (RunsOut ino s call) :=
  match call with
  | .write r data =>
    inferInstanceAs (Decidable ((rwipWrite s.vol (s.inodes ino) r data).1 = some .enospc))
  | .itrunc length =>
    inferInstanceAs (Decidable (itruncError s.vol (s.inodes ino) length = some .enospc))
  | .read _ => inferInstanceAs (Decidable False)

def regular (ip : Inode) : Bool := decide (fmt ip = IFREG)

/-- Offsets are not negative, a write is not empty, ends below the limits on file
sizes and is not refused by the append flag. -/
def Within (ino : Nat) (s : Image) : Call → Prop
  | .write r _ =>
    let o := start (regular (s.inodes ino)) (s.inodes ino).i_size.toNat r
    0 ≤ r.uio.uio_offset ∧ 0 < r.uio.uio_resid ∧ o + r.uio.uio_resid < 2 ^ 31 ∧
      (regular (s.inodes ino) = true →
        ((o + r.uio.uio_resid : Nat) : Int) ≤ r.rlim_cur ∧ r.rlim_cur < 2 ^ 31 ∧
        ((s.inodes ino).append = true → (o : Int) = (s.inodes ino).i_size))
  | .itrunc length => length < 2 ^ 31
  | .read uio => 0 ≤ uio.uio_offset ∧ uio.uio_offset < 2 ^ 31

def Performs (ino : Nat) (s : Image) (l : Call × List UInt8) (t : Image) : Prop :=
  perform ino s l.1 = (t, l.2)

def Allowed (ino : Nat) (s : Image) (l : Call × List UInt8) : Prop :=
  Within ino s l.1 ∧ ¬ RunsOut ino s l.1

def Acts (regular : Bool) (f : File) (l : Call × List UInt8) (f' : File) : Prop :=
  act regular f l.1 = (f', l.2)

/-! ## Bytes -/

def byteAt (v : Vol) (addr : Nat → Nat) (k : Nat) : UInt8 := content v addr (lblkno k) (blkoff k)

/-- The inode shows the file, and zeroes behind it. -/
def Shows (s : Image) (ino : Nat) (f : File) : Prop :=
  (s.inodes ino).i_size = f.size ∧ f.size < 2 ^ 31 ∧
    ∀ k, byteAt s.vol (s.inodes ino).i_addr k = if k < f.size then f.byte k else 0

lemma ofInt32_nat {n : Nat} (small : n < 2 ^ 31) : ofInt32 (n : Int) = n := by
  simp only [ofInt32]
  omega

lemma toInt32_nat {n : Nat} (small : n < 2 ^ 31) : toInt32 n = n := by
  simp only [toInt32, small, if_true]

lemma wrap_eq {i : Int} (low : -2 ^ 31 ≤ i) (high : i < 2 ^ 31) : wrap i = i := by
  simp only [wrap, toInt32, ofInt32]
  split_ifs <;> omega

lemma wrap_add {o n : Nat} (small : o + n < 2 ^ 31) : wrap ((o : Int) + n) = ((o + n : Nat) : Int) :=
  wrap_eq (by omega) (by omega)

lemma offset_parts (i : Nat) : i = DEV_BSIZE * lblkno i + blkoff i ∧ blkoff i < DEV_BSIZE := by
  simp only [lblkno, blkoff, DEV_BSIZE]
  omega

section Calls

variable {v : Vol} {list : List Nat} {ip : Inode}

def rounds (o n : Nat) : Nat := (blkoff o + n + (DEV_BSIZE - 1)) / DEV_BSIZE

variable {length n o size : Nat}

/-- One round of the loop, byte by byte. A block that is not cleared is written whole. -/
lemma round_bytes {v₂ : Vol} {addr' : Nat → Nat} {old : Block} {data : Nat → UInt8}
    (room : n ≤ DEV_BSIZE - blkoff o)
    (cleared : n ≠ DEV_BSIZE → old = content v ip.i_addr (lblkno o))
    (changed : ∀ m, content v₂ addr' m = if m = lblkno o then splice old (blkoff o) n data
      else content v ip.i_addr m) (k : Nat) :
    byteAt v₂ addr' k =
      if o ≤ k ∧ k < o + n then data (k - o) else byteAt v ip.i_addr k := by
  obtain ⟨wholeK, belowK⟩ := offset_parts k
  obtain ⟨wholeO, -⟩ := offset_parts o
  simp only [DEV_BSIZE] at *
  by_cases here : lblkno k = lblkno o
  · have position : (blkoff o ≤ blkoff k ∧ blkoff k < blkoff o + n) ↔ (o ≤ k ∧ k < o + n) := by
      omega
    have distance : blkoff k - blkoff o = k - o := by omega
    rw [byteAt, byteAt, changed, if_pos here]
    simp only [splice, position, distance]
    split_ifs with inside
    · rfl
    · rw [cleared (by omega), here]
  · have outside : ¬ (o ≤ k ∧ k < o + n) := by omega
    rw [byteAt, byteAt, changed, if_neg here, if_neg outside]

lemma writeLoop_bytes (u_ruid fuel : Nat) (data : Nat → UInt8) (nonempty : 0 < n)
    (enough : n ≤ fuel) (limit : o + n < 2 ^ 31) (signed : v.fs.fs_fsize ≤ 2 ^ 31)
    (holds : Holds v list (owned v ip.i_addr)) :
    ∃ err uio' ip' v' list', writeLoop u_ruid fuel data v ip ⟨o, n⟩ = (err, uio', ip', v') ∧
      Moves v list (owned v ip.i_addr) v' list' (owned v' ip'.i_addr) ∧
      fmt ip' = fmt ip ∧ ip'.ipipe = ip.ipipe ∧
      ((err = some .enospc ∧ list.length ≤ 4 * rounds o n) ∨
        (err = none ∧ ip'.i_size = max ip.i_size (o + n : Nat) ∧ ∀ k, byteAt v' ip'.i_addr k =
            if o ≤ k ∧ k < o + n then data (k - o) else byteAt v ip.i_addr k)) := by
  induction fuel generalizing data v ip o n list with
  | zero => omega
  | succ fuel ih =>
    have offset : ofInt32 o = o := ofInt32_nat (by omega)
    have below : blkoff o < DEV_BSIZE := Nat.mod_lt _ (by decide)
    generalize n_eq : min (DEV_BSIZE - blkoff o) n = m
    have small : lblkno o < maxBlocks := lblkno_lt (by omega)
    have sum := wrap_add (show o + m < 2 ^ 31 by omega)
    obtain ⟨mapped, addr', v₁, list₁, call, moves, count, outcome⟩ := bmap_write small
      (decide (m ≠ DEV_BSIZE)) (fun b => splice b _ m data) holds
    simp only [writeLoop, offset, n_eq, call, sum]
    have one : 1 ≤ rounds o n := by
      simp only [rounds, DEV_BSIZE]
      omega
    rcases outcome with ⟨rfl, none_left⟩ | ⟨nb, rfl, good, wrote, old, changed⟩
    · refine ⟨_, _, _, v₁, list₁, rfl, moves, rfl, rfl, .inl ⟨rfl, ?_⟩⟩
      simp only [none_left, length_nil] at count
      omega
    · simp only [block_positive signed good, if_false, Bool.false_eq_true]
      have bytes := round_bytes (by omega) (fun partly => old (by simpa using partly)) changed
      generalize v₁.write nb _ = v₂ at *
      generalize sized : (if ((o + m : Nat) : Int) > ip.i_size then
        { ip with i_size := ((o + m : Nat) : Int), i_addr := addr' } else
        { ip with i_addr := addr' }) = ip₁
      have same : ip₁.i_addr = addr' ∧ fmt ip₁ = fmt ip ∧ ip₁.ipipe = ip.ipipe ∧
          ip₁.i_size = max ip.i_size (o + m : Nat) := by
        rw [← sized]
        split_ifs with longer
        · exact ⟨rfl, rfl, rfl, (max_eq_right longer.le).symm⟩
        · exact ⟨rfl, rfl, rfl, (max_eq_left (not_lt.mp longer)).symm⟩
      have fields : (dropSetid ip₁ u_ruid).i_addr = addr' ∧ fmt (dropSetid ip₁ u_ruid) = fmt ip ∧
          (dropSetid ip₁ u_ruid).ipipe = ip.ipipe ∧
          (dropSetid ip₁ u_ruid).i_size = max ip.i_size (o + m : Nat) := by
        refine ⟨by rw [addr_dropSetid, same.1], by rw [fmt_dropSetid, same.2.1], ?_, ?_⟩
        · rw [← same.2.2.1, dropSetid]
          split_ifs <;> rfl
        · rw [← same.2.2.2, dropSetid]
          split_ifs <;> rfl
      generalize dropSetid ip₁ u_ruid = ip₂ at fields ⊢
      obtain ⟨address, type, pipe, size⟩ := fields
      have step := wrote.of_eq rfl (congrArg _ address)
      split_ifs with done
      · have all : m = n := by omega
        refine ⟨_, _, ip₂, v₂, list₁, rfl, step, type, pipe, .inr ⟨rfl, ?_, ?_⟩⟩
        · rw [size, all]
        · intro k
          rw [address, bytes, all]
      · have full : m = DEV_BSIZE - blkoff o := by omega
        have later : rounds o n = rounds (o + m) (n - m) + 1 := by
          simp only [rounds, blkoff, DEV_BSIZE] at full ⊢
          omega
        obtain ⟨err, uio', ip', v', list', loop, rest, type', pipe', result⟩ :=
          ih _ (o := o + m) (n := n - m) (by omega) (by omega) (by omega)
            (by rw [wrote.size.2]; exact signed) (step.holds holds)
        refine ⟨err, uio', ip', v', list', loop, step.trans rest, type'.trans type,
          pipe'.trans pipe, ?_⟩
        rcases result with ⟨failed, few⟩ | ⟨done, size', bytes'⟩
        · exact .inl ⟨failed, by omega⟩
        · refine .inr ⟨done, ?_, ?_⟩
          · rw [size', size]
            omega
          · intro k
            rw [bytes', address, bytes]
            by_cases second : o + m ≤ k ∧ k < o + m + (n - m)
            · have distance : m + (k - (o + m)) = k - o := by omega
              rw [if_pos second, if_pos (by omega), distance]
            · rw [if_neg second]
              by_cases first : o ≤ k ∧ k < o + m
              · rw [if_pos first, if_pos (by omega)]
              · rw [if_neg first, if_neg (by omega)]

/-- A regular file, a directory or a symbolic link. -/
def Plain (ip : Inode) : Prop := fmt ip = IFREG ∨ fmt ip = IFDIR ∨ fmt ip = IFLNK

/-- A write within the limits reaches the loop. -/
lemma rwipWrite_eq {r : Request} (data : Nat → UInt8) (plain : Plain ip)
    (sized : ip.i_size = size) (low : 0 ≤ r.uio.uio_offset) (nonempty : 0 < r.uio.uio_resid)
    (limit : start (regular ip) size r + r.uio.uio_resid < 2 ^ 31) (permitted : regular ip = true →
      ((start (regular ip) size r + r.uio.uio_resid : Nat) : Int) ≤ r.rlim_cur ∧ r.rlim_cur < 2 ^ 31 ∧
      (ip.append = true → (start (regular ip) size r : Int) = ip.i_size)) :
    rwipWrite v ip r data = writeLoop r.u_ruid r.uio.uio_resid data v ip
      ⟨start (regular ip) size r, r.uio.uio_resid⟩ := by
  have transfer : (if fmt ip = IFREG ∧ r.io_append = true then
      { r.uio with uio_offset := ip.i_size } else r.uio) =
      ⟨start (regular ip) size r, r.uio.uio_resid⟩ := by
    simp only [start, regular, decide_eq_true_eq]
    split_ifs
    · rw [sized]
    · simp [Int.toNat_of_nonneg low]
  have notDevice : ¬ (fmt ip = IFCHR ∨ fmt ip = IFBLK) := by
    rcases plain with type | type | type <;> simp [type]
  have known : fmt ip = IFREG ∨ fmt ip = IFDIR ∨ fmt ip = IFLNK ∨ fmt ip = IFBLK ∨
      fmt ip = IFCHR := by
    rcases plain with type | type | type <;> simp [type]
  have some : ¬ r.uio.uio_resid = 0 := by omega
  generalize start _ size r = o at *
  have appends : ¬ (fmt ip = IFREG ∧ ip.append = true ∧ o ≠ ip.i_size) := by
    rintro ⟨type, flag, elsewhere⟩
    exact elsewhere ((permitted (by simp [regular, type])).2.2 flag)
  have allowed : ¬ (fmt ip = IFREG ∧
      (ofInt32 o + r.uio.uio_resid) % 2 ^ 32 > ofInt32 r.rlim_cur) := by
    rintro ⟨type, beyond⟩
    obtain ⟨low, high, _⟩ := permitted (by simp [regular, type])
    rw [ofInt32_nat (by omega)] at beyond
    simp only [ofInt32] at beyond
    omega
  simp only [rwipWrite, transfer, appends, known, notDevice, some, allowed, if_false, not_true]

lemma itrunc_eq (pipe : ip.ipipe = false) (length : Nat) : itrunc v ip length =
    if ofInt32 ip.i_size = length then (ip, v)
    else if ofInt32 ip.i_size < length then
      let r := bmap v ip (lblkno (length - 1)) .write true
      if r.1.failed then r.2 else ({ r.2.1 with i_size := toInt32 length }, r.2.2)
    else if blkoff length = 0 then shorten v ip length
    else shortenInside v ip length := by
  simp [itrunc, pipe]

lemma blocksOf_eq (limit : length < 2 ^ 31) :
    blocksOf length = if blkoff length = 0 then lblkno length else lblkno length + 1 := by
  split_ifs <;> simp only [blocksOf, lblkno, blkoff, DEV_BSIZE] at * <;> omega

/-- Truncation of the blocks of a file, byte by byte. -/
lemma cut_bytes {v' : Vol} {addr' : Nat → Nat} (limit : length < 2 ^ 31)
    (left : ∀ n, content v' addr' n = if n < blocksOf length then
        (if n = lblkno length then zeroFrom (content v ip.i_addr n) (blkoff length)
          else content v ip.i_addr n)
      else zeroBlock) (k : Nat) :
    byteAt v' addr' k = if k < length then byteAt v ip.i_addr k else 0 := by
  obtain ⟨wholeK, belowK⟩ := offset_parts k
  obtain ⟨wholeL, belowL⟩ := offset_parts length
  simp only [DEV_BSIZE] at *
  rw [byteAt, byteAt, left, blocksOf_eq limit]
  by_cases inside : k < length
  · have before : lblkno k < if blkoff length = 0 then lblkno length else lblkno length + 1 := by
      split_ifs <;> omega
    rw [if_pos before]
    split_ifs with here
    · have front : ¬ (blkoff length ≤ blkoff k ∧ blkoff k < DEV_BSIZE) := by omega
      rw [zeroFrom, if_neg front]
    · rfl
  · rw [if_neg inside]
    by_cases before : lblkno k < if blkoff length = 0 then lblkno length else lblkno length + 1
    · have here : lblkno k = lblkno length := by split_ifs at before <;> omega
      have back : blkoff length ≤ blkoff k ∧ blkoff k < DEV_BSIZE := by
        simp only [DEV_BSIZE]
        omega
      rw [if_pos before, if_pos here, zeroFrom, if_pos back]
    · rw [if_neg before]
      rfl

/-- `itrunc` byte by byte, for anything but a pipe. -/
lemma itrunc_bytes (sized : ip.i_size = size) (pipe : ip.ipipe = false)
    (small : size < 2 ^ 31) (limit : length < 2 ^ 31) (signed : v.fs.fs_fsize ≤ 2 ^ 31)
    (holds : Holds v list (owned v ip.i_addr)) : ∃ size' addr' v' list', itrunc v ip length =
        ({ ip with i_size := size', i_addr := addr' }, v') ∧
      Moves v list (owned v ip.i_addr) v' list' (owned v' addr') ∧
      ((itruncError v ip length = some .enospc ∧ list.length ≤ 4) ∨
        (itruncError v ip length = none ∧ size' = length ∧ ∀ k, byteAt v' addr' k =
            if k < length ∨ size ≤ length then byteAt v ip.i_addr k else 0)) := by
  have length_eq : toInt32 length = length := toInt32_nat limit
  have whole : ofInt32 ip.i_size = size := by rw [sized, ofInt32_nat small]
  rcases Nat.lt_trichotomy size length with longer | same | shorter
  · obtain ⟨m, addr', v', list', call, moves, grows, given, count, _⟩ :=
      bmap_spec ip (lblkno (length - 1)) true holds
    have few := needed_le v ip.i_addr (lblkno (length - 1))
    have notSame : ¬ size = length := by omega
    have always : ∀ k, k < length ∨ size ≤ length := fun k => .inr (by omega)
    rcases given (lblkno_lt (by omega)) with ⟨rfl, found⟩ | ⟨rfl, none_left⟩
    · have good := (moves.holds holds).good _ (lookup_mem found)
      rw [badblock_size moves.size] at good
      refine ⟨length, addr', v', list', ?_, moves, .inr ⟨?_, rfl, ?_⟩⟩
      · simp [itrunc_eq pipe, whole, notSame, longer, call, block_positive signed good, length_eq]
      · simp [itruncError, whole, notSame, longer, call]
      · intro k
        rw [if_pos (always k), byteAt, grows.content (.inr rfl), byteAt]
    · refine ⟨ip.i_size, addr', v', list', ?_, moves, .inl ⟨?_, ?_⟩⟩
      · simp [itrunc_eq pipe, whole, notSame, longer, call, Mapped.failed]
      · simp [itruncError, whole, notSame, longer, call]
      · simp only [none_left, length_nil] at count
        omega
  · refine ⟨ip.i_size, ip.i_addr, v, list, ?_, .refl holds.stock, .inr ⟨?_, ?_, ?_⟩⟩
    · simp [itrunc_eq pipe, whole, same]
    · simp [itruncError, whole, same]
    · rw [sized, same]
    · intro k
      rw [if_pos (.inr (by omega))]
  · have notSame : ¬ size = length := by omega
    have notLonger : ¬ size < length := by omega
    have kept : ∀ k, (k < length ∨ size ≤ length) ↔ k < length := fun k => by omega
    by_cases aligned : blkoff length = 0
    · obtain ⟨addr', v', list', call, moves, trims⟩ := shorten_spec ip length holds
      refine ⟨length, addr', v', list', ?_, moves, .inr ⟨?_, rfl, ?_⟩⟩
      · simp [itrunc_eq pipe, whole, notSame, notLonger, aligned, call, length_eq]
      · simp [itruncError, whole, notSame, notLonger, aligned]
      · intro k
        simp only [kept]
        apply cut_bytes limit
        intro n
        rw [trims.content n]
        split_ifs with before here
        · rw [blocksOf_eq limit, if_pos aligned] at before
          omega
        · rfl
        · rfl
    · obtain ⟨m, addr₁, v₁, list₁, call, moves, count, outcome⟩ :=
        shorten_partial ip (by omega : length < 2 ^ 32) holds
      rcases outcome with ⟨rfl, none_left⟩ | ⟨nb, rfl, good, addr', v', list', short, moves', left⟩
      · refine ⟨ip.i_size, addr₁, v₁, list₁, ?_, moves, .inl ⟨?_, ?_⟩⟩
        · simp [itrunc_eq pipe, whole, notSame, notLonger, aligned, shortenInside, call]
        · simp [itruncError, whole, notSame, notLonger, aligned, call]
        · simp only [none_left, length_nil] at count
          omega
      · refine ⟨length, addr', v', list', ?_, moves', .inr ⟨?_, rfl, ?_⟩⟩
        · simp [itrunc_eq pipe, whole, notSame, notLonger, aligned, shortenInside, call,
            block_positive signed good, short, length_eq]
        · simp [itruncError, whole, notSame, notLonger, aligned, call]
        · intro k
          simp only [kept]
          exact cut_bytes limit left k

/-- The buffer that `rwip` reads from. -/
lemma bmap_content (bn : Nat) (small : bn < maxBlocks) (signed : v.fs.fs_fsize ≤ 2 ^ 31)
    (holds : Holds v list (owned v ip.i_addr)) :
    ∃ m, (bmap v ip bn .read false).1 = m ∧ m ≠ .efbig ∧ (match m with
        | .block nb => if m.failed then zeroBlock else v.disk nb
        | _ => zeroBlock) = content v ip.i_addr bn := by
  refine ⟨_, rfl, ?_⟩
  rw [bmap_read v ip small]
  by_cases absent : lookup v ip.i_addr bn = 0
  · simp only [absent, if_true]
    refine ⟨by simp, ?_⟩
    rw [content_eq, if_pos absent]
  · have good := holds.good _ (lookup_mem absent)
    simp only [absent, if_false, block_positive signed good, content_lookup absent]
    exact ⟨by simp, rfl⟩

lemma readLoop_bytes (fuel : Nat) (nonempty : 0 < n) (enough : n ≤ fuel)
    (sized : ip.i_size = size) (small : size < 2 ^ 31) (limit : o < 2 ^ 31)
    (signed : v.fs.fs_fsize ≤ 2 ^ 31) (holds : Holds v list (owned v ip.i_addr)) :
    (readLoop v ip fuel ⟨o, n⟩).2.1 =
      (List.range (min n (size - o))).map (fun i => byteAt v ip.i_addr (o + i)) := by
  induction fuel generalizing o n with
  | zero => omega
  | succ fuel ih =>
    have offset : ofInt32 o = o := ofInt32_nat limit
    have diff : wrap (size - o) = size - o := wrap_eq (by omega) (by omega)
    by_cases past : size ≤ o
    · have nothing : (size : Int) - o ≤ 0 := by omega
      have zero : size - o = 0 := by omega
      simp [readLoop, sized, diff, nothing, zero]
    · have more : ¬ (size : Int) - o ≤ 0 := by omega
      have left : ((size : Int) - o).toNat = size - o := by omega
      have below : blkoff o < DEV_BSIZE := Nat.mod_lt _ (by decide)
      generalize n_eq : min (min (DEV_BSIZE - blkoff o) n) (size - o) = m
      have positive : ¬ m = 0 := by omega
      obtain ⟨mapped, call, found, buffer⟩ :=
        bmap_content (lblkno o) (lblkno_lt (by omega)) signed holds
      have moved : (range m).map (fun k => content v ip.i_addr (lblkno o) (blkoff o + k)) =
          (range m).map (fun i => byteAt v ip.i_addr (o + i)) := by
        apply map_congr_left
        intro i hi
        have hi := mem_range.mp hi
        have block : lblkno (o + i) = lblkno o ∧ blkoff (o + i) = blkoff o + i := by
          simp only [lblkno, blkoff, DEV_BSIZE] at *
          omega
        rw [byteAt, block.1, block.2]
      have sum := wrap_add (show o + m < 2 ^ 31 by omega)
      have step : (readLoop v ip (fuel + 1) ⟨o, n⟩).2.1 =
          (range m).map (fun i => byteAt v ip.i_addr (o + i)) ++
            (if n - m = 0 then [] else (readLoop v ip fuel ⟨(o + m : Nat), n - m⟩).2.1) := by
        rw [← moved, ← buffer]
        simp only [readLoop, offset, sized, diff, more, if_false, left, n_eq, call, sum, positive,
          or_false]
        cases mapped with
        | efbig => exact absurd rfl found
        | block nb => split_ifs <;> simp
        | missing => split_ifs <;> simp
      rw [step]
      split_ifs with done
      · have all : min n (size - o) = m := by omega
        rw [all, append_nil]
      · rw [ih (by omega) (by omega) (by omega)]
        have split : min n (size - o) = m + min (n - m) (size - (o + m)) := by omega
        rw [split, range_add, map_append, map_map]
        congr 1
        apply map_congr_left
        intro i _
        rw [Function.comp, add_assoc]

end Calls

/-! ## The image and the file -/

/-- An image in good order, and an inode of it for a file, a directory or a link. -/
structure Ready (s : Image) (ino : Nat) (list : List Nat) : Prop where
  account : Accounted s list
  number : ino ∈ numbers s.vol.fs
  plain : Plain (s.inodes ino)
  pipe : (s.inodes ino).ipipe = false
  signed : s.vol.fs.fs_fsize ≤ 2 ^ 31

lemma plain_file {ip : Inode} (plain : Plain ip) : ip.i_mode ≠ 0 ∧ special ip = false := by
  constructor
  · intro zero
    rcases plain with type | type | type <;> simp [fmt, zero] at type
  · rcases plain with type | type | type <;> simp [special, type]

lemma Plain.congr {ip ip' : Inode} (plain : Plain ip) (same : fmt ip' = fmt ip) : Plain ip' := by
  simpa only [Plain, same] using plain

variable {s : Image} {ino : Nat} {list : List Nat} {f : File}

lemma Ready.holds (ready : Ready s ino list) :
    Holds s.vol list (owned s.vol (s.inodes ino).i_addr) := by
  obtain ⟨used, file⟩ := plain_file ready.plain
  have split := Finset.add_sum_erase _ (fun i => refs s.vol (s.inodes i)) ready.number
  have holds := ready.account.holds
  rw [claimed, ← split, refs_file used file] at holds
  exact holds.left

/-- A call that moves blocks keeps the image in order. -/
lemma Ready.put (ready : Ready s ino list) {ip' : Inode} {v' : Vol} {list' : List Nat}
    (moves : Moves s.vol list (owned s.vol (s.inodes ino).i_addr) v' list' (owned v' ip'.i_addr))
    (type : fmt ip' = fmt (s.inodes ino)) (pipe : ip'.ipipe = (s.inodes ino).ipipe) :
    Ready (BlockOwnership.put s ino (ip', v')) ino list' := by
  obtain ⟨used, file⟩ := plain_file ready.plain
  have plain' : Plain ip' := ready.plain.congr type
  obtain ⟨used', file'⟩ := plain_file plain'
  have number : ino ∈ numbers v'.fs := by simpa only [numbers, moves.size.1] using ready.number
  refine ⟨accounted_put ready.number ready.account (moves.of_eq (refs_file used file)
    (refs_file used' file')), number, ?_, ?_, ?_⟩
  · simpa only [BlockOwnership.put, update_self] using plain'
  · simpa only [BlockOwnership.put, update_self, pipe] using ready.pipe
  · simpa only [BlockOwnership.put, moves.size.2] using ready.signed

/-- More than enough free blocks for a call. -/
def need : Call → Nat
  | .write r _ => 4 * (r.uio.uio_resid / DEV_BSIZE + 2)
  | .itrunc _ => 4
  | .read _ => 0

/-- A call on the inode is the call on the file, unless it runs out of blocks. -/
lemma perform_simulates (ready : Ready s ino list) (shows : Shows s ino f) {call : Call}
    (within : Within ino s call) : (∃ list', Ready (perform ino s call).1 ino list') ∧
      fmt ((perform ino s call).1.inodes ino) = fmt (s.inodes ino) ∧
      ((RunsOut ino s call ∧ list.length ≤ need call) ∨ (¬ RunsOut ino s call ∧
          Shows (perform ino s call).1 ino (act (regular (s.inodes ino)) f call).1 ∧
          (perform ino s call).2 = (act (regular (s.inodes ino)) f call).2)) := by
  obtain ⟨sized, small, bytes⟩ := shows
  have holds := ready.holds
  cases call with
  | write r data =>
    obtain ⟨low, nonempty, limit, permitted⟩ := within
    have size : (s.inodes ino).i_size.toNat = f.size := by omega
    rw [size] at limit permitted
    have loop := rwipWrite_eq (v := s.vol) data ready.plain sized low nonempty limit permitted
    generalize start_eq : start _ f.size r = o at *
    obtain ⟨err, uio', ip', v', list', call, moves, type, pipe, outcome⟩ :=
      writeLoop_bytes r.u_ruid r.uio.uio_resid data nonempty le_rfl limit ready.signed holds
    have result : rwipWrite s.vol (s.inodes ino) r data = (err, uio', ip', v') := loop.trans call
    simp only [perform, exec, result, RunsOut]
    refine ⟨⟨list', ready.put moves type pipe⟩, ?_, ?_⟩
    · simpa only [put, update_self] using type
    · rcases outcome with ⟨rfl, few⟩ | ⟨rfl, size', bytes'⟩
      · refine .inl ⟨rfl, ?_⟩
        simp only [need, rounds, blkoff, DEV_BSIZE] at few ⊢
        omega
      · refine .inr ⟨by simp, ⟨?_, ?_, ?_⟩, rfl⟩
        · simp only [put, update_self, act, File.write, start_eq, size', sized]
          omega
        · simp only [act, File.write, start_eq]
          omega
        · intro k
          simp only [put, update_self, act, File.write, start_eq, bytes', bytes]
          split_ifs <;> first | rfl | omega
  | itrunc length =>
    obtain ⟨size', addr', v', list', call, moves, outcome⟩ :=
      itrunc_bytes sized ready.pipe small within ready.signed holds
    simp only [perform, exec, call, RunsOut]
    refine ⟨⟨list', ready.put moves rfl rfl⟩, ?_, ?_⟩
    · simp [put, fmt]
    · rcases outcome with ⟨failed, few⟩ | ⟨done, rfl, bytes'⟩
      · exact .inl ⟨failed, few⟩
      · refine .inr ⟨by simp [done], ⟨?_, ?_, ?_⟩, rfl⟩
        · simp [put, act, File.trunc]
        · exact within
        · intro k
          simp only [put, update_self, act, File.trunc, bytes', bytes, lt_min_iff]
          by_cases inside : k < length
          · simp [inside]
          · by_cases held : k < f.size
            · simp [inside, held]
              omega
            · simp [inside, held]
  | read uio =>
    obtain ⟨low, high⟩ := within
    refine ⟨⟨list, ready⟩, rfl, .inr ⟨fun h => h, ⟨sized, small, bytes⟩, ?_⟩⟩
    obtain ⟨o, ho⟩ : ∃ o : Nat, uio.uio_offset = o := ⟨uio.uio_offset.toNat, by omega⟩
    have shape : uio = ⟨o, uio.uio_resid⟩ := by rw [← ho]
    by_cases empty : uio.uio_resid = 0
    · simp [perform, rwipRead, empty, act, File.read]
    · have loop := readLoop_bytes uio.uio_resid (o := o) (by omega)
        le_rfl sized small (by omega) ready.signed holds
      rw [← shape] at loop
      simp only [perform, rwipRead, empty, if_false, loop, act, File.read, ho, Int.toNat_natCast]
      apply map_congr_left
      intro i hi
      have hi := mem_range.mp hi
      rw [bytes, if_pos (by omega)]

lemma smallImage_shows : Shows smallImage 3 ⟨0, fun _ => 0⟩ := by
  refine ⟨rfl, by decide, ?_⟩
  intro k
  have nothing : content smallImage.vol (smallImage.inodes 3).i_addr (lblkno k) = zeroBlock := by
    have unused : ∀ t, (smallImage.inodes 3).i_addr t = 0 := fun _ => rfl
    simp only [content]
    cases place _ with
    | none => rfl
    | some p => simp [unused]
  rw [byteAt, nothing]
  rfl

/-- The small volume with its one block under inode 3, a file of one byte with other
bytes behind it. -/
def staleImage : Image :=
  ⟨⟨{ smallFs with fs_nfree := 0 }, fun _ _ => 1⟩,
    update (fun _ => freeInode) 3
      { freeInode with
        i_mode := 0o100644
        i_nlink := 1
        i_count := 1
        i_size := 1
        i_addr := fun s => if s = 0 then 2 else 0 }⟩

lemma staleImage_consistent : Consistent staleImage ∧ Filled staleImage := by
  constructor
  · refine ⟨[], ⟨by decide, .empty, by decide, by decide, by decide, by decide⟩, ?_⟩
    rfl
  · intro filled
    exact absurd filled (by decide)

end FileContents
