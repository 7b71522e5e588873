import RetroBSD.PointerTrees
import RetroBSD.Volumes

/-!
# Blocks of files

`bmap` of `sys/kernel/ufs_bmap.c`, `indirtrunc` and `itrunc` of
`sys/kernel/ufs_inode.c` and `rwip` of `sys/kernel/sys_inode.c`.

No transfer fails, and `u_error` is clear when a call begins. The contents of
blocks are those seen through the buffer cache, so the choice among `bwrite`,
`bawrite` and `bdwrite` and the read-ahead block are left out, as are the times
and flags of an inode other than `IPIPE` and `APPEND`. `uiomove` never reports an
error, so the branch of `rwip` for `IO_UNIT`, which only an error reaches, is
left out too. An inode for a device keeps its device number in the addresses;
what `rwip` does with one is the business of its driver.
-/

namespace BlockMap

open Words FreeList Volumes

abbrev DEV_BSIZE : Nat := 1024
abbrev NDADDR : Nat := 4
abbrev NADDR : Nat := 7
abbrev NINDIR : Nat := 256
abbrev MAXPIPSIZ : Nat := NDADDR * DEV_BSIZE

abbrev IFMT : Nat := 0o170000
abbrev IFCHR : Nat := 0o020000
abbrev IFDIR : Nat := 0o040000
abbrev IFBLK : Nat := 0o060000
abbrev IFREG : Nat := 0o100000
abbrev IFLNK : Nat := 0o120000

structure Inode where
  i_mode : Nat
  i_nlink : Nat
  i_count : Nat
  /-- The flag `IPIPE` of `i_flag`. -/
  ipipe : Bool
  /-- The flag `APPEND` of `i_flags`. -/
  append : Bool
  i_size : Int
  i_addr : Nat → Nat

def fmt (ip : Inode) : Nat := ip.i_mode &&& IFMT

def lblkno (loc : Nat) : Nat := loc / DEV_BSIZE

def blkoff (loc : Nat) : Nat := loc % DEV_BSIZE

/-- Reduction of a sum to `off_t`. -/
def wrap (i : Int) : Int := toInt32 (ofInt32 i)

/-! ## bmap -/

inductive Rw where
  | read
  | write
  deriving DecidableEq

/-- What `bmap` returns: a block number, -1 or 0. On a write -1 comes with ENOSPC. -/
inductive Mapped where
  | block (nb : Nat)
  | missing
  | efbig
  deriving DecidableEq

/-- An address of the inode, allocated if it is missing. -/
def fetchAddr (v : Vol) (ip : Inode) (i : Nat) (rwflg : Rw) (clr : Bool) : Mapped × Inode × Vol :=
  let nb := ip.i_addr i
  if nb ≠ 0 then (.block nb, ip, v)
  else if rwflg = .read then (.missing, ip, v)
  else
    match v.balloc clr with
    | (none, v) => (.missing, ip, v)
    | (some nb, v) => (.block nb, { ip with i_addr := Function.update ip.i_addr i nb }, v)

/-- The loop that counts the levels of indirection; `none` is `j == 0`. -/
def levels : Nat → Nat → Nat → Option (Nat × Nat)
  | 0, _, _ => none
  | j + 1, nb, bn =>
    let nb := nb * NINDIR
    if bn < nb then some (j + 1, bn) else levels j nb (bn - nb)

/-- The loop through the indirect blocks with `l` of them to go. -/
def fetch (rwflg : Rw) (bn : Nat) : Nat → Nat → Vol → Mapped × Vol
  | 0, nb, v => (.block nb, v)
  | l + 1, nb, v =>
    let i := bn / NINDIR ^ l % NINDIR
    let next := word (v.disk nb) i
    if next ≠ 0 then fetch rwflg bn l next v
    else if rwflg = .read then (.missing, v)
    else
      match v.balloc true with
      | (none, v) => (.missing, v)
      | (some b, v) => fetch rwflg bn l b (v.write nb (setWord (v.disk nb) i b))

/-- The first indirect block, and from there through `l` indirect blocks. -/
def fetchFrom (v : Vol) (ip : Inode) (i l bn : Nat) (rwflg : Rw) (clr : Bool) :
    Mapped × Inode × Vol :=
  match fetchAddr v ip i rwflg clr with
  | (.block nb, ip, v) =>
    let r := fetch rwflg bn l nb v
    (r.1, ip, r.2)
  | failed => failed

/-- `clr` is the flag `B_CLRBUF`. -/
def bmap (v : Vol) (ip : Inode) (bn : Int) (rwflg : Rw) (clr : Bool) : Mapped × Inode × Vol :=
  if bn < 0 then (.efbig, ip, v)
  else if bn < NADDR - 3 then fetchAddr v ip bn.toNat rwflg clr
  else
    match levels 3 1 (bn.toNat - (NADDR - 3)) with
    | none => (.efbig, ip, v)
    | some (j, bn) => fetchFrom v ip (NADDR - j) (4 - j) bn rwflg true

/-- The test `u.u_error || bn < 0`; a block number is a signed long. -/
def Mapped.failed : Mapped → Bool
  | .block nb => decide (2 ^ 31 ≤ nb)
  | _ => true

/-! ## itrunc -/

/-- `bzero` from an offset to the end of the block. -/
def zeroFrom (b : Block) (offset : Nat) : Block :=
  fun k => if offset ≤ k ∧ k < DEV_BSIZE then 0 else b k

/-- The indices that the loops of `trsingle` and `indirtrunc` go through. -/
def after (last : Int) : List Nat :=
  (List.range' (last + 1).toNat (NINDIR - (last + 1).toNat)).reverse

def trsingle (v : Vol) (cpy : Block) (last : Int) : Vol :=
  (after last).foldl (fun v i => if word cpy i ≠ 0 then v.free (word cpy i) else v) v

/-- Level 0 is SINGLE. -/
def indirtrunc : Nat → Vol → Nat → Int → Vol
  | 0, v, bn, lastbn =>
    let cpy := v.disk bn
    trsingle (v.write bn (zeroFrom cpy (4 * (lastbn + 1).toNat))) cpy lastbn
  | level + 1, v, bn, lastbn =>
    let factor := NINDIR ^ (level + 1)
    let last := if lastbn > 0 then lastbn / factor else lastbn
    let cpy := v.disk bn
    let v := v.write bn (zeroFrom cpy (4 * (last + 1).toNat))
    let v := (after last).foldl (fun v i =>
      if word cpy i ≠ 0 then (indirtrunc level v (word cpy i) (-1)).free (word cpy i) else v) v
    if lastbn ≥ 0 ∧ word cpy last.toNat ≠ 0 then
      indirtrunc level v (word cpy last.toNat) (lastbn % factor)
    else v

/-- `lastiblock`, after it is normalized to -1. -/
def lastiblock (lastblock : Int) (level : Nat) : Int :=
  max (-1) (match level with
    | 0 => lastblock - NDADDR
    | 1 => lastblock - NDADDR - NINDIR
    | _ => lastblock - NDADDR - NINDIR - NINDIR * NINDIR)

/-- The loop over the direct blocks, from `i - 1` down. -/
def freeDirect (v : Vol) (addr : Nat → Nat) (lastblock : Int) : Nat → Vol
  | 0 => v
  | i + 1 =>
    if (i : Int) > lastblock then
      freeDirect (if addr i ≠ 0 then v.free (addr i) else v) addr lastblock i
    else v

/-- The loop over the levels of indirection, from `level - 1` down, and what follows. -/
def freeLevels (v : Vol) (addr : Nat → Nat) (lastblock : Int) : Nat → Vol
  | 0 => freeDirect v addr lastblock NDADDR
  | level + 1 =>
    let bn := addr (NDADDR + level)
    let last := lastiblock lastblock level
    let v := if bn ≠ 0 then
        let v := indirtrunc level v bn last
        if last < 0 then v.free bn else v
      else v
    if last ≥ 0 then v else freeLevels v addr lastblock level

/-- The addresses that stay in the inode. -/
def keepAddr (addr : Nat → Nat) (lastblock : Int) : Nat → Nat :=
  fun s =>
    if s < NDADDR then (if (s : Int) > lastblock then 0 else addr s)
    else if lastiblock lastblock (s - NDADDR) < 0 then 0 else addr s

/-- The part of `itrunc` that follows the zeroing of the partial block. -/
def shorten (v : Vol) (ip : Inode) (length : Nat) : Inode × Vol :=
  let lastblock : Int := (lblkno ((length + DEV_BSIZE - 1) % 2 ^ 32) : Int) - 1
  ({ ip with i_size := toInt32 length, i_addr := keepAddr ip.i_addr lastblock },
    freeLevels v ip.i_addr lastblock 3)

/-- To a length inside a block; the rest of the block is zeroed first. -/
def shortenInside (v : Vol) (ip : Inode) (length : Nat) : Inode × Vol :=
  match bmap v ip (lblkno length) .write true with
  | (.block bn, ip, v) =>
    if (Mapped.block bn).failed then (ip, v)
    else shorten (v.write bn (zeroFrom (v.disk bn) (blkoff length))) ip length
  | (_, ip, v) => (ip, v)

def itrunc (v : Vol) (ip : Inode) (length : Nat) : Inode × Vol :=
  let ip := if ip.ipipe then { ip with i_size := MAXPIPSIZ } else ip
  if ip.ipipe = false ∧ ofInt32 ip.i_size = length then (ip, v)
  else if ofInt32 ip.i_size < length then
    let r := bmap v ip (lblkno (length - 1)) .write true
    if r.1.failed then r.2
    else ({ r.2.1 with i_size := toInt32 length }, r.2.2)
  else if blkoff length = 0 then shorten v ip length
  else shortenInside v ip length

/-! ## rwip -/

inductive Errno where
  | eperm
  | eftype
  | efbig
  | enospc
  deriving DecidableEq

structure Uio where
  uio_offset : Int
  uio_resid : Nat

/-- A transfer, and what `rwip` reads of the process that asks for it. -/
structure Request where
  uio : Uio
  io_append : Bool
  rlim_cur : Int
  u_ruid : Nat

/-- The bytes of a block from `on`, `n` of them, replaced by those of `data`. -/
def splice (b : Block) (on n : Nat) (data : Nat → UInt8) : Block :=
  fun k => if on ≤ k ∧ k < on + n then data (k - on) else b k

/-- `i_mode &= ~(ISUID|ISGID)` -/
def dropSetid (ip : Inode) (u_ruid : Nat) : Inode :=
  if u_ruid ≠ 0 then { ip with i_mode := ip.i_mode &&& 0o171777 } else ip

/-- The loop of `rwip` for a write to a file, a directory or a symbolic link. `data`
starts at the next byte to be moved. Every round moves a byte at least. -/
def writeLoop (u_ruid : Nat) : Nat → (Nat → UInt8) → Vol → Inode → Uio →
    Option Errno × Uio × Inode × Vol
  | 0, _, v, ip, uio => (none, uio, ip, v)
  | fuel + 1, data, v, ip, uio =>
    let lbn := lblkno (ofInt32 uio.uio_offset)
    let on := blkoff (ofInt32 uio.uio_offset)
    let n := min (DEV_BSIZE - on) uio.uio_resid
    match bmap v ip lbn .write (decide (n ≠ DEV_BSIZE)) with
    | (.missing, ip, v) => (some .enospc, uio, ip, v)
    | (.efbig, ip, v) => (some .efbig, uio, ip, v)
    | (.block bn, ip, v) =>
      if (Mapped.block bn).failed then (none, uio, ip, v)
      else
        let ip := if wrap (uio.uio_offset + n) > ip.i_size then
          { ip with i_size := wrap (uio.uio_offset + n) } else ip
        let v := v.write bn (splice (v.disk bn) on n data)
        let uio := ⟨wrap (uio.uio_offset + n), uio.uio_resid - n⟩
        let ip := dropSetid ip u_ruid
        if uio.uio_resid = 0 then (none, uio, ip, v)
        else writeLoop u_ruid fuel (fun k => data (n + k)) v ip uio

/-- `rwip` with UIO_WRITE. -/
def rwipWrite (v : Vol) (ip : Inode) (r : Request) (data : Nat → UInt8) :
    Option Errno × Uio × Inode × Vol :=
  let type := fmt ip
  let uio := if type = IFREG ∧ r.io_append then { r.uio with uio_offset := ip.i_size } else r.uio
  if type = IFREG ∧ ip.append ∧ uio.uio_offset ≠ ip.i_size then (some .eperm, uio, ip, v)
  else if ¬ (type = IFREG ∨ type = IFDIR ∨ type = IFLNK ∨ type = IFBLK ∨ type = IFCHR) then
    (some .eftype, uio, ip, v)
  else if type = IFCHR ∨ type = IFBLK then (none, uio, ip, v)
  else if uio.uio_resid = 0 then (none, uio, ip, v)
  else if type = IFREG ∧
      (ofInt32 uio.uio_offset + uio.uio_resid) % 2 ^ 32 > ofInt32 r.rlim_cur then
    (some .efbig, uio, ip, v)
  else writeLoop r.u_ruid uio.uio_resid data v ip uio

/-- The loop of `rwip` for a read: the error, the bytes moved and the rest of the
transfer. -/
def readLoop (v : Vol) (ip : Inode) : Nat → Uio → Option Errno × List UInt8 × Uio
  | 0, uio => (none, [], uio)
  | fuel + 1, uio =>
    let lbn := lblkno (ofInt32 uio.uio_offset)
    let on := blkoff (ofInt32 uio.uio_offset)
    let diff := wrap (ip.i_size - uio.uio_offset)
    if diff ≤ 0 then (none, [], uio)
    else
      let n := min (min (DEV_BSIZE - on) uio.uio_resid) diff.toNat
      match (bmap v ip lbn .read false).1 with
      | .efbig => (some .efbig, [], uio)
      | mapped =>
        let bp := match mapped with
          | .block bn => if mapped.failed then zeroBlock else v.disk bn
          | _ => zeroBlock
        let moved := (List.range n).map (fun k => bp (on + k))
        let uio := ⟨wrap (uio.uio_offset + n), uio.uio_resid - n⟩
        if uio.uio_resid = 0 ∨ n = 0 then (none, moved, uio)
        else
          let rest := readLoop v ip fuel uio
          (rest.1, moved ++ rest.2.1, rest.2.2)

/-- `rwip` with UIO_READ of anything but a device. -/
def rwipRead (v : Vol) (ip : Inode) (uio : Uio) : Option Errno × List UInt8 × Uio :=
  if uio.uio_resid = 0 then (none, [], uio) else readLoop v ip uio.uio_resid uio

end BlockMap
