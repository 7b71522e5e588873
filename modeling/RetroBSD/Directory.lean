import RetroBSD.Words

/-!
# Directories

The format of directories in `sys/include/dir.h`, and from
`sys/kernel/ufs_namei.c` the search of `namei` for the last component of a path,
`direnter`, `dirremove` and `dirrewrite`. A directory is locked from the search
to the end of the change, so no other process is seen.

A directory is its size and its blocks of bytes. What `rwip` and `itrunc` do to
it is given on those; transfers succeed and blocks do not run out. `dirchk` is
zero, as it is initialised. Times and locks are left out.
-/

namespace Directory

open Words

def DIRBLKSIZ : Nat := 1024
def MAXNAMLEN : Nat := 63

/-! ## Entries in a block -/

def u16 (b : Block) (k : Nat) : Nat := (b k).toNat + 256 * (b (k + 1)).toNat

def u32 (b : Block) (k : Nat) : Nat := u16 b k + 65536 * u16 b (k + 2)

def setU16 (b : Block) (k v : Nat) : Block :=
  fun i => if k ≤ i ∧ i < k + 2 then byteOf v (i - k) else b i

/-- The fields of the `struct direct` at offset `k`. -/
def d_ino (b : Block) (k : Nat) : Nat := u32 b k
def d_reclen (b : Block) (k : Nat) : Nat := u16 b (k + 4)
def d_namlen (b : Block) (k : Nat) : Nat := u16 b (k + 6)
def d_name (b : Block) (k : Nat) : List UInt8 := (List.range (d_namlen b k)).map (fun i => b (k + 8 + i))

/-- The space that an entry with a name of the given length needs. -/
def DIRSIZ (namlen : Nat) : Nat := (8 + namlen + 1 + 3) / 4 * 4

/-- `bcopy` within a block, byte by byte in ascending order. -/
def bcopy (b : Block) (src dst : Nat) : Nat → Block
  | 0 => b
  | n + 1 => bcopy (Function.update b dst (b src)) (src + 1) (dst + 1) n

structure Direct where
  d_ino : Nat
  d_reclen : Nat
  d_namlen : Nat
  d_name : Nat → UInt8

def Direct.byte (e : Direct) (i : Nat) : UInt8 :=
  if i < 4 then byteOf e.d_ino i
  else if i < 6 then byteOf e.d_reclen (i - 4)
  else if i < 8 then byteOf e.d_namlen (i - 6)
  else e.d_name (i - 8)

/-- The first `n` bytes of an entry go to offset `k`. -/
def copyIn (b : Block) (k : Nat) (e : Direct) (n : Nat) : Block :=
  fun i => if k ≤ i ∧ i < k + n then e.byte (i - k) else b i

/-! ## The directory as a file -/

/-- The value of an `off_t`, which has 32 bits. -/
def off_t (x : Int) : Int := (x + 2 ^ 31) % 2 ^ 32 - 2 ^ 31

def roundup (x y : Int) : Int := off_t ((off_t (x + (y - 1))).tdiv y * y)

/-- The fields of an inode that matter here. A block that is not there is a hole. -/
structure Dir where
  i_number : Nat
  i_nlink : Nat
  i_size : Int
  blocks : Nat → Option Block

def lblkno (offset : Int) : Nat := (offset / DIRBLKSIZ).toNat
def blkoff (offset : Int) : Nat := (offset % DIRBLKSIZ).toNat

/-- `blkatoff`: the block with the given offset, unless that is a hole. -/
def blkatoff (d : Dir) (offset : Int) : Option Block :=
  if offset < 0 then none else d.blocks (lblkno offset)

def Dir.bwrite (d : Dir) (offset : Int) (b : Block) : Dir :=
  { d with blocks := Function.update d.blocks (lblkno offset) (some b) }

/-- `rdwri` of the first `n` bytes of an entry, which do not cross a block. -/
def rdwri (d : Dir) (e : Direct) (n : Nat) (offset : Int) : Dir :=
  let d := d.bwrite offset (copyIn ((d.blocks (lblkno offset)).getD zeroBlock) (blkoff offset) e n)
  if offset + n > d.i_size then { d with i_size := offset + n } else d

/-- `itrunc` to a shorter length that is a multiple of the size of a block. -/
def itrunc (d : Dir) (length : Nat) : Dir :=
  { d with i_size := length, blocks := fun k => if k * DIRBLKSIZ < length then d.blocks k else none }

/-! ## The search -/

inductive SlotStatus where
  | NONE
  | COMPACT
  | FOUND
deriving DecidableEq, Repr

/-- The variables of the search in `namei`. A `slotoffset` of -1 is none. -/
structure Search where
  ni_offset : Int
  bp : Block
  entryoffsetinblock : Nat
  slotstatus : SlotStatus
  slotoffset : Option Int
  slotsize : Int
  slotfreespace : Int
  slotneeded : Int
  prevoff : Int
  enduseful : Int

inductive Searched where
  | found (s : Search)
  | notfound (s : Search)
  /-- The label `bad`, after a hole. -/
  | bad

/-- Reading the next block at a block boundary. -/
def Search.load (d : Dir) (s : Search) : Option Search :=
  if blkoff s.ni_offset = 0 then
    (blkatoff d s.ni_offset).map (fun b => { s with bp := b, entryoffsetinblock := 0 })
  else some s

/-- Looking for free space starts again at a block boundary. -/
def Search.restart (s : Search) : Search :=
  if s.slotstatus = .NONE ∧ s.entryoffsetinblock % DIRBLKSIZ = 0 then
    { s with slotoffset := none, slotfreespace := 0 }
  else s

def Search.size (s : Search) : Int :=
  let reclen : Int := d_reclen s.bp s.entryoffsetinblock
  if d_ino s.bp s.entryoffsetinblock ≠ 0 then reclen - DIRSIZ (d_namlen s.bp s.entryoffsetinblock)
  else reclen

/-- Checking whether the entry at hand makes a slot. -/
def Search.slot (s : Search) : Search :=
  let reclen : Int := d_reclen s.bp s.entryoffsetinblock
  if s.slotstatus ≠ .FOUND ∧ s.size > 0 then
    if s.size ≥ s.slotneeded then
      { s with slotstatus := .FOUND, slotoffset := some s.ni_offset, slotsize := reclen }
    else if s.slotstatus = .NONE then
      let free := s.slotfreespace + s.size
      let offset := s.slotoffset.getD s.ni_offset
      if free ≥ s.slotneeded then
        { s with
          slotfreespace := free
          slotoffset := some offset
          slotstatus := .COMPACT
          slotsize := s.ni_offset + reclen - offset }
      else { s with slotfreespace := free, slotoffset := some offset }
    else s
  else s

def Search.isName (s : Search) (name : List UInt8) : Bool :=
  d_ino s.bp s.entryoffsetinblock ≠ 0 ∧ d_name s.bp s.entryoffsetinblock = name

def Search.advance (s : Search) : Search :=
  let reclen := d_reclen s.bp s.entryoffsetinblock
  { s with
    prevoff := s.ni_offset
    ni_offset := s.ni_offset + reclen
    entryoffsetinblock := s.entryoffsetinblock + reclen
    enduseful := if d_ino s.bp s.entryoffsetinblock ≠ 0 then s.ni_offset + reclen else s.enduseful }

/-- Over a mangled entry to the end of the block. -/
def Search.skip (s : Search) : Search :=
  let i := DIRBLKSIZ - s.entryoffsetinblock % DIRBLKSIZ
  { s with ni_offset := s.ni_offset + i, entryoffsetinblock := s.entryoffsetinblock + i }

/-- The loop at `searchloop`. Every round moves on, so that the distance to the end
is enough of them. -/
def searchloop (d : Dir) (name : List UInt8) (endsearch : Int) : Nat → Search → Searched
  | 0, s => .notfound s
  | fuel + 1, s =>
    if s.ni_offset < endsearch then
      match s.load d with
      | none => .bad
      | some s =>
        let s := s.restart
        if d_reclen s.bp s.entryoffsetinblock = 0 then searchloop d name endsearch fuel s.skip
        else
          let s := s.slot
          if s.isName name then .found s else searchloop d name endsearch fuel s.advance
    else .notfound s

def Search.run (d : Dir) (name : List UInt8) (endsearch : Int) (s : Search) : Searched :=
  searchloop d name endsearch (endsearch - s.ni_offset).toNat s

inductive Flag where
  | LOOKUP
  | CREATE
  | DELETE
deriving DecidableEq, Repr

inductive Errno where
  | enoent
  | eisdir
  /-- What `access` reports. -/
  | denied
deriving DecidableEq, Repr

/-- The fields of `struct nameidata` that the search leaves to the changes. -/
structure Nameidata where
  ni_dent : Direct
  ni_offset : Int
  ni_count : Int
  ni_endoff : Int

/-- How the search for the last component ends: the entry is there, or it can be
made. After a hole nothing is returned and no error is set. -/
inductive Namei where
  | error (e : Errno)
  | hole
  | found (ndp : Nameidata) (d : Dir)
  | absent (ndp : Nameidata)

/-- The component is copied into `ni_dent`. -/
def Direct.component (old : Direct) (name : List UInt8) : Direct :=
  { old with
    d_namlen := name.length
    d_name := fun i => if i < name.length then name.getD i 0
      else if i = name.length then 0 else old.d_name i }

/-- The search from `nc_prevoffset`. -/
def Search.resume (d : Dir) (s : Search) (prevoffset : Int) : Option Search :=
  let s := { s with ni_offset := prevoffset, entryoffsetinblock := blkoff prevoffset }
  if blkoff prevoffset = 0 then some s
  else (blkatoff d prevoffset).map (fun b => { s with bp := b })

/-- The search. With `nc_prevoffset` it takes two passes. -/
def passes (d : Dir) (name : List UInt8) (s : Search) (nc_prevoffset : Option Int) : Searched :=
  let endsearch := roundup d.i_size DIRBLKSIZ
  match nc_prevoffset with
  | none => s.run d name endsearch
  | some prevoffset =>
    let prevoffset := if prevoffset > d.i_size then 0 else prevoffset
    match s.resume d prevoffset with
    | none => .bad
    | some s =>
      match s.run d name endsearch with
      | .notfound s => { s with ni_offset := 0 }.run d name prevoffset
      | r => r

def Search.start (flag : Flag) (namlen : Nat) : Search where
  ni_offset := 0
  bp := zeroBlock
  entryoffsetinblock := 0
  slotstatus := if flag = .CREATE then .NONE else .FOUND
  slotoffset := none
  slotsize := 0
  slotfreespace := 0
  slotneeded := if flag = .CREATE then DIRSIZ namlen else 0
  prevoff := 0
  enduseful := 0

/-- The end of the search without the entry. -/
def namei_notfound (d : Dir) (flag : Flag) (denied : Bool) (ndp : Nameidata) (s : Search) : Namei :=
  if flag = .CREATE ∧ d.i_nlink ≠ 0 then
    if denied then .error .denied
    else if s.slotstatus = .NONE then
      let offset := roundup d.i_size DIRBLKSIZ
      .absent { ndp with ni_offset := offset, ni_count := 0, ni_endoff := roundup offset DIRBLKSIZ }
    else
      let offset := s.slotoffset.getD (-1)
      let enduseful := if s.enduseful < offset + s.slotsize then offset + s.slotsize else s.enduseful
      .absent { ndp with
        ni_offset := offset
        ni_count := s.slotsize
        ni_endoff := roundup enduseful DIRBLKSIZ }
  else .error .enoent

/-- The end of the search with the entry. -/
def namei_found (d : Dir) (flag : Flag) (lockparent denied : Bool) (ndp : Nameidata) (s : Search) : Namei :=
  let least : Int := s.entryoffsetinblock + DIRSIZ (d_namlen s.bp s.entryoffsetinblock)
  let d := if least > d.i_size then { d with i_size := least } else d
  let ino := d_ino s.bp s.entryoffsetinblock
  let ndp := { ndp with
    ni_dent := { ndp.ni_dent with d_ino := ino, d_reclen := d_reclen s.bp s.entryoffsetinblock }
    ni_offset := s.ni_offset }
  match flag with
  | .DELETE =>
    if denied then .error .denied
    else .found { ndp with
      ni_count := if blkoff s.ni_offset = 0 then 0 else s.ni_offset - s.prevoff } d
  | .CREATE =>
    if lockparent then
      if denied then .error .denied
      else if d.i_number = ino then .error .eisdir
      else .found ndp d
    else .found ndp d
  | .LOOKUP => .found ndp d

/-- `namei` for the last component of a path. -/
def namei (d : Dir) (flag : Flag) (lockparent denied : Bool) (ndp : Nameidata) (name : List UInt8)
    (nc_prevoffset : Option Int) : Namei :=
  let ndp := { ndp with ni_dent := ndp.ni_dent.component name, ni_endoff := 0 }
  match passes d name (Search.start flag name.length)
      (if flag = .LOOKUP then nc_prevoffset else none) with
  | .bad => .hole
  | .notfound s => namei_notfound d flag denied ndp s
  | .found s => namei_found d flag lockparent denied ndp s

/-! ## The changes -/

/-- The panics "wdir: newblk", "wdir: compact1" and "wdir: compact2". -/
inductive Panic where
  | newblk
  | compact1
  | compact2
deriving DecidableEq, Repr

inductive Entered where
  | done (d : Dir)
  | panic (p : Panic)
  /-- The block of the slot could not be read. -/
  | unread
  /-- An entry of length zero in the slot. -/
  | endless

/-- The variables of the loop in `direnter`; `ep` is an offset into the block. -/
structure Compact where
  blk : Block
  ep : Nat
  dsize : Nat
  spacefree : Int
  loc : Int

/-- One round: the next entry moves down behind those that stay. -/
def Compact.round (p : Nat) (c : Compact) : Compact :=
  let nep := p + c.loc.toNat
  let c := if d_ino c.blk c.ep ≠ 0 then
      { c with blk := setU16 c.blk (c.ep + 4) c.dsize, ep := c.ep + c.dsize }
    else { c with spacefree := c.spacefree + c.dsize }
  let dsize := DIRSIZ (d_namlen c.blk nep)
  { blk := bcopy c.blk nep c.ep dsize
    ep := c.ep
    dsize := dsize
    spacefree := c.spacefree + (d_reclen c.blk nep - dsize)
    loc := c.loc + d_reclen c.blk nep }

def compactloop (p : Nat) (ni_count : Int) : Nat → Compact → Option Compact
  | 0, _ => none
  | fuel + 1, c => if c.loc < ni_count then compactloop p ni_count fuel (c.round p) else some c

/-- The new entry goes behind the last one, or in its place if that is free. -/
def Compact.finish (c : Compact) (dent : Direct) : Except Panic Block :=
  let newentrysize := DIRSIZ dent.d_namlen
  if d_ino c.blk c.ep = 0 then
    if c.spacefree + c.dsize < newentrysize then .error .compact1
    else .ok (copyIn c.blk c.ep { dent with d_reclen := (c.spacefree + c.dsize).toNat } newentrysize)
  else if c.spacefree < newentrysize then .error .compact2
  else .ok (copyIn (setU16 c.blk (c.ep + 4) c.dsize) (c.ep + c.dsize)
    { dent with d_reclen := c.spacefree.toNat } newentrysize)

/-- `direnter` of an entry for inode `ino`. -/
def direnter (d : Dir) (ndp : Nameidata) (ino : Nat) : Entered :=
  let dent := { ndp.ni_dent with d_ino := ino }
  let newentrysize := DIRSIZ dent.d_namlen
  if ndp.ni_count = 0 then
    if blkoff ndp.ni_offset ≠ 0 then .panic .newblk
    else
      let d := rdwri d { dent with d_reclen := DIRBLKSIZ } newentrysize ndp.ni_offset
      .done { d with i_size := roundup d.i_size DIRBLKSIZ }
  else
    let d := if ndp.ni_offset + ndp.ni_count > d.i_size then
      { d with i_size := ndp.ni_offset + ndp.ni_count } else d
    match blkatoff d ndp.ni_offset with
    | none => .unread
    | some b =>
      let p := blkoff ndp.ni_offset
      let dsize := DIRSIZ (d_namlen b p)
      match compactloop p ndp.ni_count (ndp.ni_count.toNat + 1)
          ⟨b, p, dsize, d_reclen b p - dsize, d_reclen b p⟩ with
      | none => .endless
      | some c =>
        match c.finish dent with
        | .error e => .panic e
        | .ok b =>
          let d := d.bwrite ndp.ni_offset b
          .done (if ndp.ni_endoff ≠ 0 ∧ ndp.ni_endoff < d.i_size then itrunc d ndp.ni_endoff.toNat else d)

/-- `dirremove`; nothing if the block of the entry could not be read. -/
def dirremove (d : Dir) (ndp : Nameidata) : Option Dir :=
  if ndp.ni_count = 0 then
    let dent := { ndp.ni_dent with d_ino := 0 }
    some (rdwri d dent (DIRSIZ dent.d_namlen) ndp.ni_offset)
  else
    let offset := ndp.ni_offset - ndp.ni_count
    (blkatoff d offset).map (fun b =>
      let ep := blkoff offset
      d.bwrite offset (setU16 b (ep + 4) (d_reclen b ep + ndp.ni_dent.d_reclen)))

def dirrewrite (d : Dir) (ndp : Nameidata) (ino : Nat) : Dir :=
  let dent := { ndp.ni_dent with d_ino := ino }
  rdwri d dent (DIRSIZ dent.d_namlen) ndp.ni_offset

end Directory
