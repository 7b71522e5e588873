import RetroBSD.Runs
import RetroBSD.Truncation

/-!
# Who owns a block

An image is a volume together with its inodes. It is consistent when every block
from `fs_isize` on is once on the free list or once under an inode in use. The
steps are whole calls: `rwip` for writing, `itrunc`, `ialloc` followed by the
assignment of a mode in `maknode`, and `irele`; another step stands for what the
rest of the kernel does to reference and link counts and to the size of a pipe. How `ialloc` looks for a
free inode is left open; an inode that it finds in use after all it releases by
`irele`, which is a step of its own. The volume is mounted for writing.
-/

namespace BlockOwnership

open Words FreeList Volumes PointerTrees BlockMap Runs Multiset
open Function (update update_of_ne update_self)

abbrev INOPB : Nat := 16
abbrev ROOTINO : Nat := 2

structure Image where
  vol : Vol
  inodes : Nat → Inode

/-- Inodes whose addresses hold a device number: IFCHR, IFBLK and IFMT. -/
def special (ip : Inode) : Bool :=
  decide (fmt ip = IFCHR ∨ fmt ip = IFBLK ∨ fmt ip = IFMT)

/-- The blocks that an inode refers to. -/
def refs (v : Vol) (ip : Inode) : Multiset Nat :=
  if ip.i_mode = 0 ∨ special ip then 0 else owned v ip.i_addr

/-- The inodes of the i-list, which lies between the superblock and `fs_isize`. -/
def numbers (fs : Fs) : Finset Nat := Finset.Ico 1 (INOPB * (fs.fs_isize - 1) + 1)

def claimed (s : Image) : Multiset Nat := ∑ ino ∈ numbers s.vol.fs, refs s.vol (s.inodes ino)

def Consistent (s : Image) : Prop :=
  ∃ list, WellFormed s.vol.fs s.vol.disk list ∧
    (list : Multiset Nat) + claimed s = (Finset.Ico s.vol.fs.fs_isize s.vol.fs.fs_fsize).val

/-- No chain block of the free list holds an empty table. -/
def Filled (s : Image) : Prop := 0 < s.vol.fs.fs_nfree → Backed s.vol.disk (s.vol.fs.fs_free 0)

/-! ## Steps -/

/-- `irele` of an inode on a volume mounted for writing. -/
def irele (v : Vol) (ip : Inode) : Inode × Vol :=
  if ip.i_count = 1 then
    let r := if ip.i_nlink = 0 then
        let r := itrunc v ip 0
        ({ r.1 with i_mode := 0, i_addr := update r.1.i_addr 1 0 }, r.2)
      else (ip, v)
    ({ r.1 with ipipe := false, i_count := 0 }, r.2)
  else ({ ip with i_count := ip.i_count - 1 }, v)

/-- The inode that `ialloc` returns, once `maknode` has given it a mode. -/
def ialloc (ip : Inode) (mode : Nat) : Inode :=
  { ip with i_mode := mode, i_nlink := 1, i_count := 1, append := false, i_addr := fun _ => 0 }

inductive Op where
  | write (ino : Nat) (r : Request) (data : Nat → UInt8)
  | itrunc (ino length : Nat)
  | ialloc (ino mode : Nat)
  | irele (ino : Nat)
  | other (ino nlink count : Nat) (ipipe : Bool) (size : Int)

def put (s : Image) (ino : Nat) (r : Inode × Vol) : Image :=
  ⟨r.2, update s.inodes ino r.1⟩

def exec (s : Image) : Op → Image
  | .write ino r data => put s ino (rwipWrite s.vol (s.inodes ino) r data).2.2
  | .itrunc ino length => put s ino (BlockMap.itrunc s.vol (s.inodes ino) length)
  | .ialloc ino mode => put s ino (BlockOwnership.ialloc (s.inodes ino) mode, s.vol)
  | .irele ino => put s ino (BlockOwnership.irele s.vol (s.inodes ino))
  | .other ino nlink count ipipe size =>
    put s ino ({ s.inodes ino with
      i_nlink := nlink, i_count := count, ipipe := ipipe, i_size := size }, s.vol)

/-- The calls that the kernel makes: on an inode in use, for `ialloc` on one that is
free. A device is not a file. -/
def Proper (s : Image) : Op → Prop
  | .write ino _ _ =>
    ino ∈ numbers s.vol.fs ∧ (s.inodes ino).i_mode ≠ 0 ∧ special (s.inodes ino) = false
  | .itrunc ino length =>
    ino ∈ numbers s.vol.fs ∧ (s.inodes ino).i_mode ≠ 0 ∧ special (s.inodes ino) = false ∧
      length < 2 ^ 32
  | .ialloc ino mode =>
    ino ∈ numbers s.vol.fs ∧ ROOTINO < ino ∧ (s.inodes ino).i_mode = 0 ∧ mode ≠ 0
  | .irele ino =>
    ino ∈ numbers s.vol.fs ∧ (s.inodes ino).i_mode ≠ 0 ∧ 0 < (s.inodes ino).i_count
  | .other ino _ _ ipipe size =>
    ino ∈ numbers s.vol.fs ∧ (s.inodes ino).i_mode ≠ 0 ∧
      (ipipe = true ∨ size = (s.inodes ino).i_size)

/-- `itrunc` to length 0 gives back all that the inode has: it is not of size 0, or it
has nothing. -/
def Releases (ip : Inode) : Prop :=
  if special ip then ofInt32 ip.i_size = 0 ∧ ip.ipipe = false
  else ip.ipipe = true ∨ ofInt32 ip.i_size ≠ 0 ∨ ∀ s < NADDR, ip.i_addr s = 0

/-- Proper calls in which the last release of an unlinked inode gives its blocks back. -/
def Safe (s : Image) : Op → Prop
  | .irele ino => Proper s (.irele ino) ∧
      ((s.inodes ino).i_count = 1 → (s.inodes ino).i_nlink = 0 → Releases (s.inodes ino))
  | op => Proper s op

/-! ## The account -/

/-- `list` is the free list, stocked, and every block is accounted for. -/
def Accounted (s : Image) (list : List Nat) : Prop :=
  Stock s.vol list ∧
    (list : Multiset Nat) + claimed s = (Finset.Ico s.vol.fs.fs_isize s.vol.fs.fs_fsize).val

lemma accounted_iff (s : Image) : (∃ list, Accounted s list) ↔ Consistent s ∧ Filled s := by
  constructor
  · rintro ⟨list, ⟨wf, backed⟩, total⟩
    exact ⟨⟨list, wf, total⟩, backed⟩
  · rintro ⟨⟨list, wf, total⟩, filled⟩
    exact ⟨list, ⟨wf, filled⟩, total⟩

variable {s : Image} {list : List Nat}

lemma Accounted.holds (account : Accounted s list) : Holds s.vol list (claimed s) := by
  obtain ⟨stock, total⟩ := account
  refine ⟨stock, total ▸ Finset.nodup _, ?_⟩
  intro b hb
  have member : b ∈ (Finset.Ico s.vol.fs.fs_isize s.vol.fs.fs_fsize).val := by
    rw [← total]
    exact mem_add.mpr (.inr hb)
  exact (badblock_eq_false _ _).mpr (Finset.mem_Ico.mp member)

variable {ip : Inode} {v : Vol}

lemma refs_congr {v' : Vol} (same : ∀ c ∈ refs v ip, v'.disk c = v.disk c) :
    refs v' ip = refs v ip := by
  by_cases none : ip.i_mode = 0 ∨ special ip
  · simp [refs, none]
  · simp only [refs, none, if_false] at same ⊢
    apply Finset.sum_congr rfl
    intro t ht
    apply blocks_congr
    intro c hc
    exact same c (mem_sum.mpr ⟨t, ht, hc⟩)

lemma accounted_put {ino : Nat} (hino : ino ∈ numbers s.vol.fs) (account : Accounted s list)
    {ip' : Inode} {v' : Vol} {list' : List Nat}
    (moves : Moves s.vol list (refs s.vol (s.inodes ino)) v' list' (refs v' ip')) :
    Accounted (put s ino (ip', v')) list' := by
  have split := Finset.add_sum_erase _ (fun i => refs s.vol (s.inodes i)) hino
  have holds := account.holds
  rw [claimed, ← split] at holds
  have fixed : numbers v'.fs = numbers s.vol.fs := by simp [numbers, moves.size.1]
  have after : claimed (put s ino (ip', v')) =
      refs v' ip' + ∑ i ∈ (numbers s.vol.fs).erase ino, refs s.vol (s.inodes i) := by
    have split' := Finset.add_sum_erase _ (fun i => refs v' (update s.inodes ino ip' i)) hino
    rw [claimed, put, fixed, ← split', update_self]
    congr 1
    apply Finset.sum_congr rfl
    intro i hi
    rw [update_of_ne (Finset.ne_of_mem_erase hi)]
    apply refs_congr
    intro c hc
    exact moves.untouched holds (mem_sum.mpr ⟨i, hi, hc⟩)
  refine ⟨moves.stock, ?_⟩
  rw [after, ← add_assoc, moves.total, add_assoc, split]
  simp only [put, moves.size.1, moves.size.2]
  exact account.2

/-! ## One call -/

lemma refs_file (used : ip.i_mode ≠ 0) (file : special ip = false) :
    refs v ip = owned v ip.i_addr := by
  simp [refs, used, file]

lemma special_congr {ip' : Inode} (same : fmt ip' = fmt ip) : special ip' = special ip := by
  simp [special, same]

lemma fmt_dropSetid (ip : Inode) (u_ruid : Nat) : fmt (dropSetid ip u_ruid) = fmt ip := by
  simp only [dropSetid]
  split_ifs
  · simp [fmt, IFMT, Nat.and_assoc]
  · rfl

lemma addr_dropSetid (ip : Inode) (u_ruid : Nat) : (dropSetid ip u_ruid).i_addr = ip.i_addr := by
  simp only [dropSetid]
  split_ifs <;> rfl

lemma ofInt32_lt (i : Int) : ofInt32 i < 2 ^ 32 := by
  simp only [ofInt32]
  omega

/-- The loop of `rwip` only moves blocks between the free list and the inode, and
leaves the type of the inode as it is. -/
lemma writeLoop_moves (u_ruid fuel : Nat) {data : Nat → UInt8} {uio : Uio}
    (holds : Holds v list (owned v ip.i_addr)) :
    ∃ err uio' ip' v' list', writeLoop u_ruid fuel data v ip uio = (err, uio', ip', v') ∧
      Moves v list (owned v ip.i_addr) v' list' (owned v' ip'.i_addr) ∧ fmt ip' = fmt ip := by
  induction fuel generalizing data v ip uio list with
  | zero => exact ⟨none, uio, ip, v, list, rfl, .refl holds.stock, rfl⟩
  | succ fuel ih =>
    generalize bn_eq : lblkno (ofInt32 uio.uio_offset) = bn
    have small : bn < maxBlocks := bn_eq ▸ lblkno_lt (ofInt32_lt _)
    generalize n_eq : min (DEV_BSIZE - blkoff (ofInt32 uio.uio_offset)) uio.uio_resid = n
    obtain ⟨m, addr', v₁, list₁, call, moves, _, outcome⟩ := bmap_write small
      (decide (n ≠ DEV_BSIZE)) (fun b => splice b _ n data) holds
    simp only [writeLoop, bn_eq, n_eq, call]
    rcases outcome with ⟨rfl, _⟩ | ⟨nb, rfl, _, wrote, _⟩
    · exact ⟨_, _, _, v₁, list₁, rfl, moves, rfl⟩
    · by_cases negative : (Mapped.block nb).failed
      · simp only [negative]
        exact ⟨_, _, _, v₁, list₁, rfl, moves, rfl⟩
      · simp only
        generalize sized : (if wrap (uio.uio_offset + n) > ip.i_size then
          { ip with i_size := wrap (uio.uio_offset + n), i_addr := addr' } else
          { ip with i_addr := addr' }) = ip₁
        have same : ip₁.i_addr = addr' ∧ fmt ip₁ = fmt ip := by
          rw [← sized]
          split_ifs <;> exact ⟨rfl, rfl⟩
        have address : (dropSetid ip₁ u_ruid).i_addr = addr' := by rw [addr_dropSetid, same.1]
        have type : fmt (dropSetid ip₁ u_ruid) = fmt ip := by rw [fmt_dropSetid, same.2]
        have step := wrote.of_eq rfl (congrArg _ address)
        split_ifs with done
        · exact ⟨_, _, _, _, list₁, rfl, step, type⟩
        · obtain ⟨err, uio', ip', v', list', loop, rest, type'⟩ := ih (step.holds holds)
          exact ⟨err, uio', ip', v', list', loop, step.trans rest, type'.trans type⟩

lemma rwipWrite_moves (r : Request) (data : Nat → UInt8)
    (holds : Holds v list (owned v ip.i_addr)) :
    ∃ err uio' ip' v' list', rwipWrite v ip r data = (err, uio', ip', v') ∧
      Moves v list (owned v ip.i_addr) v' list' (owned v' ip'.i_addr) ∧
      (ip'.i_mode = ip.i_mode ∨ fmt ip ≠ 0) ∧ fmt ip' = fmt ip := by
  have unchanged : ∀ (err : Option Errno) (uio : Uio), ∃ err' uio' ip' v' list',
      (err, uio, ip, v) = (err', uio', ip', v') ∧
      Moves v list (owned v ip.i_addr) v' list' (owned v' ip'.i_addr) ∧
      (ip'.i_mode = ip.i_mode ∨ fmt ip ≠ 0) ∧ fmt ip' = fmt ip :=
    fun err uio => ⟨err, uio, ip, v, list, rfl, .refl holds.stock, .inl rfl, rfl⟩
  simp only [rwipWrite]
  generalize (if fmt ip = IFREG ∧ r.io_append = true then
    { r.uio with uio_offset := ip.i_size } else r.uio) = uio
  split_ifs with denied typed device nothing limit
  · exact unchanged _ _
  · exact unchanged _ _
  · exact unchanged _ _
  · exact unchanged _ _
  · obtain ⟨err, uio', ip', v', list', loop, moves, type⟩ :=
      writeLoop_moves r.u_ruid uio.uio_resid holds
    refine ⟨err, uio', ip', v', list', loop, moves, .inr ?_, type⟩
    intro zero
    simp [zero] at typed
  · exact unchanged _ _

lemma write_moves (r : Request) (data : Nat → UInt8)
    (used : ip.i_mode ≠ 0) (file : special ip = false) (holds : Holds v list (refs v ip)) :
    ∃ ip' v' list', (rwipWrite v ip r data).2.2 = (ip', v') ∧
      Moves v list (refs v ip) v' list' (refs v' ip') := by
  rw [refs_file used file] at holds ⊢
  obtain ⟨err, uio', ip', v', list', call, moves, mode, type⟩ := rwipWrite_moves r data holds
  have used' : ip'.i_mode ≠ 0 := by
    rcases mode with same | typed
    · rwa [same]
    · intro zero
      rw [← type] at typed
      simp [fmt, zero] at typed
  have file' : special ip' = false := (special_congr type).trans file
  exact ⟨ip', v', list', by rw [call], moves.of_eq rfl (refs_file used' file')⟩

lemma truncate_moves {length : Nat} (word : length < 2 ^ 32)
    (used : ip.i_mode ≠ 0) (file : special ip = false) (holds : Holds v list (refs v ip)) :
    ∃ ip' v' list', BlockMap.itrunc v ip length = (ip', v') ∧
      Moves v list (refs v ip) v' list' (refs v' ip') := by
  rw [refs_file used file] at holds ⊢
  obtain ⟨size, addr', v', list', call, moves⟩ := itrunc_moves ip word holds
  have same : fmt { ip with i_size := size, i_addr := addr' } = fmt ip := rfl
  exact ⟨_, v', list', call, moves.of_eq rfl (refs_file used ((special_congr same).trans file))⟩

lemma owned_nothing (v : Vol) {addr : Nat → Nat} (nothing : ∀ s < NADDR, addr s = 0) :
    owned v addr = 0 := by
  apply Finset.sum_eq_zero
  intro s hs
  rw [nothing s (Finset.mem_range.mp hs), tree, blocks_zero]

/-- Truncation to nothing of an inode that is not empty, or has nothing. -/
lemma itrunc_zero (file : special ip = false) (releases : Releases ip)
    (holds : Holds v list (owned v ip.i_addr)) :
    ∃ list', Moves v list (owned v ip.i_addr) (BlockMap.itrunc v ip 0).2 list' 0 := by
  simp only [Releases, file] at releases
  obtain ⟨list', moves, _⟩ := freeLevels_spec (Nat.zero_le _) holds
  have gone : owned (freeLevels v ip.i_addr ((0 : Nat) - 1) 3) (keepAddr ip.i_addr ((0 : Nat) - 1)) =
      0 := by
    apply owned_nothing
    intro s hs
    rw [keepAddr_eq hs, if_pos (Nat.zero_le _)]
  rw [gone] at moves
  have aligned : blkoff 0 = 0 := rfl
  by_cases pipe : ip.ipipe
  · refine ⟨list', ?_⟩
    simpa [itrunc, pipe, aligned, shorten, lblkno] using moves
  · by_cases empty : ofInt32 ip.i_size = 0
    · have nothing : ∀ s < NADDR, ip.i_addr s = 0 := by simpa [pipe, empty] using releases
      refine ⟨list, ?_⟩
      simp only [itrunc, pipe, Bool.false_eq_true, if_false, empty, and_self, if_true,
        owned_nothing v nothing]
      exact .refl holds.stock
    · refine ⟨list', ?_⟩
      simpa [itrunc, pipe, empty, aligned, shorten, lblkno] using moves

lemma release_moves (used : ip.i_mode ≠ 0)
    (releases : ip.i_count = 1 → ip.i_nlink = 0 → Releases ip) (holds : Holds v list (refs v ip)) :
    ∃ ip' v' list', irele v ip = (ip', v') ∧ Moves v list (refs v ip) v' list' (refs v' ip') := by
  have stays : ∀ ip' : Inode, ip'.i_mode = ip.i_mode → ip'.i_addr = ip.i_addr →
      Moves v list (refs v ip) v list (refs v ip') := by
    intro ip' mode addr
    have kind : special ip' = special ip := special_congr (by simp [fmt, mode])
    apply (Moves.refl holds.stock).of_eq rfl
    simp [refs, kind, mode, addr]
  by_cases last : ip.i_count = 1
  · by_cases unlinked : ip.i_nlink = 0
    · simp only [irele, last, unlinked]
      have dead : ∀ ip' : Inode, ip'.i_mode = 0 → ∀ w : Vol, refs w ip' = 0 := by
        intro ip' zero w
        simp [refs, zero]
      cases file : special ip with
      | false =>
        rw [refs_file used file] at holds ⊢
        obtain ⟨list', moves⟩ := itrunc_zero file (releases last unlinked) holds
        exact ⟨_, _, list', rfl, moves.of_eq rfl (dead _ rfl _)⟩
      | true =>
        have empty := releases last unlinked
        simp only [Releases, file, if_true] at empty
        have same : itrunc v ip 0 = (ip, v) := by simp [itrunc, empty]
        rw [same]
        have nothing : refs v ip = 0 := by simp [refs, file]
        refine ⟨_, v, list, rfl, (Moves.refl holds.stock).of_eq nothing (dead _ rfl _)⟩
    · simp only [irele, last, unlinked, if_true, if_false]
      exact ⟨_, v, list, rfl, stays _ rfl rfl⟩
  · simp only [irele, last, if_false]
    exact ⟨_, v, list, rfl, stays _ rfl rfl⟩

lemma exec_accounted (account : Accounted s list) {op : Op} (safe : Safe s op) :
    ∃ list', Accounted (exec s op) list' := by
  have own : ∀ ino ∈ numbers s.vol.fs, Holds s.vol list (refs s.vol (s.inodes ino)) := by
    intro ino hino
    have split := Finset.add_sum_erase _ (fun i => refs s.vol (s.inodes i)) hino
    have holds := account.holds
    rw [claimed, ← split] at holds
    exact holds.left
  cases op with
  | write ino r data =>
    obtain ⟨hino, used, file⟩ := safe
    obtain ⟨ip', v', list', call, moves⟩ := write_moves r data used file (own ino hino)
    refine ⟨list', ?_⟩
    rw [exec, call]
    exact accounted_put hino account moves
  | itrunc ino length =>
    obtain ⟨hino, used, file, word⟩ := safe
    obtain ⟨ip', v', list', call, moves⟩ := truncate_moves word used file (own ino hino)
    refine ⟨list', ?_⟩
    rw [exec, call]
    exact accounted_put hino account moves
  | ialloc ino mode =>
    obtain ⟨hino, _, free, _⟩ := safe
    refine ⟨list, accounted_put hino account ?_⟩
    apply (Moves.refl account.1).of_eq rfl
    have before : refs s.vol (s.inodes ino) = 0 := by simp [refs, free]
    rw [before]
    simp only [refs]
    split_ifs
    · rfl
    · exact owned_nothing _ (fun _ _ => rfl)
  | irele ino =>
    obtain ⟨⟨hino, used, _⟩, releases⟩ := safe
    obtain ⟨ip', v', list', call, moves⟩ := release_moves used releases (own ino hino)
    refine ⟨list', ?_⟩
    rw [exec, call]
    exact accounted_put hino account moves
  | other ino nlink count ipipe size =>
    obtain ⟨hino, -, _⟩ := safe
    exact ⟨list, accounted_put hino account (Moves.refl account.1)⟩

/-! ## A small volume -/

/-- A volume with one data block, block 2, which is free. -/
def smallFs : Fs :=
  { fs_isize := 2
    fs_fsize := 3
    fs_nfree := 2
    fs_free := fun k => if k = 1 then 2 else 0
    fs_flock := 0
    fs_fmod := 0
    fs_tfree := 1 }

def freeInode : Inode := ⟨0, 0, 0, false, false, 0, fun _ => 0⟩

/-- Inode 3 is an open regular file without a name and without contents. -/
def smallImage : Image :=
  ⟨⟨smallFs, fun _ => zeroBlock⟩,
    update (fun _ => freeInode) 3 { freeInode with i_mode := 0o100644, i_count := 1 }⟩

/-- One byte at offset 4096, under the single indirect block. -/
def farByte : Request := ⟨⟨4096, 1⟩, false, 2 ^ 31 - 1, 0⟩

lemma smallImage_consistent : Consistent smallImage ∧ Filled smallImage := by
  constructor
  · refine ⟨[2], ⟨by decide, ?_, by decide, by decide, by decide, by decide⟩, ?_⟩
    · exact Chain.last [2]
    · rfl
  · intro _
    exact .last

/-! ## Runs -/

/-- In every run of safe calls from a consistent image without empty chain tables,
every block stays accounted for. -/
theorem blocks_accounted {t : Image} {ops : List Op} (start : Consistent s) (filled : Filled s)
    (run : Run (fun s op t => exec s op = t) Safe s ops t) : Consistent t ∧ Filled t := by
  rw [← accounted_iff]
  apply run_invariant (fun s => ∃ list, Accounted s list) ?_ run
  · exact (accounted_iff s).mpr ⟨start, filled⟩
  · rintro s op _ ⟨list, account⟩ safe rfl
    exact exec_accounted account safe

/-- A write that succeeds, on the same volume. -/
theorem blocks_accounted_write : ∃ t, Run (fun s op t => exec s op = t) Safe smallImage
        [.write 3 ⟨⟨0, 1⟩, false, 2 ^ 31 - 1, 0⟩ (fun _ => 0), .irele 3] t ∧
      Consistent t ∧ Filled t := by
  exact Exists.imp (fun t run =>
      ⟨run, blocks_accounted smallImage_consistent.1 smallImage_consistent.2 run⟩)
    ⟨_, .cons ⟨by decide, by decide, by decide⟩ rfl
      (.cons ⟨⟨by decide, by decide, by decide⟩, fun _ _ => .inr (.inl (by decide))⟩ rfl (.nil _))⟩

/-- The write takes the last block for an indirect block and finds none for the data;
the release then finds a file of size 0. -/
theorem indirect_block_lost : ∃ ops t, Consistent smallImage ∧ Filled smallImage ∧
      Run (fun s op t => exec s op = t) Proper smallImage ops t ∧ ¬ Consistent t := by
  refine ⟨[.write 3 farByte (fun _ => 0), .irele 3], _, smallImage_consistent.1,
    smallImage_consistent.2, .cons ⟨by decide, by decide, by decide⟩ rfl
      (.cons ⟨by decide, by decide, by decide⟩ rfl (.nil _)), ?_⟩
  set t := exec _ _ with last
  rintro ⟨list, wf, total⟩
  have none : entries (cache t.vol.fs) = [] := rfl
  have nothing : list = [] := chain_nil (none ▸ wf.chain)
  have unclaimed : claimed t = 0 := by
    apply Finset.sum_eq_zero
    intro ino _
    have dead : (t.inodes ino).i_mode = 0 := by
      by_cases file : ino = 3
      · subst file
        rfl
      · simp [last, exec, put, update_of_ne file, smallImage, freeInode]
    simp [refs, dead]
  rw [nothing] at total
  exact absurd (congrArg card total) (by decide)

end BlockOwnership
