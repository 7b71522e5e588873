import RetroBSD.FreeList
import RetroBSD.Runs

/-!
# The free list in the host tool

`fs_block_alloc` and `fs_block_free` of `tools/fsutil/block.c`, which work on the
same superblock and chain blocks as `balloc` and `free` of the kernel. One
sequence of calls is made on both sides, each on a copy of its own.

Reads and writes of the image do not fail and it is open for writing. The part
of a table block that `fs_block_free` does not fill comes with the call.
-/

namespace HostFreeList

open Words FreeList Runs List
open Function (update update_of_ne update_self update_idem)

/-- The fields of `fs_t` that the two functions use. The superblock is counted in `isize`. -/
structure Host where
  isize : Nat
  fsize : Nat
  nfree : Nat
  free : Nat → Nat
  tfree : Nat
  superb : 0 < isize

/-- What `fs_open` reads from a superblock. -/
def Host.ofSuper (fs : Fs) (superb : 0 < fs.fs_isize) : Host :=
  ⟨fs.fs_isize, fs.fs_fsize, ofInt32 fs.fs_nfree, fs.fs_free, fs.fs_tfree, superb⟩

/-- The superblock that `fs_sync` writes. -/
def Host.super (h : Host) : Fs := ⟨h.isize, h.fsize, h.nfree, h.free, 0, 0, h.tfree⟩

/-- `bnum * BSDFS_BSIZE` is computed with 32 bits. -/
def seek (bnum : Nat) : Nat := bnum * 1024 % 2 ^ 32

def fsReadBlock (h : Host) (disk : Disk) (bnum : Nat) : Option Block :=
  if bnum < h.isize then none else some (disk (seek bnum / 1024))

def fsWriteBlock (h : Host) (disk : Disk) (bnum : Nat) (data : Block) : Option Disk :=
  if bnum < h.isize then none else some (update disk (seek bnum / 1024) data)

def push (h : Host) (bno : Nat) : Host :=
  { h with
    free := update h.free h.nfree bno
    nfree := (h.nfree + 1) % 2 ^ 32
    tfree := if bno = 0 then h.tfree else (h.tfree + 1) % 2 ^ 32 }

/-- `fs_block_free`; `junk` is what is in `buf` before. -/
def fsBlockFree (h : Host) (disk : Disk) (bno : Nat) (junk : Block) : Bool × Host × Disk :=
  if h.nfree ≥ NICFREE then
    match fsWriteBlock h disk bno (putFblk junk ⟨h.nfree, h.free⟩) with
    | none => (false, h, disk)
    | some disk => (true, push { h with nfree := 0 } bno, disk)
  else (true, push h bno, disk)

def load (h : Host) (table : Block) : Host :=
  { h with nfree := word table 0, free := fun i => word table (i + 1) }

def take (h : Host) (n : Nat) : Host :=
  { h with
    nfree := n
    tfree := (h.tfree + (2 ^ 32 - 1)) % 2 ^ 32
    free := update h.free n 0 }

/-- `fs_block_alloc` with the given `nfree`. Block 0 is not read, so that the jump back to `again` is
taken only while the table has more entries. -/
def allocFrom (disk : Disk) : Nat → Host → Option Nat × Host
  | 0, h => (none, h)
  | n + 1, h =>
    let bno := h.free n
    let h := take h n
    if n = 0 then
      match fsReadBlock h disk bno with
      | none => (none, h)
      | some table => (some bno, load h table)
    else if bno = 0 then allocFrom disk n h
    else (some bno, h)

def fsBlockAlloc (h : Host) (disk : Disk) : Option Nat × Host := allocFrom disk h.nfree h

/-! ## Both sides -/

inductive Act where
  | alloc (clr : Bool)
  | free (bno : Nat) (junk : Block)

/-- The host with its image and the kernel with its disk. `list` are the free blocks in the order in
which they are to be handed out, `out` those that the host has handed out and not got back; `answers`
are those of the host and of the kernel, the last first. -/
structure State where
  host : Host
  image : Disk
  fs : Fs
  disk : Disk
  list : List Nat
  out : List Nat
  answers : List (Option Nat × Option Nat)

def next (s : State) : Act → State
  | .alloc clr =>
    let h := fsBlockAlloc s.host s.image
    let k := balloc s.fs s.disk clr
    { s with
      host := h.2
      fs := k.2.1
      disk := k.2.2
      list := s.list.tail
      out := h.1.toList ++ s.out
      answers := (h.1, k.1) :: s.answers }
  | .free bno junk =>
    let h := fsBlockFree s.host s.image bno junk
    let k := free s.fs s.disk bno
    { s with
      host := h.2.1
      image := h.2.2
      fs := k.1
      disk := k.2
      list := bno :: s.list
      out := s.out.erase bno }

def Step (s : State) (a : Act) (t : State) : Prop := next s a = t

/-- A block that is freed is a data block and not free. -/
def Allowed (s : State) : Act → Prop
  | .alloc _ => True
  | .free bno _ => badblock s.fs bno = false ∧ bno ∉ s.list

/-- Offsets fit into 32 bits; nothing is allocated when no block is free and no chain block has an
empty table; nothing is put into a table without entries. -/
def Safe (s : State) : Act → Prop
  | .alloc _ => s.host.fsize ≤ 2 ^ 22 ∧ ¬ Empty s.host.super ∧ Refills s.fs s.disk
  | .free _ _ => s.host.fsize ≤ 2 ^ 22 ∧ 0 < s.host.nfree

structure Started (s : State) : Prop where
  wf : WellFormed s.fs s.disk s.list
  host : s.host = Host.ofSuper s.fs wf.superb
  image : s.image = s.disk
  out : s.out = []
  answers : s.answers = []

/-! ## The host's calls on a list -/

section Calls

variable {h : Host} {image : Disk} {list : List Nat}

variable {later : List Nat} {b : Nat}

lemma seek_small (small : b < 2 ^ 22) : seek b / 1024 = b := by
  simp only [seek]
  omega

lemma listed_small (wf : WellFormed h.super image list) (fits : h.fsize ≤ 2 ^ 22)
    (inside : b ∈ list) : ¬ b < h.isize ∧ b < 2 ^ 22 := by
  have good := (badblock_eq_false h.super b).mp (wf.good b inside)
  simp only [Host.super] at good
  omega

/-- A table read as unsigned numbers is the one that the kernel reads. -/
lemma load_cache (h : Host) {table : Block} (counted : Counted (getFblk table)) :
    cache (load h table).super = getFblk table := by
  obtain ⟨low, high⟩ := counted
  simp only [getFblk, toInt32] at low
  simp only [getFblk, toInt32]
  split_ifs at low high ⊢ with small
  · rfl
  · have := word_lt table 0
    omega

/-- The top of the table, with more below. -/
lemma take_wellFormed {n : Nat} (wf : WellFormed h.super image (b :: later))
    (count : h.nfree = n + 1) (more : n ≠ 0) :
    h.free n = b ∧ WellFormed (take h n).super image later := by
  have split := entries_succ (cache h.super) n (by simp [cache, Host.super, count])
  have below : entries (cache (take h n).super) =
      entries { cache h.super with df_nfree := n } := by
    refine entries_congr rfl fun k inside => ?_
    have other : k ≠ n := by
      rintro rfl
      exact lt_irrefl _ inside
    exact update_of_ne other _ _
  have rest : entries { cache h.super with df_nfree := (n : Int) } ≠ [] := by
    intro none
    have := (entries_eq_nil _).mp none
    simp only at this
    omega
  obtain ⟨later', shape, chain⟩ := chain_pop (split ▸ wf.chain) rest
  obtain ⟨rfl, rfl⟩ := cons.inj shape
  refine ⟨rfl, ⟨Int.natCast_nonneg n, ?_⟩, below ▸ chain, (nodup_cons.mp wf.nodup).2,
    fun c inside => wf.good c (mem_cons_of_mem _ inside), wf.superb, wf.word⟩
  have high := wf.counted.2
  simp only [cache, Host.super, take] at high ⊢
  omega

/-- The chain block itself, whose table is loaded. -/
lemma load_wellFormed (wf : WellFormed h.super image (b :: later)) (count : h.nfree = 1) :
    h.free 0 = b ∧ WellFormed (load (take h 0) (image b)).super image later := by
  have one : entries (cache h.super) = [h.free 0] := by simp [entries, cache, Host.super, count]
  rcases chain_single (one ▸ wf.chain) with ⟨_, shape⟩ | ⟨later', _, shape, counted, chain⟩
  · cases shape
  · obtain ⟨rfl, rfl⟩ := cons.inj shape
    have same := load_cache (take h 0) counted
    exact ⟨rfl, same ▸ counted, same ▸ chain, (nodup_cons.mp wf.nodup).2,
      fun c inside => wf.good c (mem_cons_of_mem _ inside), wf.superb, wf.word⟩

structure Kept (h h' : Host) : Prop where
  isize : h'.isize = h.isize
  fsize : h'.fsize = h.fsize

lemma fsBlockAlloc_cons (wf : WellFormed h.super image (b :: later))
    (fits : h.fsize ≤ 2 ^ 22) : ∃ h', fsBlockAlloc h image = (some b, h') ∧
      WellFormed h'.super image later ∧ Kept h h' ∧ h'.tfree = (take h 0).tfree := by
  have listed := mem_cons_self (a := b) (l := later)
  have nonzero := good_ne_zero wf (wf.good b listed)
  rcases count : h.nfree with _ | n
  · have none := (entries_eq_nil (cache h.super)).mpr (by simp [cache, Host.super, count])
    have shape := chain_nil (none ▸ wf.chain)
    cases shape
  · by_cases bottom : n = 0
    · subst bottom
      obtain ⟨slot, wf'⟩ := load_wellFormed wf count
      obtain ⟨above, below⟩ := listed_small wf fits listed
      refine ⟨_, ?_, wf', ⟨rfl, rfl⟩, rfl⟩
      have read : fsReadBlock (take h 0) image b = some (image b) := by
        simp only [fsReadBlock, seek_small below]
        exact if_neg above
      simp [fsBlockAlloc, count, allocFrom, slot, read]
    · obtain ⟨top, wf'⟩ := take_wellFormed wf count bottom
      refine ⟨_, ?_, wf', ⟨rfl, rfl⟩, rfl⟩
      simp [fsBlockAlloc, count, allocFrom, top, if_neg bottom, if_neg nonzero]

lemma push_super (h : Host) (nonzero : b ≠ 0) (room : h.nfree < NICFREE) :
    (push h b).super = { freePush h.super b with fs_fmod := 0 } := by
  have count : (h.nfree + 1) % 2 ^ 32 = h.nfree + 1 := by
    simp only [NICFREE] at room
    omega
  simp only [push, if_neg nonzero, count]
  rfl

lemma fsBlockFree_spec (wf : WellFormed h.super image list) (fits : h.fsize ≤ 2 ^ 22)
    (started : 0 < h.nfree) (good : badblock h.super b = false) (fresh : b ∉ list)
    (junk : Block) : ∃ h' image', fsBlockFree h image b junk = (true, h', image') ∧
      WellFormed h'.super image' (b :: list) ∧ Kept h h' ∧ h'.tfree = (h.tfree + 1) % 2 ^ 32 := by
  have nonzero := good_ne_zero wf good
  have count : ¬ h.super.fs_nfree ≤ 0 := by
    simp only [Host.super]
    omega
  have tfree : ∀ h' : Host, h'.tfree = h.tfree → (push h' b).tfree = (h.tfree + 1) % 2 ^ 32 :=
    fun h' same => by rw [push, if_neg nonzero, same]
  by_cases full : h.nfree ≥ NICFREE
  · -- the table goes into the block that is freed
    have inside := (badblock_eq_false h.super b).mp good
    simp only [Host.super] at inside
    have above : ¬ b < h.isize := by omega
    have write : fsWriteBlock h image b (putFblk junk ⟨h.nfree, h.free⟩) =
        some (freeSpill h.super (update image b junk) b).2 := by
      have same : freeSpill h.super (update image b junk) b = ({ h.super with fs_nfree := 0 },
            update image b (putFblk junk ⟨h.nfree, h.free⟩)) := by
        simp [freeSpill, cache, Host.super]
      rw [fsWriteBlock, if_neg above, seek_small (by omega), same]
    refine ⟨push { h with nfree := 0 } b, (freeSpill h.super (update image b junk) b).2,
      ?_, ?_, ⟨rfl, rfl⟩, tfree _ rfl⟩
    · simp [fsBlockFree, if_pos full, write]
    · obtain ⟨counted, chain⟩ := freeSpill_spec (wellFormed_write wf fresh junk) fresh
      have linked := wellFormed_link { h.super with fs_nfree := 0 } good fresh rfl counted chain
        wf.nodup wf.good wf.superb wf.word
      exact wellFormed_fields linked _ _ _
  · refine ⟨push h b, image, by simp [fsBlockFree, if_neg full], ?_, ⟨rfl, rfl⟩, tfree h rfl⟩
    have room : ¬ h.super.fs_nfree ≥ NICFREE := by
      simp only [Host.super]
      omega
    have enter : freeEnter h.super b = .done (freePush h.super b) := by
      simp [freeEnter, if_neg count, if_neg room]
    rcases freeEnter_spec wf good fresh with ⟨fs', done, wf', _⟩ | spill
    · cases enter.symm.trans done
      rw [push_super h nonzero (by omega)]
      exact wellFormed_fields wf' _ _ _
    · cases enter.symm.trans spill

end Calls

/-! ## Runs -/

structure Agree (start s : State) : Prop where
  host : WellFormed s.host.super s.image s.list
  kernel : WellFormed s.fs s.disk s.list
  isize : s.host.isize = s.fs.fs_isize
  fsize : s.host.fsize = s.fs.fs_fsize
  answers : ∀ a ∈ s.answers, a.1 = a.2
  once : s.out.Nodup
  outside : ∀ b ∈ s.out, b ∉ s.list
  tfree : start.fs.fs_tfree = start.list.length →
    s.host.tfree = s.list.length ∧ s.fs.fs_tfree = s.list.length

lemma started_agree {s : State} (started : Started s) : Agree s s := by
  have low := started.wf.counted.1
  have high := started.wf.counted.2
  simp only [cache, NICFREE] at low high
  have count : ((ofInt32 s.fs.fs_nfree : Nat) : Int) = s.fs.fs_nfree := by
    simp only [ofInt32]
    omega
  have same : cache s.host.super = cache s.fs := by
    rw [started.host]
    simp [cache, Host.super, Host.ofSuper, count]
  have sizes : s.host.isize = s.fs.fs_isize ∧ s.host.fsize = s.fs.fs_fsize := by
    rw [started.host]
    exact ⟨rfl, rfl⟩
  have tfree : s.host.tfree = s.fs.fs_tfree := by
    rw [started.host]
    rfl
  refine ⟨⟨same ▸ started.wf.counted, ?_, started.wf.nodup, ?_, s.host.superb, ?_⟩, started.wf,
    sizes.1, sizes.2, ?_, ?_, ?_, fun right => ⟨tfree.trans right, right⟩⟩
  · rw [same, started.image]
    exact started.wf.chain
  · intro b inside
    have good := (badblock_eq_false s.fs b).mp (started.wf.good b inside)
    refine (badblock_eq_false _ b).mpr ?_
    simp only [Host.super, sizes.1, sizes.2]
    exact good
  · simp only [Host.super, sizes.2]
    exact started.wf.word
  · rw [started.answers]
    simp
  · rw [started.out]
    exact nodup_nil
  · rw [started.out]
    simp

variable {start s : State}

lemma alloc_agree (agree : Agree start s) (clr : Bool) (safe : Safe s (.alloc clr)) :
    Agree start (next s (.alloc clr)) := by
  obtain ⟨fits, nonempty, refills⟩ := safe
  obtain ⟨b, later, shape⟩ : ∃ b later, s.list = b :: later := by
    rcases ballocEnter_spec agree.host with ⟨_, empty, _⟩ | ⟨b, later, shape, _⟩
    · exact absurd empty nonempty
    · exact ⟨b, later, shape⟩
  obtain ⟨h', host, hwf, kept, htfree⟩ := fsBlockAlloc_cons (shape ▸ agree.host) fits
  obtain ⟨fs', disk', kernel, kwf, _, isize, fsize, _, ktfree⟩ :=
    balloc_cons (shape ▸ agree.kernel) refills clr
  have fresh := (nodup_cons.mp (shape ▸ agree.kernel.nodup)).1
  have result : next s (.alloc clr) =
      ⟨h', s.image, fs', disk', later, b :: s.out, (some b, some b) :: s.answers⟩ := by
    simp [next, host, kernel, shape]
  rw [result]
  refine ⟨hwf, kwf, kept.isize.trans (agree.isize.trans isize.symm),
    kept.fsize.trans (agree.fsize.trans fsize.symm), ?_, ?_, ?_, ?_⟩
  · intro a answered
    rcases mem_cons.mp answered with rfl | before
    · rfl
    · exact agree.answers a before
  · refine nodup_cons.mpr ⟨fun out => agree.outside b out ?_, agree.once⟩
    rw [shape]
    exact mem_cons_self
  · intro c out listed
    rcases mem_cons.mp out with rfl | before
    · exact fresh listed
    · refine agree.outside c before ?_
      rw [shape]
      exact mem_cons_of_mem b listed
  · intro right
    obtain ⟨host, kernel⟩ := agree.tfree right
    have := length_lt agree.kernel
    simp only [htfree, take, ktfree, host, kernel, shape, length_cons] at this ⊢
    omega

lemma free_agree (agree : Agree start s) (b : Nat) (junk : Block)
    (allowed : Allowed s (.free b junk)) (safe : Safe s (.free b junk)) :
    Agree start (next s (.free b junk)) := by
  obtain ⟨good, fresh⟩ := allowed
  obtain ⟨fits, started⟩ := safe
  have hostGood : badblock s.host.super b = false := by
    rw [Host.super, agree.isize, agree.fsize]
    exact good
  obtain ⟨h', image', host, hwf, kept, htfree⟩ :=
    fsBlockFree_spec agree.host fits started hostGood fresh junk
  obtain ⟨fs', disk', kernel, kwf, _, isize, fsize, _, ktfree⟩ := free_spec agree.kernel good fresh
  have shape : next s (.free b junk) =
      ⟨h', image', fs', disk', b :: s.list, s.out.erase b, s.answers⟩ := by
    simp [next, host, kernel]
  rw [shape]
  refine ⟨hwf, kwf, kept.isize.trans (agree.isize.trans isize.symm),
    kept.fsize.trans (agree.fsize.trans fsize.symm), agree.answers, agree.once.erase b, ?_, ?_⟩
  · intro c out listed
    rcases mem_cons.mp listed with rfl | listed
    · exact (agree.once.not_mem_erase) out
    · exact agree.outside c (mem_of_mem_erase out) listed
  · intro right
    obtain ⟨host, kernel⟩ := agree.tfree right
    have := length_lt kwf
    simp only [length_cons] at this ⊢
    omega

/-- As long as nothing is allocated from an empty list, no chain block holds an empty table, nothing is
freed into an empty table and the volume is below 4 gigabytes, host and kernel give the same answers
and keep the same list, and the host hands out no block twice. -/
theorem host_agrees_with_kernel {acts : List Act} (started : Started start)
    (run : Run Step (fun s a => Allowed s a ∧ Safe s a) start acts s) : Agree start s := by
  refine run_invariant (Agree start) ?_ run (started_agree started)
  rintro s a t agree ⟨allowed, safe⟩ rfl
  cases a with
  | alloc clr => exact alloc_agree agree clr safe
  | free b junk => exact free_agree agree b junk allowed safe

/-- One block, number 2, is free; the other data block, 3, is in use. -/
def oneFree : State :=
  ⟨⟨2, 4, 2, fun k => if k = 1 then 2 else 0, 1, by decide⟩, fun _ => zeroBlock,
    ⟨2, 4, 2, fun k => if k = 1 then 2 else 0, 0, 0, 1⟩, fun _ => zeroBlock, [2], [], []⟩

theorem host_agrees_with_kernel_one_free : Started oneFree ∧
    Agree oneFree (next (next oneFree (.alloc false)) (.free 3 zeroBlock)) := by
  have chain : Chain oneFree.disk (entries (cache oneFree.fs)) [2] := .last [2]
  have started : Started oneFree :=
    ⟨⟨by decide, chain, by decide, by decide, by decide, by decide⟩, rfl, rfl, rfl, rfl⟩
  have first : Allowed oneFree (.alloc false) ∧ Safe oneFree (.alloc false) := by
    refine ⟨trivial, by decide, ?_, fun one => absurd one (by decide)⟩
    rintro (empty | ⟨one, _⟩)
    · exact absurd empty (by decide)
    · exact absurd one (by decide)
  have second : Allowed (next oneFree (.alloc false)) (.free 3 zeroBlock) ∧
      Safe (next oneFree (.alloc false)) (.free 3 zeroBlock) :=
    ⟨⟨by decide, by decide⟩, by decide, by decide⟩
  exact ⟨started, host_agrees_with_kernel started (.cons first rfl (.cons second rfl (.nil _)))⟩

/-- No block is free, and what block 2 holds reads as a table with block 2 in it. -/
def noneFree : State :=
  let disk : Disk := fun b => if b = 2 then setWords zeroBlock 2 (fun i => i + 1) else zeroBlock
  ⟨⟨2, 3, 1, fun _ => 0, 0, by decide⟩, disk, ⟨2, 3, 1, fun _ => 0, 0, 0, 0⟩, disk, [], [], []⟩

/-- After an allocation that fails, the host takes the contents of the first block freed for a table:
it hands out block 2 twice, where the kernel has no block left, and counts 2^32 - 2 free blocks. -/
theorem host_hands_out_twice : Started noneFree ∧
    Allowed (next noneFree (.alloc false)) (.free 2 zeroBlock) ∧
    let s := [.alloc false, .free 2 zeroBlock, .alloc false, .alloc false].foldl next noneFree
    s.answers = [(some 2, none), (some 2, some 2), (none, none)] ∧ s.out = [2, 2] ∧
      s.host.tfree = 2 ^ 32 - 2 := by
  have chain : Chain noneFree.disk (entries (cache noneFree.fs)) [] := .last []
  refine ⟨⟨⟨by decide, chain, by decide, by decide, by decide, by decide⟩, rfl, rfl, rfl, rfl⟩, ?_, ?_⟩
  · exact ⟨by decide, by decide⟩
  · decide

end HostFreeList
