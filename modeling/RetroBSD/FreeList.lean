import RetroBSD.Words

/-!
# The free block list

`balloc` and `free` of `sys/kernel/ufs_alloc.c`. The superblock caches up to
`NICFREE` free blocks; the number in slot 0 is a free block that holds the next
such table, or 0. Both functions are cut at the calls that may sleep, so that
the pieces serve one process alone and several processes that take turns.

Contents of blocks are those seen through the buffer cache, and no transfer
fails. Console messages, `fs_time` and the choice between `bwrite` and `bdwrite`
are left out.
-/

namespace FreeList

open Words List
open Function (update update_of_ne update_self)

def NICFREE : Nat := 200

structure Fblk where
  df_nfree : Int
  df_free : Nat → Nat

/-- The fields of `struct fs` that the two functions use. -/
structure Fs where
  fs_isize : Nat
  fs_fsize : Nat
  fs_nfree : Int
  fs_free : Nat → Nat
  fs_flock : Nat
  fs_fmod : Nat
  fs_tfree : Nat

abbrev Disk := Nat → Block

def toInt32 (w : Nat) : Int := if w < 2 ^ 31 then w else w - 2 ^ 32

def ofInt32 (i : Int) : Nat := (i % 2 ^ 32).toNat

def getFblk (b : Block) : Fblk := ⟨toInt32 (word b 0), fun k => word b (k + 1)⟩

def putFblk (b : Block) (f : Fblk) : Block :=
  setWords b (NICFREE + 1) (fun i => if i = 0 then ofInt32 f.df_nfree else f.df_free (i - 1))

/-- The superblock from `fs_nfree` on, read as a `struct fblk`. -/
def cache (fs : Fs) : Fblk := ⟨fs.fs_nfree, fs.fs_free⟩

def setCache (fs : Fs) (f : Fblk) : Fs := { fs with fs_nfree := f.df_nfree, fs_free := f.df_free }

def badblock (fs : Fs) (bn : Nat) : Bool := decide (bn < fs.fs_isize ∨ bn ≥ fs.fs_fsize)

/-- The `do` loop of `balloc` with the given `fs_nfree`; `none` is `goto nospace`. -/
def pop (fs : Fs) : Nat → Option (Nat × Nat)
  | 0 => none
  | n + 1 =>
    if n + 1 > NICFREE then none
    else
      let bno := fs.fs_free n
      if bno = 0 then none
      else if badblock fs bno then pop fs n
      else some (bno, n)

/-- What has become of a `balloc` when it next sleeps. -/
inductive Alloc where
  | nospace (fs : Fs)
  | reload (fs : Fs) (bno : Nat)
  | take (fs : Fs) (bno : Nat)

def nospace (fs : Fs) : Alloc := .nospace { fs with fs_nfree := 0, fs_tfree := 0 }

/-- `balloc` once `fs_flock` is clear, up to `bread` of the chain block or to the
last `getblk`. -/
def ballocEnter (fs : Fs) : Alloc :=
  match pop fs fs.fs_nfree.toNat with
  | none => nospace fs
  | some (bno, n) =>
    let fs := { fs with fs_nfree := (n : Int) }
    if fs.fs_nfree ≤ 0 then .reload { fs with fs_flock := fs.fs_flock + 1 } bno
    else .take fs bno

/-- Between `bread` of the chain block and `getblk` of the superblock. -/
def ballocReload (fs : Fs) (disk : Disk) (bno : Nat) : Fs := setCache fs (getFblk (disk bno))

/-- Between `getblk` of the superblock and writing it. -/
def ballocSuper (fs : Fs) : Fs := { fs with fs_fmod := 0 }

/-- After the superblock is written. -/
def ballocUnlock (fs : Fs) (bno : Nat) : Alloc :=
  let fs := { fs with fs_flock := 0 }
  if fs.fs_nfree ≤ 0 then nospace fs else .take fs bno

/-- After the last `getblk`; `clr` is the flag `B_CLRBUF`. -/
def ballocTake (fs : Fs) (disk : Disk) (clr : Bool) (bno : Nat) : Fs × Disk :=
  ({ fs with fs_fmod := 1, fs_tfree := (fs.fs_tfree + (2 ^ 32 - 1)) % 2 ^ 32 },
    if clr then update disk bno zeroBlock else disk)

/-- What `balloc` does after the first sleep, or at once. -/
def ballocFinish (disk : Disk) (clr : Bool) : Alloc → Option Nat × Fs × Disk
  | .nospace fs => (none, fs, disk)
  | .reload fs _ => (none, fs, disk)  -- never after `ballocUnlock`
  | .take fs bno => (some bno, ballocTake fs disk clr bno)

/-- `balloc` without interruption; the result `none` is NULL with ENOSPC. -/
def balloc (fs : Fs) (disk : Disk) (clr : Bool) : Option Nat × Fs × Disk :=
  match ballocEnter fs with
  | .reload fs bno =>
    ballocFinish disk clr (ballocUnlock (ballocSuper (ballocReload fs disk bno)) bno)
  | next => ballocFinish disk clr next

/-- The last three statements of `free`. -/
def freePush (fs : Fs) (bno : Nat) : Fs :=
  { fs with
    fs_free := update fs.fs_free fs.fs_nfree.toNat bno
    fs_nfree := fs.fs_nfree + 1
    fs_tfree := (fs.fs_tfree + 1) % 2 ^ 32
    fs_fmod := 1 }

inductive Freed where
  | done (fs : Fs)
  | spill (fs : Fs)

/-- `free` of a good block once `fs_flock` is clear, up to `getblk` or to the end. -/
def freeEnter (fs : Fs) (bno : Nat) : Freed :=
  let fs := if fs.fs_nfree ≤ 0 then
    { fs with fs_nfree := 1, fs_free := update fs.fs_free 0 0 } else fs
  if fs.fs_nfree ≥ NICFREE then .spill { fs with fs_flock := fs.fs_flock + 1 }
  else .done (freePush fs bno)

/-- Between `getblk` and writing the block. -/
def freeSpill (fs : Fs) (disk : Disk) (bno : Nat) : Fs × Disk :=
  ({ fs with fs_nfree := 0 }, update disk bno (putFblk (disk bno) (cache fs)))

def freeUnlock (fs : Fs) (bno : Nat) : Fs := freePush { fs with fs_flock := 0 } bno

/-- `free` without interruption. -/
def free (fs : Fs) (disk : Disk) (bno : Nat) : Fs × Disk :=
  if badblock fs bno then (fs, disk)
  else
    match freeEnter fs bno with
    | .done fs => (fs, disk)
    | .spill fs =>
      let r := freeSpill fs disk bno
      (freeUnlock r.1 bno, r.2)

/-! ## The list -/

def entries (f : Fblk) : List Nat := (List.range f.df_nfree.toNat).map f.df_free

def Counted (f : Fblk) : Prop := 0 ≤ f.df_nfree ∧ f.df_nfree ≤ NICFREE

instance (f : Fblk) : Decidable (Counted f) := inferInstanceAs (Decidable (_ ∧ _))

/-- The free blocks in the order in which they are handed out, from a table of
entries on. -/
inductive Chain (disk : Disk) : List Nat → List Nat → Prop where
  | empty : Chain disk [] []
  | last (rest : List Nat) : Chain disk (0 :: rest) rest.reverse
  | link {c : Nat} (rest : List Nat) {later : List Nat} (names : c ≠ 0)
      (counted : Counted (getFblk (disk c)))
      (next : Chain disk (entries (getFblk (disk c))) later) :
      Chain disk (c :: rest) (rest.reverse ++ c :: later)

/-- `list` is the sequence of free blocks of the superblock. Block 0 is the
superblock itself, so the first data block is another. -/
structure WellFormed (fs : Fs) (disk : Disk) (list : List Nat) : Prop where
  counted : Counted (cache fs)
  chain : Chain disk (entries (cache fs)) list
  nodup : list.Nodup
  good : ∀ b ∈ list, badblock fs b = false
  superb : 0 < fs.fs_isize
  word : fs.fs_fsize < 2 ^ 32

lemma badblock_eq_false (fs : Fs) (b : Nat) :
    badblock fs b = false ↔ fs.fs_isize ≤ b ∧ b < fs.fs_fsize := by
  simp [badblock]

section Chains

variable {disk disk' : Disk} {es list : List Nat}

lemma chain_congr (chain : Chain disk es list) (same : ∀ b ∈ list, disk' b = disk b) :
    Chain disk' es list := by
  induction chain with
  | empty => exact .empty
  | last rest => exact .last rest
  | @link c rest later names counted next ih =>
    have here : disk' c = disk c := same c (by simp)
    refine .link rest names (here.symm ▸ counted) ?_
    simp only [here]
    exact ih (fun b hb => same b (by simp [hb]))

lemma chain_push (chain : Chain disk es list) (started : es ≠ []) (b : Nat) :
    Chain disk (es ++ [b]) (b :: list) := by
  cases chain with
  | empty => exact absurd rfl started
  | last rest =>
    have pushed : Chain disk (0 :: (rest ++ [b])) (rest ++ [b]).reverse := .last _
    simpa using pushed
  | @link c rest later names counted next =>
    have pushed := Chain.link (rest ++ [b]) names counted next
    simpa using pushed

lemma chain_pop {b : Nat} (chain : Chain disk (es ++ [b]) list) (more : es ≠ []) :
    ∃ later, list = b :: later ∧ Chain disk es later := by
  obtain ⟨first, es, rfl⟩ := exists_cons_of_ne_nil more
  generalize shape : first :: es ++ [b] = table at chain
  cases chain with
  | empty => cases shape
  | last rest =>
    obtain ⟨rfl, rfl⟩ := cons.inj shape
    exact ⟨es.reverse, by simp, .last es⟩
  | @link c rest later names counted next =>
    obtain ⟨rfl, rfl⟩ := cons.inj shape
    exact ⟨es.reverse ++ first :: later, by simp, .link es names counted next⟩

lemma chain_single {c : Nat} (chain : Chain disk [c] list) :
    (c = 0 ∧ list = []) ∨ ∃ later, c ≠ 0 ∧ list = c :: later ∧ Counted (getFblk (disk c)) ∧
      Chain disk (entries (getFblk (disk c))) later := by
  cases chain with
  | last => exact .inl ⟨rfl, rfl⟩
  | link _ names counted next => exact .inr ⟨_, names, rfl, counted, next⟩

lemma chain_nil (chain : Chain disk [] list) : list = [] := by
  cases chain
  rfl

/-- Every entry in use is on the list, but for the 0 that ends it. -/
lemma mem_of_entry (chain : Chain disk es list) {b : Nat} (hb : b ∈ es) : b ∈ list ∨ b = 0 := by
  cases chain with
  | empty => cases hb
  | last rest =>
    rcases mem_cons.mp hb with rfl | h
    · exact .inr rfl
    · exact .inl (mem_reverse.mpr h)
  | link rest names counted next =>
    rcases mem_cons.mp hb with rfl | h
    · exact .inl (by simp)
    · exact .inl (by simp [h])

end Chains

/-! ## The tables -/

lemma entries_succ (f : Fblk) (n : Nat) (count : f.df_nfree = n + 1) :
    entries f = entries { f with df_nfree := (n : Int) } ++ [f.df_free n] := by
  have size : f.df_nfree.toNat = n + 1 := by omega
  simp [entries, size, range_succ]

lemma entries_eq_nil (f : Fblk) : entries f = [] ↔ f.df_nfree ≤ 0 := by
  simp [entries]

lemma entries_congr {f g : Fblk} (count : f.df_nfree = g.df_nfree)
    (same : ∀ k : Nat, (k : Int) < f.df_nfree → f.df_free k = g.df_free k) : entries f = entries g := by
  simp only [entries, ← count]
  refine map_congr_left (fun k hk => same k ?_)
  have := mem_range.mp hk
  omega

lemma toInt32_ofInt32 {i : Int} (low : 0 ≤ i) (high : i < 2 ^ 31) : toInt32 (ofInt32 i) = i := by
  have small : (i % 2 ^ 32).toNat < 2 ^ 31 := by omega
  simp only [toInt32, ofInt32]
  omega

lemma getFblk_putFblk {b : Block} {f : Fblk} (counted : Counted f)
    (small : ∀ v ∈ entries f, v < 2 ^ 32) :
    Counted (getFblk (putFblk b f)) ∧ entries (getFblk (putFblk b f)) = entries f := by
  obtain ⟨low, high⟩ := counted
  simp only [NICFREE] at high
  have count : (getFblk (putFblk b f)).df_nfree = f.df_nfree := by
    have fits : ofInt32 f.df_nfree % 2 ^ 32 = ofInt32 f.df_nfree := by
      simp only [ofInt32]
      omega
    simp only [getFblk, putFblk, word_setWords, if_true, fits]
    exact toInt32_ofInt32 low (by omega)
  refine ⟨⟨count ▸ low, count ▸ by simpa only [NICFREE] using high⟩, entries_congr count ?_⟩
  intro k hk
  have inside : k + 1 < NICFREE + 1 := by
    simp only [NICFREE]
    omega
  have value : f.df_free k < 2 ^ 32 := small _ (mem_map.mpr ⟨k, mem_range.mpr (by omega), rfl⟩)
  simp only [getFblk, putFblk, word_setWords, inside, if_true, Nat.add_one_ne_zero, if_false,
    Nat.add_sub_cancel]
  exact Nat.mod_eq_of_lt value

/-! ## One call at a time -/

section Calls

variable {fs : Fs} {disk : Disk} {list : List Nat}

variable {b : Nat}

lemma good_ne_zero (wf : WellFormed fs disk list) (good : badblock fs b = false) : b ≠ 0 := by
  have := (badblock_eq_false fs b).mp good
  have := wf.superb
  omega

lemma entry_lt (wf : WellFormed fs disk list) : ∀ v ∈ entries (cache fs), v < 2 ^ 32 := by
  intro v hv
  have := wf.word
  rcases mem_of_entry wf.chain hv with h | rfl
  · have := (badblock_eq_false fs v).mp (wf.good v h)
    omega
  · omega

lemma length_lt (wf : WellFormed fs disk list) : list.length < 2 ^ 32 := by
  have inside : list ⊆ range fs.fs_fsize := by
    intro b hb
    exact mem_range.mpr ((badblock_eq_false fs b).mp (wf.good b hb)).2
  have := (subperm_of_subset wf.nodup inside).length_le
  have := wf.word
  simp only [length_range] at *
  omega

/-- A good entry on top of the table is what the loop stops at. -/
lemma pop_good {n : Nat} (bound : n < NICFREE) (nonzero : fs.fs_free n ≠ 0)
    (good : badblock fs (fs.fs_free n) = false) : pop fs (n + 1) = some (fs.fs_free n, n) := by
  have inside : ¬ n + 1 > NICFREE := by omega
  simp [pop, inside, nonzero, good]

lemma pop_last (zero : fs.fs_free 0 = 0) : pop fs 1 = none := by
  simp [pop, zero]

/-- When only slot 0 is left and it names a chain block, that block holds a table
with an entry. -/
def Refills (fs : Fs) (disk : Disk) : Prop :=
  fs.fs_nfree = 1 → fs.fs_free 0 ≠ 0 → 0 < (getFblk (disk (fs.fs_free 0))).df_nfree

def Empty (fs : Fs) : Prop := fs.fs_nfree ≤ 0 ∨ (fs.fs_nfree = 1 ∧ fs.fs_free 0 = 0)

/-- The first sleep of `balloc`: the list is empty, or its head comes from the
cache, or its head is the chain block itself. -/
lemma ballocEnter_spec (wf : WellFormed fs disk list) :
    (list = [] ∧ Empty fs ∧ ballocEnter fs = nospace fs) ∨
    ∃ b later, list = b :: later ∧ ¬ Empty fs ∧
      ((∃ n : Nat, 0 < n ∧ ballocEnter fs = .take { fs with fs_nfree := n } b ∧
          WellFormed { fs with fs_nfree := n } disk later) ∨
        (fs.fs_nfree = 1 ∧ fs.fs_free 0 = b ∧
          ballocEnter fs = .reload { fs with fs_nfree := 0, fs_flock := fs.fs_flock + 1 } b ∧
          Counted (getFblk (disk b)) ∧ Chain disk (entries (getFblk (disk b))) later)) := by
  obtain ⟨low, high⟩ := wf.counted
  simp only [cache] at low high
  obtain ⟨count, hcount⟩ : ∃ n : Nat, fs.fs_nfree = n := ⟨fs.fs_nfree.toNat, by omega⟩
  rcases count with _ | n
  · have none := (entries_eq_nil (cache fs)).mpr (by simp [cache, hcount])
    exact .inl ⟨chain_nil (none ▸ wf.chain), .inl (by omega),
      by simp [ballocEnter, hcount, pop]⟩
  · have bound : n < NICFREE := by omega
    have split : entries (cache fs) = entries (cache { fs with fs_nfree := n }) ++
      [fs.fs_free n] := entries_succ _ n (by simpa [cache] using hcount)
    have chain := wf.chain
    simp only [split] at chain
    have size : ((n : Int) + 1).toNat = n + 1 := by omega
    rcases Nat.eq_zero_or_pos n with rfl | more
    · have bottom := (entries_eq_nil (cache { fs with fs_nfree := 0 })).mpr (by simp [cache])
      simp only [Int.natCast_zero] at chain
      have one : fs.fs_nfree = 1 := by simpa using hcount
      rcases chain_single chain with ⟨zero, nothing⟩ | ⟨later, nonzero, shape, counted, next⟩
      · exact .inl ⟨nothing, .inr ⟨one, zero⟩, by simp [ballocEnter, one, pop_last zero]⟩
      · have good := wf.good (fs.fs_free 0) (by simp [shape])
        refine .inr ⟨_, later, shape, ?_, .inr ⟨one, rfl, ?_, counted, next⟩⟩
        · rintro (h | ⟨_, h⟩)
          · omega
          · exact nonzero h
        · have popped := pop_good (by decide) nonzero good
          simp [ballocEnter, one, popped]
    · have rest : entries (cache { fs with fs_nfree := (n : Int) }) ≠ [] := by
        intro h
        have := (entries_eq_nil _).mp h
        simp only [cache] at this
        omega
      obtain ⟨later, shape, chain'⟩ := chain_pop chain rest
      have good := wf.good (fs.fs_free n) (by simp [shape])
      have popped := pop_good bound (good_ne_zero wf good) good
      refine .inr ⟨_, later, shape, ?_, .inl ⟨n, more, ?_, ?_⟩⟩
      · rintro (h | ⟨h, _⟩) <;> omega
      · have positive : ¬ n = 0 := by omega
        simp [ballocEnter, hcount, popped, positive]
      · exact ⟨⟨by simp [cache], by simp only [cache]; omega⟩, chain',
          (nodup_cons.mp (shape ▸ wf.nodup)).2, fun b hb => wf.good b (by simp [shape, hb]),
          wf.superb, wf.word⟩

/-- The first sleep of `free`: the block is on the list, or the table is full. -/
lemma freeEnter_spec (wf : WellFormed fs disk list) (good : badblock fs b = false)
    (fresh : b ∉ list) : (∃ fs', freeEnter fs b = .done fs' ∧ WellFormed fs' disk (b :: list) ∧
        fs'.fs_isize = fs.fs_isize ∧ fs'.fs_fsize = fs.fs_fsize ∧ fs'.fs_flock = fs.fs_flock ∧
        fs'.fs_tfree = (fs.fs_tfree + 1) % 2 ^ 32) ∨
      freeEnter fs b = .spill { fs with fs_flock := fs.fs_flock + 1 } := by
  obtain ⟨-, -⟩ := wf.counted
  -- pushing on a table that is not full
  have push : ∀ fs' : Fs, WellFormed fs' disk list → fs'.fs_nfree < NICFREE → 0 < fs'.fs_nfree →
      badblock fs' b = false → WellFormed (freePush fs' b) disk (b :: list) := by
    intro fs' wf' room started good'
    obtain ⟨n, hn⟩ : ∃ n : Nat, fs'.fs_nfree = n := ⟨fs'.fs_nfree.toNat, by omega⟩
    have split := entries_succ (cache (freePush fs' b)) n (by simp [cache, freePush, hn])
    have below : entries { cache (freePush fs' b) with df_nfree := n } =
        entries (cache fs') := by
      refine entries_congr (by simp [cache, hn]) (fun k hk => ?_)
      have different : k ≠ n := by
        rintro rfl
        exact absurd hk (by simp)
      simp [cache, freePush, hn, update_of_ne different]
    have top : (cache (freePush fs' b)).df_free n = b := by simp [cache, freePush, hn]
    have chain := chain_push wf'.chain (fun h => by
      have := (entries_eq_nil _).mp h
      simp only [cache] at this
      omega) b
    refine ⟨⟨by simp only [cache, freePush]; omega, by simp only [cache, freePush]; omega⟩, ?_,
      nodup_cons.mpr ⟨fresh, wf'.nodup⟩, ?_, wf'.superb, wf'.word⟩
    · simpa only [split, below, top] using chain
    · intro c hc
      rcases mem_cons.mp hc with rfl | h
      · exact good'
      · exact wf'.good c h
  by_cases nothing : fs.fs_nfree ≤ 0
  · have none := (entries_eq_nil (cache fs)).mpr nothing
    have isEmpty := chain_nil (none ▸ wf.chain)
    have wf' : WellFormed { fs with fs_nfree := 1, fs_free := update fs.fs_free 0 0 } disk
        list := by
      refine ⟨by simp [Counted, cache, NICFREE], ?_, wf.nodup, wf.good, wf.superb, wf.word⟩
      have one : entries (cache { fs with
          fs_nfree := 1, fs_free := update fs.fs_free 0 0 }) = [0] := by
        simp [entries, cache, range_succ]
      simp only [one, isEmpty]
      exact .last []
    refine .inl ⟨_, by simp [freeEnter, nothing, NICFREE],
      push _ wf' (by simp [NICFREE]) (by simp) good, rfl, rfl, rfl, rfl⟩
  · by_cases full : fs.fs_nfree ≥ NICFREE
    · exact .inr (by simp [freeEnter, nothing, full])
    · exact .inl ⟨freePush fs b, by simp [freeEnter, nothing, full],
        push fs wf (by omega) (by omega) good, rfl, rfl, rfl, rfl⟩

/-- Spilling moves the table into the block that is freed, and loses no entry. -/
lemma freeSpill_spec (wf : WellFormed fs disk list) (fresh : b ∉ list) :
    Counted (getFblk ((freeSpill fs disk b).2 b)) ∧
      Chain (freeSpill fs disk b).2 (entries (getFblk ((freeSpill fs disk b).2 b))) list := by
  have stored := getFblk_putFblk (b := disk b) wf.counted (entry_lt wf)
  simp only [freeSpill, update_self]
  refine ⟨stored.1, ?_⟩
  simp only [stored.2]
  refine chain_congr wf.chain (fun c hc => update_of_ne ?_ _ _)
  rintro rfl
  exact fresh hc

/-- A table in a block together with the block itself, as slot 0 of a new cache. -/
lemma wellFormed_link (fs : Fs) (good : badblock fs b = false) (fresh : b ∉ list)
    (nothing : fs.fs_nfree = 0) (counted : Counted (getFblk (disk b)))
    (chain : Chain disk (entries (getFblk (disk b))) list) (nodup : list.Nodup)
    (goods : ∀ c ∈ list, badblock fs c = false) (superb : 0 < fs.fs_isize)
    (word : fs.fs_fsize < 2 ^ 32) : WellFormed (freeUnlock fs b) disk (b :: list) := by
  have one : entries (cache (freeUnlock fs b)) = [b] := by
    simp [entries, cache, freeUnlock, freePush, nothing]
  have nonzero : b ≠ 0 := by
    have := (badblock_eq_false fs b).mp good
    omega
  refine ⟨by simp [Counted, cache, freeUnlock, freePush, nothing, NICFREE], ?_,
    nodup_cons.mpr ⟨fresh, nodup⟩, ?_, superb, word⟩
  · simp only [one]
    exact Chain.link [] nonzero counted chain
  · intro c hc
    rcases mem_cons.mp hc with rfl | h
    · exact good
    · exact goods c h

/-- A reloaded cache holds the rest of the list. -/
lemma wellFormed_reload (wf : WellFormed fs disk (b :: list)) (counted : Counted (getFblk (disk b)))
    (chain : Chain disk (entries (getFblk (disk b))) list) :
    WellFormed (ballocReload fs disk b) disk list :=
  ⟨counted, chain, (nodup_cons.mp wf.nodup).2, fun c hc => wf.good c (mem_cons_of_mem _ hc),
    wf.superb, wf.word⟩

/-- The fields that the list does not depend on. -/
lemma wellFormed_fields (wf : WellFormed fs disk list) (flock fmod tfree : Nat) :
    WellFormed { fs with fs_flock := flock, fs_fmod := fmod, fs_tfree := tfree } disk list :=
  ⟨wf.counted, wf.chain, wf.nodup, wf.good, wf.superb, wf.word⟩

lemma wellFormed_nospace (wf : WellFormed fs disk []) :
    WellFormed { fs with fs_nfree := 0, fs_tfree := 0 } disk [] := by
  have none := (entries_eq_nil (cache { fs with fs_nfree := 0, fs_tfree := 0 })).mpr (by simp [cache])
  exact ⟨by simp [Counted, cache], by simpa only [none] using Chain.empty, wf.nodup, wf.good, wf.superb, wf.word⟩

/-- Zeroing a block that is not on the list. -/
lemma wellFormed_write (wf : WellFormed fs disk list) (fresh : b ∉ list) (contents : Block) :
    WellFormed fs (update disk b contents) list := by
  refine ⟨wf.counted, chain_congr wf.chain (fun c hc => update_of_ne ?_ _ _), wf.nodup, wf.good,
    wf.superb, wf.word⟩
  rintro rfl
  exact fresh hc

lemma wellFormed_take (wf : WellFormed fs disk list) (fresh : b ∉ list) (clr : Bool) :
    WellFormed (ballocTake fs disk clr b).1 (ballocTake fs disk clr b).2 list := by
  cases clr with
  | false => exact wellFormed_fields wf _ _ _
  | true => exact wellFormed_write (wellFormed_fields wf fs.fs_flock 1 _) fresh zeroBlock

lemma balloc_empty (wf : WellFormed fs disk []) (clr : Bool) :
    balloc fs disk clr = (none, { fs with fs_nfree := 0, fs_tfree := 0 }, disk) := by
  rcases ballocEnter_spec wf with ⟨_, _, enter⟩ | ⟨b, later, shape, _⟩
  · simp [balloc, enter, nospace, ballocFinish]
  · cases shape

lemma balloc_cons (wf : WellFormed fs disk (b :: list)) (refills : Refills fs disk)
    (clr : Bool) : ∃ fs' disk', balloc fs disk clr = (some b, fs', disk') ∧
      WellFormed fs' disk' list ∧ (∀ c, c ≠ b → disk' c = disk c) ∧
      fs'.fs_isize = fs.fs_isize ∧ fs'.fs_fsize = fs.fs_fsize ∧
      (fs.fs_flock = 0 → fs'.fs_flock = 0) ∧
      fs'.fs_tfree = (fs.fs_tfree + (2 ^ 32 - 1)) % 2 ^ 32 := by
  have fresh := (nodup_cons.mp wf.nodup).1
  have other : ∀ fs c, c ≠ b → (ballocTake fs disk clr b).2 c = disk c := by
    intro fs c hc
    cases clr with
    | false => rfl
    | true => exact update_of_ne hc _ _
  rcases ballocEnter_spec wf with ⟨shape, _⟩ | ⟨b', later, shape, _, next⟩
  · cases shape
  obtain ⟨rfl, rfl⟩ := cons.inj shape
  rcases next with ⟨n, _, enter, wf'⟩ | ⟨one, slot, enter, counted, chain⟩
  · exact ⟨_, _, by simp [balloc, enter, ballocFinish], wellFormed_take wf' fresh clr, other _,
      rfl, rfl, fun h => h, rfl⟩
  · have count : ¬ (getFblk (disk b)).df_nfree ≤ 0 := by
      have := refills one (slot ▸ good_ne_zero wf (wf.good b (by simp)))
      simp only [slot] at this
      omega
    have wf' := wellFormed_take (wellFormed_fields (wellFormed_reload wf counted chain) 0 0 fs.fs_tfree)
      fresh clr
    refine ⟨_, _, ?_, wf', other _, rfl, rfl, fun _ => rfl, rfl⟩
    simp [balloc, enter, ballocUnlock, ballocSuper, ballocReload, setCache, count, ballocFinish]

lemma free_spec (wf : WellFormed fs disk list) (good : badblock fs b = false)
    (fresh : b ∉ list) : ∃ fs' disk', free fs disk b = (fs', disk') ∧
      WellFormed fs' disk' (b :: list) ∧ (∀ c, c ≠ b → disk' c = disk c) ∧
      fs'.fs_isize = fs.fs_isize ∧ fs'.fs_fsize = fs.fs_fsize ∧
      (fs.fs_flock = 0 → fs'.fs_flock = 0) ∧ fs'.fs_tfree = (fs.fs_tfree + 1) % 2 ^ 32 := by
  rcases freeEnter_spec wf good fresh with ⟨fs', enter, wf', isize, fsize, flock, tfree⟩ | enter
  · exact ⟨fs', disk, by simp [free, good, enter], wf', fun _ _ => rfl, isize, fsize,
      flock.trans, tfree⟩
  · have wf₁ := wellFormed_fields wf (fs.fs_flock + 1) fs.fs_fmod fs.fs_tfree
    obtain ⟨counted, chain⟩ := freeSpill_spec wf₁ fresh
    have wf' := wellFormed_link (freeSpill { fs with fs_flock := fs.fs_flock + 1 } disk b).1 good
      fresh rfl counted chain wf.nodup wf.good wf.superb wf.word
    exact ⟨_, _, by simp [free, good, enter], wf',
      fun c hc => update_of_ne hc _ _, rfl, rfl, fun _ => rfl, rfl⟩

end Calls

end FreeList
