import RetroBSD.Runs

/-!
# The cache of free inodes

`ialloc` and `ifree` on one file system, run by any number of processes. A
process gives way where it may sleep: for `fs_ilock`, in `iget`, in `iput` and
in `bread`. What `iget` and `bread` find is chosen by the environment; an inode
of a block counts as free when its `di_mode` is zero and `ifind` does not find
it. Only the cache is described, not which inodes are in use.

`stray` records that an element beyond the end of `fs_inode` was written.
-/

namespace InodeCache

open Runs

abbrev NICINOD : ℕ := 32
abbrev INOPB : ℕ := 16
abbrev ROOTINO : ℕ := 2
abbrev SUPERB : ℕ := 0

structure Fs where
  fs_isize : ℕ
  fs_ninode : ℕ
  fs_inode : ℕ → ℕ
  fs_ilock : ℕ
  fs_lasti : ℕ
  fs_nbehind : ℕ
  stray : Bool

/-- A scan of the i-list: its next block and the number of the first inode there. -/
structure Scan where
  first : Bool
  ino : ℕ
  adr : ℕ

/-- Where a process stands between two sleeps. -/
inductive Phase where
  | idle
  | waiting
  | getting (ino : ℕ)
  | putting
  | reading (scan : Scan)

def Phase.scans : Phase → Bool
  | .reading _ => true
  | _ => false

def itod (ino : ℕ) : ℕ := (ino + INOPB - 1) / INOPB

namespace Fs

/-- `fs->fs_inode[fs->fs_ninode++] = ino`. -/
def keep (fs : Fs) (ino : ℕ) : Fs :=
  { fs with
    fs_inode := Function.update fs.fs_inode fs.fs_ninode ino
    fs_ninode := fs.fs_ninode + 1
    stray := fs.stray || decide (NICINOD ≤ fs.fs_ninode) }

def ifree (fs : Fs) (ino : ℕ) : Fs :=
  if fs.fs_ilock ≠ 0 then fs
  else if NICINOD ≤ fs.fs_ninode then
    if ino < fs.fs_lasti then { fs with fs_nbehind := fs.fs_nbehind + 1 } else fs
  else fs.keep ino

/-- The loop over the next `n` inodes of a block; gives the number of the inode it stops at. -/
def fill (free : ℕ → Bool) : ℕ → Fs → ℕ → Fs × ℕ
  | 0, fs, ino => (fs, ino)
  | n + 1, fs, ino =>
    if free ino then
      if NICINOD ≤ (fs.keep ino).fs_ninode then (fs.keep ino, ino)
      else fill free n (fs.keep ino) (ino + 1)
    else fill free n fs (ino + 1)

/-- The last of the first `n` entries above `ROOTINO`, with the number of entries before it. -/
def take (inode : ℕ → ℕ) : ℕ → Option (ℕ × ℕ)
  | 0 => none
  | n + 1 => if inode n ≤ ROOTINO then take inode n else some (inode n, n)

/-- The test of the loop over the blocks; `finish` is what follows the scan, with `inobas`. -/
def blocks (fs : Fs) (finish : Fs → ℕ → Fs × Phase) (scan : Scan) (inobas : ℕ) : Fs × Phase :=
  if scan.adr < fs.fs_isize then (fs, .reading scan) else finish fs inobas

def fromtop (fs : Fs) (finish : Fs → ℕ → Fs × Phase) : Fs × Phase :=
  { fs with fs_nbehind := 0 }.blocks finish ⟨false, 1, SUPERB + 1⟩ 0

/-- The end of the loop over the blocks. -/
def pass (finish : Fs → ℕ → Fs × Phase) (first : Bool) (fs : Fs) (inobas : ℕ) : Fs × Phase :=
  if fs.fs_ninode < NICINOD ∧ first then fs.fromtop finish else finish fs inobas

/-- A scan that ends with no entry in the cache. -/
def nospace (fs : Fs) (inobas : ℕ) : Fs × Phase :=
  ({ fs with fs_lasti := inobas, fs_ilock := 0 }, .idle)

/-- The start of a scan; it begins with an empty cache, so without a block to read it fails. -/
def search (fs : Fs) : Fs × Phase :=
  if fs.fs_nbehind < 4 * NICINOD then
    fs.blocks (pass nospace true) ⟨true, fs.fs_lasti, itod fs.fs_lasti⟩ 0
  else fs.fromtop nospace

/-- `ialloc` from `loop` on. -/
def loop (fs : Fs) : Fs × Phase :=
  match take fs.fs_inode fs.fs_ninode with
  | some (ino, n) => ({ fs with fs_ninode := n }, .getting ino)
  | none => { fs with fs_ninode := 0, fs_ilock := fs.fs_ilock + 1 }.search

def finish (fs : Fs) (inobas : ℕ) : Fs × Phase :=
  if 0 < fs.fs_ninode then { fs with fs_lasti := inobas, fs_ilock := 0 }.loop
  else fs.nospace inobas

/-- `ialloc` from its first line on. -/
def ialloc (fs : Fs) : Fs × Phase :=
  if fs.fs_ilock ≠ 0 then (fs, .waiting) else fs.loop

/-- A scan from the return of `bread` on. -/
def bread (fs : Fs) (scan : Scan) (error : Bool) (free : ℕ → Bool) : Fs × Phase :=
  if error then
    fs.blocks (pass finish scan.first) ⟨scan.first, scan.ino + INOPB, scan.adr + 1⟩ scan.ino
  else
    let (fs', ino) := fs.fill free INOPB scan.ino
    if NICINOD ≤ fs'.fs_ninode then pass finish scan.first fs' scan.ino
    else fs'.blocks (pass finish scan.first) ⟨scan.first, ino, scan.adr + 1⟩ scan.ino

end Fs

variable {P : Type} [DecidableEq P]

structure State (P : Type) where
  fs : Fs
  phase : P → Phase

/-- What `iget` gives: no inode, one whose `i_mode` is zero, or one that is allocated. -/
inductive Got where
  | null
  | free
  | allocated

/-- An allocated inode goes back through `iput`; otherwise `ialloc` returns. -/
def Got.next : Got → Phase
  | .allocated => .putting
  | _ => .idle

inductive Label (P : Type) where
  | ialloc (p : P)
  | wake (p : P)
  | iget (p : P) (got : Got)
  | iput (p : P)
  | bread (p : P) (error : Bool) (free : ℕ → Bool)
  | ifree (ino : ℕ)

namespace State

/-- The process `p` runs up to its next sleep. -/
def proceed (s : State P) (p : P) (r : Fs × Phase) : State P :=
  ⟨r.1, Function.update s.phase p r.2⟩

def exec (s : State P) : Label P → Option (State P)
  | .ialloc p =>
    match s.phase p with
    | .idle => some (s.proceed p s.fs.ialloc)
    | _ => none
  | .wake p =>
    match s.phase p with
    | .waiting => some (s.proceed p s.fs.ialloc)
    | _ => none
  | .iget p got =>
    match s.phase p with
    | .getting _ => some (s.proceed p (s.fs, got.next))
    | _ => none
  | .iput p =>
    match s.phase p with
    | .putting => some (s.proceed p s.fs.loop)
    | _ => none
  | .bread p error free =>
    match s.phase p with
    | .reading scan => some (s.proceed p (s.fs.bread scan error free))
    | _ => none
  | .ifree ino => some { s with fs := s.fs.ifree ino }

end State

def Step (s : State P) (a : Label P) (t : State P) : Prop := s.exec a = some t

/-- A process that comes back to `loop` from an allocated inode finds the i-list unlocked, or
an entry of the cache that it can take. -/
def Calm (s : State P) : Label P → Prop
  | .iput _ => s.fs.fs_ilock = 0 ∨ ∃ i < s.fs.fs_ninode, ROOTINO < s.fs.fs_inode i
  | _ => True

instance (s : State P) (a : Label P) : Decidable (Calm s a) := by
  cases a <;> unfold Calm <;> infer_instance

namespace Fs

/-- The bound on the cache, and every write so far within it. -/
structure Sound (fs : Fs) : Prop where
  bounded : fs.fs_ninode ≤ NICINOD
  inside : fs.stray = false

/-- The cache while a scan fills it. -/
structure Filling (fs : Fs) : Prop extends fs.Sound where
  room : fs.fs_ninode < NICINOD
  locked : fs.fs_ilock = 1

/-- The cache while no scan fills it. -/
structure Still (fs : Fs) : Prop extends fs.Sound where
  unlocked : fs.fs_ilock = 0

variable {fs : Fs} {finish : Fs → ℕ → Fs × Phase}

lemma Sound.keep (sound : fs.Sound) (room : fs.fs_ninode < NICINOD) (ino : ℕ) :
    (fs.keep ino).Sound := by
  constructor
  · exact room
  · simp [Fs.keep, sound.inside, room]

lemma Still.ifree (still : fs.Still) (ino : ℕ) : (fs.ifree ino).Still := by
  unfold Fs.ifree
  split_ifs with locked full behind
  · exact still
  · exact ⟨⟨still.bounded, still.inside⟩, still.unlocked⟩
  · exact still
  · exact ⟨still.keep (by omega) ino, still.unlocked⟩

/-- A block adds entries only below the bound, and leaves the lock alone. -/
lemma Filling.fill (free : ℕ → Bool) (n : ℕ) (filling : fs.Filling) (ino : ℕ) :
    (fs.fill free n ino).1.Sound ∧ (fs.fill free n ino).1.fs_ilock = 1 := by
  induction n generalizing fs ino with
  | zero => exact ⟨filling.toSound, filling.locked⟩
  | succ n ih =>
    have kept := filling.keep filling.room ino
    unfold Fs.fill
    split_ifs with isFree full
    · exact ⟨kept, filling.locked⟩
    · exact ih ⟨kept, by omega, filling.locked⟩ _
    · exact ih filling _

lemma take_lt {inode : ℕ → ℕ} {n ino m : ℕ} (taken : take inode n = some (ino, m)) : m < n := by
  induction n with
  | zero => cases taken
  | succ n ih =>
    unfold take at taken
    split_ifs at taken with reserved
    · exact Nat.lt_succ_of_lt (ih taken)
    · cases taken
      exact Nat.lt_succ_self _

lemma take_of_entry {inode : ℕ → ℕ} {n i : ℕ} (below : i < n) (usable : ROOTINO < inode i) :
    ∃ ino m, take inode n = some (ino, m) := by
  induction n with
  | zero => cases below
  | succ n ih =>
    unfold take
    split_ifs with reserved
    · apply ih
      rcases Nat.lt_succ_iff_lt_or_eq.mp below with earlier | rfl
      · exact earlier
      · omega
    · exact ⟨_, _, rfl⟩

/-- A process that does not scan leaves an unlocked cache, one that scans a locked one. -/
def Settled (r : Fs × Phase) : Prop := if r.2.scans then r.1.Filling else r.1.Still

lemma blocks_settled (filling : fs.Filling)
    (scan : Scan) (inobas : ℕ) (ends : Settled (finish fs inobas)) :
    Settled (fs.blocks finish scan inobas) := by
  unfold blocks
  split_ifs with more
  · exact filling
  · exact ends

lemma fromtop_settled (filling : fs.Filling)
    (ends : ∀ fs' inobas, fs'.Sound → Settled (finish fs' inobas)) :
    Settled (fs.fromtop finish) := by
  have ahead : Filling { fs with fs_nbehind := 0 } :=
    ⟨⟨filling.bounded, filling.inside⟩, filling.room, filling.locked⟩
  exact blocks_settled ahead _ _ (ends _ _ ahead.toSound)

lemma pass_settled (first : Bool) (inobas : ℕ) (sound : fs.Sound) (locked : fs.fs_ilock = 1)
    (ends : ∀ fs' inobas, fs'.Sound → Settled (finish fs' inobas)) :
    Settled (pass finish first fs inobas) := by
  unfold pass
  split_ifs with again
  · exact fromtop_settled ⟨sound, again.1, locked⟩ ends
  · exact ends fs inobas sound

lemma nospace_settled (fs : Fs) (inobas : ℕ) (sound : fs.Sound) : Settled (fs.nospace inobas) :=
  ⟨⟨sound.bounded, sound.inside⟩, rfl⟩

lemma Still.loop (still : fs.Still) : Settled fs.loop := by
  unfold Fs.loop
  split
  · rename_i ino n taken
    have := take_lt taken
    exact ⟨⟨by have := still.bounded; simp only; omega, still.inside⟩, still.unlocked⟩
  · have filling : Filling { fs with fs_ninode := 0, fs_ilock := fs.fs_ilock + 1 } :=
      ⟨⟨by simp, still.inside⟩, by simp, by simp [still.unlocked]⟩
    unfold search
    split_ifs with ahead
    · exact blocks_settled filling _ _
        (pass_settled true _ filling.toSound filling.locked nospace_settled)
    · exact fromtop_settled filling nospace_settled

lemma finish_settled (fs : Fs) (inobas : ℕ) (sound : fs.Sound) : Settled (fs.finish inobas) := by
  unfold finish
  split_ifs with some
  · exact Still.loop ⟨⟨sound.bounded, sound.inside⟩, rfl⟩
  · exact nospace_settled fs inobas sound

lemma Filling.bread (filling : fs.Filling) (scan : Scan) (error : Bool)
    (free : ℕ → Bool) : Settled (fs.bread scan error free) := by
  unfold Fs.bread
  have ⟨sound, locked⟩ := filling.fill free INOPB scan.ino
  split_ifs with failed
  · exact blocks_settled filling _ _
      (pass_settled _ _ filling.toSound filling.locked finish_settled)
  · have passed := pass_settled scan.first scan.ino sound locked finish_settled
    dsimp only
    split_ifs with full
    · exact passed
    · exact blocks_settled ⟨sound, by omega, locked⟩ _ _ passed

/-- With an entry to take, `loop` starts no scan, whoever holds the lock. -/
lemma loop_of_entry {i : ℕ} (below : i < fs.fs_ninode) (usable : ROOTINO < fs.fs_inode i) :
    ∃ ino n, n < fs.fs_ninode ∧ fs.loop = ({ fs with fs_ninode := n }, .getting ino) := by
  obtain ⟨ino, n, taken⟩ := take_of_entry below usable
  refine ⟨ino, n, take_lt taken, ?_⟩
  unfold Fs.loop
  rw [taken]

end Fs

namespace State

/-- Either no process scans and the cache is unlocked, or exactly one does and holds the lock. -/
inductive Good (s : State P) : Prop where
  | still (cache : s.fs.Still) (nobody : ∀ p, (s.phase p).scans = false)
  | filling (cache : s.fs.Filling) (p : P) (scans : (s.phase p).scans = true)
      (others : ∀ q, q ≠ p → (s.phase q).scans = false)

variable {p : P} {s : State P}

omit [DecidableEq P] in
lemma Good.sound (good : s.Good) : s.fs.Sound := by
  cases good with
  | still cache => exact cache.toSound
  | filling cache => exact cache.toSound

/-- The step of a process when no other process scans. -/
lemma good_proceed {r : Fs × Phase} (settled : Fs.Settled r)
    (others : ∀ q, q ≠ p → (s.phase q).scans = false) : (s.proceed p r).Good := by
  have rest : ∀ q, q ≠ p → ((s.proceed p r).phase q).scans = false := by
    intro q other
    simpa [proceed, Function.update_of_ne other] using others q other
  have here : (s.proceed p r).phase p = r.2 := Function.update_self ..
  unfold Fs.Settled at settled
  split_ifs at settled with scans
  · exact .filling settled p (by rw [here, scans]) rest
  · apply Good.still settled
    intro q
    by_cases same : q = p
    · rw [same, here]
      simpa using scans
    · exact rest q same

/-- A process that scans neither before nor after its step takes no part in the scan. -/
lemma Good.aside (good : s.Good) {fs : Fs} {ph : Phase}
    (before : (s.phase p).scans = false) (after : ph.scans = false)
    (fewer : fs.fs_ninode ≤ s.fs.fs_ninode) (lock : fs.fs_ilock = s.fs.fs_ilock)
    (writes : fs.stray = s.fs.stray) : (s.proceed p (fs, ph)).Good := by
  have sound : fs.Sound := ⟨fewer.trans good.sound.bounded, writes.trans good.sound.inside⟩
  have phases : ∀ q, ((s.proceed p (fs, ph)).phase q).scans = (s.phase q).scans := by
    intro q
    by_cases same : q = p
    · rw [same, before]
      simpa [proceed] using after
    · simp [proceed, Function.update_of_ne same]
  cases good with
  | still cache nobody =>
    exact .still ⟨sound, lock.trans cache.unlocked⟩ fun q => (phases q).trans (nobody q)
  | filling cache q scans others =>
    exact .filling ⟨sound, fewer.trans_lt cache.room, lock.trans cache.locked⟩ q
      ((phases q).trans scans) fun r other => (phases r).trans (others r other)

omit [DecidableEq P] in
lemma Good.idle (good : s.Good) (unlocked : s.fs.fs_ilock = 0) :
    s.fs.Still ∧ ∀ p, (s.phase p).scans = false := by
  cases good with
  | still cache nobody => exact ⟨cache, nobody⟩
  | filling cache => exact absurd (unlocked.symm.trans cache.locked) (by decide)

lemma Good.ialloc (good : s.Good) (before : (s.phase p).scans = false) :
    (s.proceed p s.fs.ialloc).Good := by
  unfold Fs.ialloc
  split_ifs with locked
  · exact good.aside before rfl le_rfl rfl rfl
  · obtain ⟨still, nobody⟩ := good.idle (by simpa using locked)
    exact good_proceed still.loop fun q _ => nobody q

lemma Good.loop (good : s.Good) (before : (s.phase p).scans = false)
    (calm : s.fs.fs_ilock = 0 ∨ ∃ i < s.fs.fs_ninode, ROOTINO < s.fs.fs_inode i) :
    (s.proceed p s.fs.loop).Good := by
  rcases calm with unlocked | ⟨i, below, usable⟩
  · obtain ⟨still, nobody⟩ := good.idle unlocked
    exact good_proceed still.loop fun q _ => nobody q
  · obtain ⟨ino, n, fewer, result⟩ := Fs.loop_of_entry below usable
    rw [result]
    exact good.aside before rfl fewer.le rfl rfl

lemma Good.bread (good : s.Good) (scans : (s.phase p).scans = true)
    (scan : Scan) (error : Bool) (free : ℕ → Bool) :
    (s.proceed p (s.fs.bread scan error free)).Good := by
  cases good with
  | still cache nobody => simp [nobody] at scans
  | filling cache q reads others =>
    have same : p = q := by
      by_contra other
      simp [others p other] at scans
    exact good_proceed (cache.bread scan error free) (same ▸ others)

omit [DecidableEq P] in
lemma Good.ifree (good : s.Good) (ino : ℕ) : Good { s with fs := s.fs.ifree ino } := by
  cases good with
  | still cache nobody => exact .still (cache.ifree ino) nobody
  | filling cache p scans others =>
    have refused : s.fs.ifree ino = s.fs := by simp [Fs.ifree, cache.locked]
    rw [refused]
    exact .filling cache p scans others

lemma Good.step {t : State P} {a : Label P} (good : s.Good) (calm : Calm s a)
    (step : Step s a t) : t.Good := by
  cases a with
  | ialloc p =>
    simp only [Step, exec] at step
    split at step
    · rename_i here
      cases step
      exact good.ialloc (by rw [here]; rfl)
    · cases step
  | wake p =>
    simp only [Step, exec] at step
    split at step
    · rename_i here
      cases step
      exact good.ialloc (by rw [here]; rfl)
    · cases step
  | iget p got =>
    simp only [Step, exec] at step
    split at step
    · rename_i here
      cases step
      exact good.aside (by rw [here]; rfl) (by cases got <;> rfl) le_rfl rfl rfl
    · cases step
  | iput p =>
    simp only [Step, exec] at step
    split at step
    · rename_i here
      cases step
      exact good.loop (by rw [here]; rfl) calm
    · cases step
  | bread p error free =>
    simp only [Step, exec] at step
    split at step
    · rename_i scan here
      cases step
      exact good.bread (by rw [here]; rfl) scan error free
    · cases step
  | ifree ino =>
    cases step
    exact good.ifree ino

end State

def boot (P : Type) (fs : Fs) : State P := ⟨fs, fun _ => .idle⟩

/-- As long as no process goes back to `loop` and starts a scan beside another one, the cache
keeps to its bound and nothing outside it is written. -/
theorem inode_cache_bounded (fs : Fs) (start : fs.fs_ninode ≤ NICINOD) (inside : fs.stray = false)
    (unlocked : fs.fs_ilock = 0) (labels : List (Label P)) (s : State P)
    (run : Run Step Calm (boot P fs) labels s) : s.fs.fs_ninode ≤ NICINOD ∧ s.fs.stray = false := by
  have first : (boot P fs).Good := .still ⟨⟨start, inside⟩, unlocked⟩ fun _ => rfl
  have good := run_invariant State.Good (fun _ _ _ good calm step => good.step calm step) run first
  exact ⟨good.sound.bounded, good.sound.inside⟩

def sample : Fs := ⟨5, 1, fun _ => 50, 0, 1, 0, false⟩

/-- A block of the i-list is read; the inodes above `ROOTINO` are free. -/
def reads {P : Type} (p : P) : Label P := .bread p false fun ino => ROOTINO < ino

/-- A process takes the cached inode, finds it allocated and scans; an `ialloc` and an `ifree`
come between, and another process frees an inode when the scan has filled the cache. -/
theorem inode_cache_bounded_scan : ∃ s : State (Fin 2), Run Step Calm (boot (Fin 2) sample)
        [.ialloc 0, .iget 0 .allocated, .iput 0, reads 0, .ialloc 1, .ifree 60, reads 0, reads 0,
          .ifree 61] s ∧
      s.fs.fs_ninode = NICINOD ∧ s.fs.fs_ninode ≤ NICINOD ∧ s.fs.stray = false := by
  exact Exists.imp (fun s ⟨run, full⟩ => ⟨run, full, inode_cache_bounded sample (by decide) rfl rfl _ s run⟩)
    (run_of_reached State.exec (by decide))

/-- Two processes scan at once: the first comes back from an allocated inode while the second
reads the i-list. It ends its scan first and clears the lock, a free inode fills the last place
of the cache, and the second process writes the next inode beyond the end. -/
theorem inode_cache_overrun : ∃ s : State (Fin 2), Run Step (fun _ _ => True) (boot (Fin 2) sample)
        [.ialloc 0, .ialloc 1, .iget 0 .allocated, .iput 0, reads 0, reads 0, reads 0, .ifree 60,
          reads 1] s ∧
      s.fs.stray = true := by
  exact run_of_reached State.exec (by decide)

end InodeCache
