import RetroBSD.Runs

/-!
# Pipes

`readp`, `writep` and `pipe_close` on the inode of one pipe, with `rwip` and
`irele` as far as they concern it. A process gives way where it may sleep: for
the inode lock, on the two channels of the pipe (`ip+4` for readers, `ip+2` for
writers), in `bmap` and `bread` inside of `rwip`, and in the truncation of the
last `irele`. It can go on with the lock as soon as the lock is free; the
wakeups of the lock itself are left out.

The contents of the inode are a function from offsets to bytes. Every `bmap`
and every `bread` may fail; `rwip` then ends early. A refusal for `RLIMIT_FSIZE`
counts as a failure of the first `bmap` of the chunk.
-/

namespace Pipes

open Runs
open Function (update update_of_ne update_self)

scoped instance neZero : NeZero 2 := ⟨by decide⟩

abbrev MAXPIPSIZ : ℕ := 4096
abbrev DEV_BSIZE : ℕ := 1024

/-- The inode of the pipe, and the offset of its read file. `iread` and `iwrite` are the bits
`IREAD` and `IWRITE` of `i_mode`. -/
structure Pipe where
  i_size : ℕ
  i_count : ℕ
  ilocked : Bool
  iread : Bool
  iwrite : Bool
  f_offset : ℕ
  data : ℕ → UInt8

/-- Where a process stands. A process that sleeps on a channel of the pipe carries whether a wakeup
has made it runnable. A write carries the rest of the user's buffer and the count `c`; inside of
`rwip` also `uio_offset`, `uio_resid`, and `n` once `i_size` has been set for it. -/
inductive Phase where
  | idle
  | readLock (len : ℕ) (nonblock : Bool)
  | readSleep (len : ℕ) (woken : Bool)
  | reading (off resid n : ℕ) (got : List UInt8)
  | writeLock (buf : List UInt8) (nonblock : Bool)
  | writeSleep (buf : List UInt8) (c : ℕ) (woken : Bool)
  | writing (off resid : ℕ) (buf : List UInt8) (c : ℕ) (n : Option ℕ)
  | closeLock
  | closing

namespace Phase

def writes : Phase → Bool
  | .writing .. => true
  | _ => false

def holds : Phase → Bool
  | .reading .. => true
  | .writing .. => true
  | .closing => true
  | _ => false

/-- `wakeup ((caddr_t) ip+4)`, for one process. -/
def wakeReader : Phase → Phase
  | .readSleep len _ => .readSleep len true
  | ph => ph

/-- `wakeup ((caddr_t) ip+2)`, for one process. -/
def wakeWriter : Phase → Phase
  | .writeSleep buf c _ => .writeSleep buf c true
  | ph => ph

end Phase

def bytes (data : ℕ → UInt8) (off n : ℕ) : List UInt8 := (List.range n).map fun i => data (off + i)

/-- The contents after `buf` has been moved to the offset `off`. -/
def store (data : ℕ → UInt8) (off : ℕ) (buf : List UInt8) : ℕ → UInt8 :=
  fun i => if off ≤ i ∧ i < off + buf.length then buf.getD (i - off) 0 else data i

/-- What a process does up to its next sleep: the inode and its own phase afterwards, the channels
that it wakes, and the bytes that it delivers or appends. -/
structure Move where
  pipe : Pipe
  phase : Phase
  wakesReaders : Bool
  wakesWriters : Bool
  got : List UInt8
  put : List UInt8

namespace Pipe

def goes (s : Pipe) (ph : Phase) : Move := ⟨s, ph, false, false, [], []⟩

/-- The end of `readp`, with the offset that `rwip` has reached. -/
def finishRead (s : Pipe) (off : ℕ) (got : List UInt8) : Move :=
  if off = s.i_size then
    ⟨{ s with f_offset := 0, i_size := 0, iwrite := false, ilocked := false }, .idle,
      false, s.iwrite, got, []⟩
  else ⟨{ s with f_offset := off, ilocked := false }, .idle, false, false, got, []⟩

/-- The loop of `rwip` for a read, up to the sleep in `bmap` or `bread`. -/
def rwipRead (s : Pipe) (off resid : ℕ) (got : List UInt8) : Move :=
  if resid = 0 ∨ s.i_size ≤ off then s.finishRead off got
  else s.goes (.reading off resid
    (min (min (DEV_BSIZE - off % DEV_BSIZE) resid) (s.i_size - off)) got)

/-- `readp` from `loop` on. -/
def readp (s : Pipe) (len : ℕ) (nonblock : Bool) : Option Move :=
  if s.ilocked then none
  else if s.i_size = 0 then
    if s.i_count ≠ 2 ∨ nonblock then some (s.goes .idle)
    else some ({ s with iread := true }.goes (.readSleep len false))
  else some ({ s with ilocked := true }.rwipRead s.f_offset len [])

/-- `writep` from `loop` on, with the inode locked. -/
def writeLoop (s : Pipe) (buf : List UInt8) (c : ℕ) : Move :=
  if c = 0 ∨ s.i_count ≠ 2 then { s with ilocked := false }.goes .idle
  else if MAXPIPSIZ ≤ s.i_size then
    { s with iwrite := true, ilocked := false }.goes (.writeSleep buf c false)
  else s.goes (.writing s.i_size (min c MAXPIPSIZ) buf (c - min c MAXPIPSIZ) none)

/-- `writep` from the return of `rwip` on. -/
def endChunk (s : Pipe) (buf : List UInt8) (c : ℕ) : Move :=
  { { s with iread := false }.writeLoop buf c with wakesReaders := s.iread }

/-- `writep` from its first line on. -/
def writep (s : Pipe) (buf : List UInt8) (nonblock : Bool) : Option Move :=
  if s.ilocked then none
  else if nonblock ∧ MAXPIPSIZ ≤ s.i_size + buf.length then some (s.goes .idle)
  else some ({ s with ilocked := true }.writeLoop buf buf.length)

/-- `writep` when its sleep is over. -/
def writeAgain (s : Pipe) (buf : List UInt8) (c : ℕ) : Option Move :=
  if s.ilocked then none else some ({ s with ilocked := true }.writeLoop buf c)

/-- The loop of `rwip` for a write, when `bmap` has returned: `i_size` is set before the block is
read. -/
def extend (s : Pipe) (off resid : ℕ) (buf : List UInt8) (c : ℕ) : Move :=
  let n := min (DEV_BSIZE - off % DEV_BSIZE) resid
  { s with i_size := if s.i_size < off + n then off + n else s.i_size }.goes
    (.writing off resid buf c (some n))

/-- The loop of `rwip` for a write, when `bread` or `getblk` has returned. -/
def copyIn (s : Pipe) (off resid : ℕ) (buf : List UInt8) (c n : ℕ) : Move :=
  let s' := { s with data := store s.data off (buf.take n) }
  let m := if resid - n = 0 then s'.endChunk (buf.drop n) c
    else s'.goes (.writing (off + n) (resid - n) (buf.drop n) c none)
  { m with put := buf.take n }

/-- `pipe_close`. The last reference truncates and frees the inode before it is given up. -/
def pipe_close (s : Pipe) : Option Move :=
  if s.ilocked then none
  else
    let s' := { s with iread := false, iwrite := false }
    if s.i_count = 1 then some ⟨{ s' with ilocked := true }, .closing, true, true, [], []⟩
    else some ⟨{ s' with i_count := s.i_count - 1 }, .idle, true, true, [], []⟩

/-- The end of the last `irele`. -/
def vanish (s : Pipe) : Move :=
  { s with i_size := 0, i_count := s.i_count - 1, ilocked := false }.goes .idle

/-- A process goes on from its phase; `fails` is the result of the `bmap` or `bread` it slept in. -/
def run (s : Pipe) (fails : Bool) : Phase → Option Move
  | .readLock len nonblock => s.readp len nonblock
  | .readSleep len true => s.readp len false
  | .reading off resid n got =>
    some (if fails then s.finishRead off got
      else s.rwipRead (off + n) (resid - n) (got ++ bytes s.data off n))
  | .writeLock buf nonblock => s.writep buf nonblock
  | .writeSleep buf c true => s.writeAgain buf c
  | .writing off resid buf c none =>
    some (if fails then s.endChunk buf c else s.extend off resid buf c)
  | .writing off resid buf c (some n) =>
    some (if fails then s.endChunk buf c else s.copyIn off resid buf c n)
  | .closeLock => s.pipe_close
  | .closing => some s.vanish
  | _ => none

end Pipe

variable {P : Type} [DecidableEq P]

/-- The pipe and its processes, with the bytes delivered by completed reads and those appended. -/
structure State (P : Type) where
  pipe : Pipe
  phase : P → Phase
  delivered : List UInt8
  appended : List UInt8

inductive Label (P : Type) where
  | read (p : P) (len : ℕ) (nonblock : Bool)
  | write (p : P) (buf : List UInt8) (nonblock : Bool)
  | close (p : P)
  | run (p : P) (fails : Bool)
  | interrupt (p : P)

namespace State

def enter (s : State P) (p : P) (ph : Phase) : State P :=
  { s with phase := update s.phase p ph }

def wake (m : Move) (ph : Phase) : Phase :=
  let ph' := if m.wakesReaders then ph.wakeReader else ph
  if m.wakesWriters then ph'.wakeWriter else ph'

def make (s : State P) (p : P) (m : Move) : State P where
  pipe := m.pipe
  phase := update (fun q => wake m (s.phase q)) p m.phase
  delivered := s.delivered ++ m.got
  appended := s.appended ++ m.put

/-- A call starts at its request for the lock. A signal ends a sleep on a channel of the pipe, and
with it the call. -/
def exec (s : State P) : Label P → Option (State P)
  | .read p len nonblock =>
    match s.phase p with
    | .idle => some (s.enter p (.readLock len nonblock))
    | _ => none
  | .write p buf nonblock =>
    match s.phase p with
    | .idle => some (s.enter p (.writeLock buf nonblock))
    | _ => none
  | .close p =>
    match s.phase p with
    | .idle => some (s.enter p .closeLock)
    | _ => none
  | .run p fails => (s.pipe.run fails (s.phase p)).map (s.make p)
  | .interrupt p =>
    match s.phase p with
    | .readSleep .. => some (s.enter p .idle)
    | .writeSleep .. => some (s.enter p .idle)
    | _ => none

end State

def Step (s : State P) (a : Label P) (t : State P) : Prop := s.exec a = some t

/-- A new pipe, whatever the blocks of its inode hold. -/
def created (P : Type) (data : ℕ → UInt8) : State P :=
  ⟨⟨0, 2, false, false, false, 0, data⟩, fun _ => .idle, [], []⟩

/-- What keeps a reader asleep; `busy` says that a writer is inside of `rwip`. -/
structure Pipe.Empty (s : Pipe) (busy : Prop) : Prop where
  flag : s.iread = true
  both : s.i_count = 2
  size : s.i_size = 0 ∨ busy

/-- What keeps a writer asleep. -/
structure Pipe.Full (s : Pipe) : Prop where
  flag : s.iwrite = true
  both : s.i_count = 2
  size : MAXPIPSIZ ≤ s.i_size

/-- A move from the phase `ph` wakes those whose reason to sleep it takes away. -/
structure Move.Sound (s : Pipe) (ph : Phase) (m : Move) : Prop where
  locks : m.phase.holds = true → m.pipe.ilocked = true
  readers : m.wakesReaders = false → s.Empty (ph.writes = true) →
    m.pipe.Empty (m.phase.writes = true)
  writers : m.wakesWriters = false → s.Full → m.pipe.Full
  readSleep : ∀ len, m.phase = .readSleep len false → m.pipe.Empty False
  writeSleep : ∀ buf c, m.phase = .writeSleep buf c false → m.pipe.Full
  closing : m.phase = .closing → m.pipe.i_count = 1

namespace Pipe

variable {ph : Phase} {r s : Pipe}

/-- A move that keeps the inode as it is, up to flags that are set and the lock. -/
lemma goes_sound {next : Phase} (locks : next.holds = true → r.ilocked = true)
    (size : r.i_size = s.i_size) (count : r.i_count = s.i_count)
    (rflag : s.iread = true → r.iread = true) (wflag : s.iwrite = true → r.iwrite = true)
    (stays : ph.writes = true → next.writes = true ∨ s.iread = false)
    (reader : ∀ len, next = .readSleep len false → r.Empty False)
    (writer : ∀ buf c, next = .writeSleep buf c false → r.Full)
    (opens : next ≠ .closing) : Move.Sound s ph (r.goes next) where
  locks := locks
  readers := by
    intro _ empty
    refine ⟨rflag empty.flag, count.trans empty.both, ?_⟩
    rcases empty.size with zero | busy
    · exact .inl (size.trans zero)
    · rcases stays busy with busy | unset
      · exact .inr busy
      · exact absurd (unset.symm.trans empty.flag) (by decide)
  writers := fun _ full => ⟨wflag full.flag, count.trans full.both, full.size.trans size.ge⟩
  readSleep := reader
  writeSleep := writer
  closing := fun same => absurd same opens

/-- The bytes that a move delivers or appends wake nobody. -/
lemma moved_sound {m : Move} (sound : Move.Sound s ph m) (got put : List UInt8) :
    Move.Sound s ph { m with got, put } :=
  ⟨sound.locks, sound.readers, sound.writers, sound.readSleep, sound.writeSleep, sound.closing⟩

section Reads

variable (reads : ph.writes = false) (size : r.i_size = s.i_size) (count : r.i_count = s.i_count)
  (rflag : r.iread = s.iread) (wflag : r.iwrite = s.iwrite)

include reads size count rflag wflag

lemma finishRead_sound (off : ℕ) (got : List UInt8) : Move.Sound s ph (r.finishRead off got) := by
  unfold finishRead
  split_ifs with caught
  · refine ⟨nofun, fun _ empty => ⟨rflag.trans empty.flag, count.trans empty.both, .inl rfl⟩, ?_,
      nofun, nofun, nofun⟩
    intro silent full
    exact absurd (silent.symm.trans (wflag.trans full.flag)) (by decide)
  · have unlocked : Move.Sound s ph ({ r with f_offset := off, ilocked := false }.goes .idle) :=
      goes_sound nofun size count rflag.trans wflag.trans (by simp [reads]) nofun nofun nofun
    exact moved_sound unlocked got []

lemma rwipRead_sound (off resid : ℕ) (got : List UInt8) (locked : r.ilocked = true) :
    Move.Sound s ph (r.rwipRead off resid got) := by
  unfold rwipRead
  split_ifs with done
  · exact finishRead_sound reads size count rflag wflag off got
  · exact goes_sound (fun _ => locked) size count rflag.trans wflag.trans (by simp [reads]) nofun
      nofun nofun

end Reads

lemma readp_sound {m : Move} {len : ℕ} {nonblock : Bool}
    (reads : ph.writes = false) (done : s.readp len nonblock = some m) :
    s.ilocked = false ∧ Move.Sound s ph m := by
  have quiet : ∀ {q : Prop}, ph.writes = true → q := fun writes => by simp [reads] at writes
  unfold readp at done
  split_ifs at done with locked empty alone <;> cases done <;> refine ⟨by simpa using locked, ?_⟩
  · exact goes_sound nofun rfl rfl id id quiet nofun nofun nofun
  · refine goes_sound nofun rfl rfl (fun _ => rfl) id quiet ?_ nofun nofun
    intro _ _
    exact ⟨rfl, by simp only [not_or, not_not] at alone; exact alone.1, .inl empty⟩
  · exact rwipRead_sound (s := s) (r := { s with ilocked := true }) reads rfl rfl rfl rfl _ _ _ rfl

lemma writeLoop_sound (buf : List UInt8) (c : ℕ)
    (locked : r.ilocked = true) (size : r.i_size = s.i_size) (count : r.i_count = s.i_count)
    (rflag : s.iread = true → r.iread = true) (wflag : r.iwrite = s.iwrite)
    (stays : ph.writes = true → s.iread = false) : Move.Sound s ph (r.writeLoop buf c) := by
  unfold writeLoop
  split_ifs with ended full
  · exact goes_sound nofun size count rflag wflag.trans
      (fun busy => .inr (stays busy)) nofun nofun nofun
  · refine goes_sound nofun size count rflag (fun _ => rfl) (fun busy => .inr (stays busy)) nofun
      ?_ nofun
    intro _ _ _
    exact ⟨rfl, by simp only [not_or, not_not] at ended; exact ended.2, full⟩
  · exact goes_sound (fun _ => locked) size count rflag wflag.trans
      (fun busy => .inl rfl) nofun nofun nofun

/-- At the end of a chunk no reader is left asleep. -/
lemma endChunk_sound (buf : List UInt8) (c : ℕ)
    (locked : r.ilocked = true) (size : s.i_size ≤ r.i_size) (count : r.i_count = s.i_count)
    (rflag : r.iread = s.iread) (wflag : r.iwrite = s.iwrite) :
    Move.Sound s ph (r.endChunk buf c) := by
  have looped : Move.Sound { s with i_size := r.i_size, iread := false } ph
      ({ r with iread := false }.writeLoop buf c) :=
    writeLoop_sound buf c locked rfl count nofun wflag fun _ => rfl
  constructor
  · exact looped.locks
  · intro silent empty
    exact absurd ((silent.symm.trans rflag).trans empty.flag) (by decide)
  · intro silent full
    exact looped.writers silent ⟨full.flag, full.both, full.size.trans size⟩
  · exact looped.readSleep
  · exact looped.writeSleep
  · exact looped.closing

lemma extend_sound (off resid : ℕ) (buf : List UInt8) (c : ℕ) (locked : s.ilocked = true) :
    Move.Sound s (.writing off resid buf c none) (s.extend off resid buf c) where
  locks := fun _ => locked
  readers := fun _ empty => ⟨empty.flag, empty.both, .inr rfl⟩
  writers := by
    intro _ full
    refine ⟨full.flag, full.both, full.size.trans ?_⟩
    simp only [extend, goes]
    split_ifs <;> omega
  readSleep := nofun
  writeSleep := nofun
  closing := nofun

lemma copyIn_sound (off resid : ℕ) (buf : List UInt8) (c n : ℕ) (locked : s.ilocked = true) :
    Move.Sound s (.writing off resid buf c (some n)) (s.copyIn off resid buf c n) := by
  have moved : Move.Sound s (.writing off resid buf c (some n)) (if resid - n = 0 then
        { s with data := store s.data off (buf.take n) }.endChunk (buf.drop n) c
      else { s with data := store s.data off (buf.take n) }.goes
        (.writing (off + n) (resid - n) (buf.drop n) c none)) := by
    split_ifs
    · exact endChunk_sound _ c locked le_rfl rfl rfl rfl
    · exact goes_sound (fun _ => locked) rfl rfl id id (fun _ => .inl rfl) nofun nofun nofun
  exact moved_sound moved _ _

/-- What a process does needs the lock, and keeps everyone awake who must be. -/
lemma run_sound {m : Move} {fails : Bool}
    (locked : ph.holds = true → s.ilocked = true) (last : ph = .closing → s.i_count = 1)
    (done : s.run fails ph = some m) :
    (ph.holds = true ∨ s.ilocked = false) ∧ Move.Sound s ph m := by
  cases ph with
  | idle => cases done
  | readLock len nonblock => exact (readp_sound rfl done).imp_left .inr
  | readSleep len woken =>
    cases woken with
    | false => cases done
    | true => exact (readp_sound rfl done).imp_left .inr
  | reading off resid n got =>
    cases done
    refine ⟨.inl rfl, ?_⟩
    split_ifs
    · exact finishRead_sound rfl rfl rfl rfl rfl off got
    · exact rwipRead_sound rfl rfl rfl rfl rfl _ _ _ (locked rfl)
  | writeLock buf nonblock =>
    have done : s.writep buf nonblock = some m := done
    unfold writep at done
    split_ifs at done with held refused <;> cases done
    · exact ⟨.inr (by simpa using held), goes_sound nofun rfl rfl id id nofun nofun nofun nofun⟩
    · exact ⟨.inr (by simpa using held), writeLoop_sound buf _ rfl rfl rfl id rfl nofun⟩
  | writeSleep buf c woken =>
    cases woken with
    | false => cases done
    | true =>
      have done : s.writeAgain buf c = some m := done
      unfold writeAgain at done
      split_ifs at done with held
      cases done
      exact ⟨.inr (by simpa using held), writeLoop_sound buf c rfl rfl rfl id rfl nofun⟩
  | writing off resid buf c n =>
    refine ⟨.inl rfl, ?_⟩
    cases n with
    | none =>
      cases done
      split_ifs
      · exact endChunk_sound buf c (locked rfl) le_rfl rfl rfl rfl
      · exact extend_sound off resid buf c (locked rfl)
    | some n =>
      cases done
      split_ifs
      · exact endChunk_sound buf c (locked rfl) le_rfl rfl rfl rfl
      · exact copyIn_sound off resid buf c n (locked rfl)
  | closeLock =>
    have done : s.pipe_close = some m := done
    unfold pipe_close at done
    split_ifs at done with held last <;> cases done
    · exact ⟨.inr (by simpa using held), fun _ => rfl, nofun, nofun, nofun, nofun, fun _ => last⟩
    · exact ⟨.inr (by simpa using held), nofun, nofun, nofun, nofun, nofun, nofun⟩
  | closing =>
    cases done
    have single := last rfl
    refine ⟨.inl rfl, nofun, ?_, ?_, nofun, nofun, nofun⟩
    · intro _ empty
      exact absurd (single.symm.trans empty.both) (by decide)
    · intro _ full
      exact absurd (single.symm.trans full.both) (by decide)

end Pipe

namespace State

structure Good (s : State P) : Prop where
  locked : ∀ p, (s.phase p).holds = true → s.pipe.ilocked = true
  one : ∀ p q, (s.phase p).holds = true → (s.phase q).holds = true → p = q
  readers : ∀ p len, s.phase p = .readSleep len false →
    s.pipe.Empty (∃ q, (s.phase q).writes = true)
  writers : ∀ p buf c, s.phase p = .writeSleep buf c false → s.pipe.Full
  closing : ∀ p, s.phase p = .closing → s.pipe.i_count = 1

@[simp] lemma wake_holds (m : Move) (ph : Phase) : (wake m ph).holds = ph.holds := by
  unfold wake
  cases ph <;> split_ifs <;> rfl

variable {m : Move} {p : P} {ph : Phase} {s : State P}

/-- A process that still sleeps was asleep before, and was not woken. -/
lemma wake_readSleep {len : ℕ} (asleep : wake m ph = .readSleep len false) :
    ph = .readSleep len false ∧ m.wakesReaders = false := by
  unfold wake at asleep
  cases ph <;> split_ifs at asleep <;> simp_all [Phase.wakeReader, Phase.wakeWriter]

lemma wake_writeSleep {buf : List UInt8} {c : ℕ} (asleep : wake m ph = .writeSleep buf c false) :
    ph = .writeSleep buf c false ∧ m.wakesWriters = false := by
  unfold wake at asleep
  cases ph <;> split_ifs at asleep <;> simp_all [Phase.wakeReader, Phase.wakeWriter]

lemma make_self (s : State P) (p : P) (m : Move) : (s.make p m).phase p = m.phase := by
  simp [State.make]

lemma make_other (s : State P) {q : P} (m : Move) (other : q ≠ p) :
    (s.make p m).phase q = wake m (s.phase q) := by
  simp [State.make, update_of_ne other]

omit [DecidableEq P] in
/-- A process that may go on has the lock, or nobody has. -/
lemma Good.alone (good : s.Good)
    (free : (s.phase p).holds = true ∨ s.pipe.ilocked = false) {q : P} (other : q ≠ p) :
    (s.phase q).holds = false := by
  by_contra held
  have held : (s.phase q).holds = true := by simpa using held
  rcases free with mine | unlocked
  · exact other (good.one q p held mine)
  · exact absurd ((good.locked q held).symm.trans unlocked) (by decide)

lemma holds_of_writes (writes : ph.writes = true) : ph.holds = true := by
  cases ph with
  | writing => rfl
  | _ => cases writes

lemma Good.make (good : s.Good) (free : (s.phase p).holds = true ∨ s.pipe.ilocked = false)
    (sound : Move.Sound s.pipe (s.phase p) m) : (s.make p m).Good := by
  have others : ∀ q, q ≠ p → ((s.make p m).phase q).holds = false := by
    intro q other
    rw [make_other s m other, wake_holds]
    exact good.alone free other
  have holder : ∀ q, ((s.make p m).phase q).holds = true → q = p := by
    intro q held
    by_contra other
    simp [others q other] at held
  constructor
  · intro q held
    cases holder q held
    rw [make_self] at held
    exact sound.locks held
  · intro q r held₁ held₂
    rw [holder q held₁, holder r held₂]
  · intro q len asleep
    by_cases same : q = p
    · subst same
      rw [make_self] at asleep
      obtain ⟨flag, both, size⟩ := sound.readSleep len asleep
      exact ⟨flag, both, .inl (size.resolve_right id)⟩
    · rw [make_other s m same] at asleep
      obtain ⟨before, silent⟩ := wake_readSleep asleep
      have reason := good.readers q len before
      have reason : s.pipe.Empty ((s.phase p).writes = true) := by
        refine ⟨reason.flag, reason.both, reason.size.imp_right ?_⟩
        rintro ⟨r, writes⟩
        by_cases here : r = p
        · exact here ▸ writes
        · have := good.alone free here
          simp [holds_of_writes writes] at this
      obtain ⟨flag, both, size⟩ := sound.readers silent reason
      exact ⟨flag, both, size.imp_right fun writes => ⟨p, by rwa [make_self]⟩⟩
  · intro q buf c asleep
    by_cases same : q = p
    · subst same
      rw [make_self] at asleep
      exact sound.writeSleep buf c asleep
    · rw [make_other s m same] at asleep
      obtain ⟨before, silent⟩ := wake_writeSleep asleep
      exact sound.writers silent (good.writers q buf c before)
  · intro q closes
    by_cases same : q = p
    · subst same
      rw [make_self] at closes
      exact sound.closing closes
    · have := others q same
      rw [closes] at this
      cases this

lemma Good.enter (good : s.Good) (before : (s.phase p).holds = false) (after : ph.holds = false)
    (awake : ∀ len, ph ≠ .readSleep len false) (awake' : ∀ buf c, ph ≠ .writeSleep buf c false) :
    (s.enter p ph).Good := by
  have phases : ∀ q, ((s.enter p ph).phase q).holds = (s.phase q).holds := by
    intro q
    by_cases same : q = p
    · subst same
      simp [State.enter, before, after]
    · simp [State.enter, update_of_ne same]
  have kept : ∀ q, q ≠ p → (s.enter p ph).phase q = s.phase q :=
    fun q other => update_of_ne other ..
  have new : (s.enter p ph).phase p = ph := update_self ..
  constructor
  · exact fun q held => good.locked q ((phases q).symm.trans held)
  · exact fun q r held₁ held₂ =>
      good.one q r ((phases q).symm.trans held₁) ((phases r).symm.trans held₂)
  · intro q len asleep
    by_cases same : q = p
    · exact absurd (new.symm.trans (same ▸ asleep)) (awake len)
    · obtain ⟨flag, both, size⟩ := good.readers q len ((kept q same).symm.trans asleep)
      refine ⟨flag, both, size.imp_right ?_⟩
      rintro ⟨r, writes⟩
      refine ⟨r, ?_⟩
      rw [kept]
      · exact writes
      · rintro rfl
        simp [holds_of_writes writes] at before
  · intro q buf c asleep
    by_cases same : q = p
    · exact absurd (new.symm.trans (same ▸ asleep)) (awake' buf c)
    · exact good.writers q buf c ((kept q same).symm.trans asleep)
  · intro q closes
    by_cases same : q = p
    · have := new.symm.trans (same ▸ closes)
      simp [this, Phase.holds] at after
    · exact good.closing q ((kept q same).symm.trans closes)

lemma Good.step {t : State P} {a : Label P} (good : s.Good) (step : Step s a t) : t.Good := by
  cases a with
  | run p fails =>
    obtain ⟨m, done, result⟩ := Option.map_eq_some_iff.mp step
    obtain ⟨free, sound⟩ := Pipe.run_sound (good.locked p) (good.closing p) done
    exact result ▸ good.make free sound
  | _ =>
    -- a process outside of the lock starts a call or leaves its sleep
    simp only [Step, exec] at step
    split at step <;> cases step
    all_goals
      rename_i here
      exact good.enter (by rw [here]; rfl) rfl nofun nofun

end State

omit [DecidableEq P] in
lemma good_created (data : ℕ → UInt8) : (created P data).Good := ⟨nofun, nofun, nofun, nofun, nofun⟩

/-- A process that sleeps on a channel of the pipe has been made runnable, or its reason to sleep
still holds. A reader may also sleep while a writer is inside of `rwip`, with `IREAD` still set, so
that the end of the chunk wakes it. -/
theorem pipe_wakeups (data : ℕ → UInt8) (labels : List (Label P)) (s : State P)
    (run : Run Step (fun _ _ => True) (created P data) labels s) (p : P) :
    (∀ len woken, s.phase p = .readSleep len woken → woken = true ∨
      s.pipe.iread = true ∧ s.pipe.i_count = 2 ∧
        (s.pipe.i_size = 0 ∨ ∃ q, (s.phase q).writes = true)) ∧
    ∀ buf c woken, s.phase p = .writeSleep buf c woken → woken = true ∨
      s.pipe.iwrite = true ∧ MAXPIPSIZ ≤ s.pipe.i_size ∧ s.pipe.i_count = 2 := by
  have good := run_invariant State.Good (fun _ _ _ good _ step => good.step step) run
    (good_created data)
  constructor
  · intro len woken asleep
    cases woken with
    | true => exact .inl rfl
    | false =>
      obtain ⟨flag, both, size⟩ := good.readers p len asleep
      exact .inr ⟨flag, both, size⟩
  · intro buf c woken asleep
    cases woken with
    | true => exact .inl rfl
    | false =>
      obtain ⟨flag, both, size⟩ := good.writers p buf c asleep
      exact .inr ⟨flag, size, both⟩

/-- A reader sleeps, and a writer has just set `i_size` and waits for the block. -/
def sampleChunk : List (Label (Fin 2)) :=
  [.read 0 5 false, .run 0 false, .write 1 [7] false, .run 1 false, .run 1 false]

theorem pipe_wakeups_sample :
    ∃ s : State (Fin 2), Run Step (fun _ _ => True) (created (Fin 2) fun _ => 0) sampleChunk s ∧
      s.phase 0 = .readSleep 5 false ∧ s.pipe.iread = true ∧ s.pipe.i_count = 2 := by
  refine Exists.imp (fun s ⟨run, asleep⟩ => ⟨run, asleep, ?_⟩)
    (run_of_reached State.exec (P := fun s => s.phase 0 = .readSleep 5 false) ⟨_, rfl, rfl⟩)
  have reason := (pipe_wakeups _ _ s run 0).1 5 false asleep
  obtain ⟨flag, both, -⟩ := reason.resolve_left (by decide)
  exact ⟨flag, both⟩

/-- In the middle of a chunk a reader sleeps that is not runnable, although the pipe is not
empty. -/
theorem reader_asleep_within_chunk :
    ∃ s : State (Fin 2), Run Step (fun _ _ => True) (created (Fin 2) fun _ => 0) sampleChunk s ∧
      s.phase 0 = .readSleep 5 false ∧ s.pipe.i_size = 1 := by
  exact run_of_reached State.exec ⟨_, rfl, rfl, rfl⟩

/-- At most one process is between `ILOCK` and `IUNLOCK`, with `ILOCKED` set. -/
theorem pipe_lock_exclusive (data : ℕ → UInt8) (labels : List (Label P)) (s : State P)
    (run : Run Step (fun _ _ => True) (created P data) labels s) (p : P)
    (inside : (s.phase p).holds = true) :
    s.pipe.ilocked = true ∧ ∀ q, (s.phase q).holds = true → p = q := by
  have good := run_invariant State.Good (fun _ _ _ good _ => good.step) run (good_created data)
  exact ⟨good.locked p inside, fun q => good.one p q inside⟩

theorem pipe_lock_exclusive_sample : ∃ s, Run Step (fun _ _ => True)
    (created (Fin 2) fun _ => 0) sampleChunk s ∧ s.pipe.ilocked = true :=
  Exists.imp (fun s found => ⟨found.1, (pipe_lock_exclusive _ _ s found.1 1 found.2).1⟩)
    (run_of_reached State.exec (P := fun s => (s.phase 1).holds = true) ⟨_, rfl, rfl⟩)

end Pipes
