import Mathlib.Tactic

/-!
# The buffer cache

`sys/kernel/ufs_bio.c` with the macros of `sys/include/buf.h`. A buffer is a
position in the pool. A hash chain and a queue of free buffers are the lists
that their links spell, so that unlinking a buffer removes it from the list it
is on. Functions are cut at the calls that may sleep; `sleep` itself is an
outcome, and the channels passed to `wakeup` are kept in the state.

A device ends a transfer inside its strategy routine or later. The field `fate`
says which, and whether it fails, for the next transfer of each buffer.

`b_bcount`, `b_error`, the core addresses and the accounting of transfers are
left out.
-/

namespace BufferCache

open Function (update)

def NBUF : Nat := 10
def BUFHSZ : Nat := 16

/-- The device of a buffer that is not associated with a block. -/
def NODEV : Int := -1

/-- The bits of `b_flags` that the cache uses. -/
structure Flags where
  read : Bool
  done : Bool
  error : Bool
  busy : Bool
  wanted : Bool
  age : Bool
  async : Bool
  delwri : Bool
  inval : Bool
  locked : Bool
deriving DecidableEq, Repr

def noFlags : Flags := ⟨false, false, false, false, false, false, false, false, false, false⟩

structure Buf (α : Type) where
  b_flags : Flags
  b_dev : Int
  b_blkno : Int
  /-- The contents at `b_addr`. -/
  data : α

inductive Fate where
  | queued
  | exact
  | failed
deriving DecidableEq, Repr

inductive Chan where
  | buf (b : Nat)
  | free
deriving DecidableEq, Repr

structure Cache (α : Type) where
  buf : Nat → Buf α
  /-- The chains of `bufhash`. -/
  hash : Nat → List Nat
  /-- The chain of the buffers that are on none of those. -/
  empties : List Nat
  /-- The queues `BQ_LOCKED`, `BQ_LRU` and `BQ_AGE` of `bfreelist`. -/
  locked : List Nat
  lru : List Nat
  age : List Nat
  /-- `B_WANTED` of `bfreelist[0]`. -/
  wanted : Bool
  /-- Devices with the flag `B_TAPE`. -/
  tape : Int → Bool
  disk : Int → Int → α
  fate : Nat → Fate
  /-- A transfer of the buffer is under way. -/
  started : Nat → Bool
  /-- The channels passed to `wakeup`. -/
  calls : List Chan

variable {α : Type}

namespace Cache

def modify (c : Cache α) (b : Nat) (f : Buf α → Buf α) : Cache α :=
  { c with buf := update c.buf b (f (c.buf b)) }

def mark (c : Cache α) (b : Nat) (f : Flags → Flags) : Cache α :=
  c.modify b (fun x => { x with b_flags := f x.b_flags })

def flags (c : Cache α) (b : Nat) : Flags := (c.buf b).b_flags

def queued (c : Cache α) : List Nat := c.locked ++ c.lru ++ c.age

end Cache

def BUFHASH (dev bn : Int) : Nat := ((dev + bn) % BUFHSZ).toNat

def wakeup (c : Cache α) (chan : Chan) : Cache α := { c with calls := c.calls ++ [chan] }

def bremfree (c : Cache α) (b : Nat) : Cache α :=
  { c with
    locked := c.locked.filter (· ≠ b)
    lru := c.lru.filter (· ≠ b)
    age := c.age.filter (· ≠ b) }

def notavail (c : Cache α) (b : Nat) : Cache α :=
  (bremfree c b).mark b (fun f => { f with busy := true })

def bremhash (c : Cache α) (b : Nat) : Cache α :=
  { c with
    hash := fun i => (c.hash i).filter (· ≠ b)
    empties := c.empties.filter (· ≠ b) }

def binshash (c : Cache α) (b i : Nat) : Cache α :=
  { c with hash := update c.hash i (b :: c.hash i) }

/-- The part of `brelse` that puts the buffer back on a queue. -/
def enqueue (c : Cache α) (b : Nat) : Cache α :=
  if (c.flags b).error || (c.flags b).inval then { c with age := b :: c.age }
  else if (c.flags b).locked then { c with locked := c.locked ++ [b] }
  else if (c.flags b).age then { c with age := c.age ++ [b] }
  else { c with lru := c.lru ++ [b] }

/-- The part of `brelse` that deals with a failed transfer. -/
def disown (c : Cache α) (b : Nat) : Cache α :=
  if (c.flags b).error then
    if (c.flags b).locked then c.mark b (fun f => { f with error := false })
    else c.modify b (fun x => { x with b_dev := NODEV })
  else c

/-- The part of `brelse` that wakes those who wait. -/
def rouse (c : Cache α) (b : Nat) : Cache α :=
  let c := if (c.flags b).wanted then wakeup c (.buf b) else c
  if c.wanted then wakeup { c with wanted := false } .free else c

def brelse (c : Cache α) (b : Nat) : Cache α :=
  (enqueue (disown (rouse c b) b) b).mark b
    (fun f => { f with wanted := false, busy := false, async := false, age := false })

/-- `biodone`; `none` is the panic "dup biodone". -/
def biodone (c : Cache α) (b : Nat) : Option (Cache α) :=
  if (c.flags b).done then none
  else
    let c := c.mark b (fun f => { f with done := true })
    if (c.flags b).async then some (brelse c b)
    else some (wakeup (c.mark b (fun f => { f with wanted := false })) (.buf b))

def transfer (c : Cache α) (b : Nat) : Cache α :=
  let x := c.buf b
  if x.b_flags.read then c.modify b (fun x => { x with data := c.disk x.b_dev x.b_blkno })
  else { c with disk := fun d k => if d = x.b_dev ∧ k = x.b_blkno then x.data else c.disk d k }

def fail (c : Cache α) (b : Nat) : Cache α := c.mark b (fun f => { f with error := true })

def strategy (c : Cache α) (b : Nat) : Option (Cache α) :=
  match c.fate b with
  | .queued => some { c with started := update c.started b true }
  | .exact => biodone (transfer c b) b
  | .failed => biodone (fail c b) b

def interrupt (c : Cache α) (b : Nat) (ok : Bool) : Option (Cache α) :=
  if c.started b then
    let c := { c with started := update c.started b false }
    biodone (if ok then transfer c b else fail c b) b
  else none

/-- How `bwrite` ends: it is through, or it sleeps in `biowait`. -/
inductive Written (α : Type) where
  | finished (c : Cache α)
  | waiting (c : Cache α)

def Written.cache : Written α → Cache α
  | .finished c => c
  | .waiting c => c

def bwrite (c : Cache α) (b : Nat) : Option (Written α) :=
  let flag := c.flags b
  let c := c.mark b (fun f => { f with read := false, done := false, error := false, delwri := false })
  (strategy c b).map (fun c =>
    if flag.async then
      .finished (if flag.delwri then c.mark b (fun f => { f with age := true }) else c)
    else if (c.flags b).done then .finished (brelse c b)
    else .waiting c)

def bawrite (c : Cache α) (b : Nat) : Option (Written α) :=
  bwrite (c.mark b (fun f => { f with async := true })) b

def bdwrite (c : Cache α) (b : Nat) : Option (Written α) :=
  if c.tape (c.buf b).b_dev then bawrite c b
  else some (.finished (brelse (c.mark b (fun f => { f with delwri := true, done := true })) b))

/-- `getnewbuf`, at most `fuel` times through its loop; without a buffer it
sleeps on the free list. -/
def getnewbuf : Nat → Cache α → Option (Option Nat × Cache α)
  | 0, _ => none
  | fuel + 1, c =>
    match c.age ++ c.lru with
    | [] => some (none, { c with wanted := true })
    | b :: _ =>
      let c := notavail c b
      if (c.flags b).delwri then (bawrite c b).bind (fun w => getnewbuf fuel w.cache)
      else some (some b, c.mark b (fun _ => { noFlags with busy := true }))

/-- Every round but the last takes a delayed write off the queues. -/
def rounds (c : Cache α) : Nat := c.queued.length + 1

/-- How `getblk` and `geteblk` end: they sleep on a buffer or on the free list,
or they have one. -/
inductive Got (α : Type) where
  | sleepBuf (b : Nat) (c : Cache α)
  | sleepFree (c : Cache α)
  | got (b : Nat) (c : Cache α)

def isBlock (c : Cache α) (dev blkno : Int) (b : Nat) : Bool :=
  (c.buf b).b_blkno = blkno && (c.buf b).b_dev = dev && !(c.flags b).inval

def scan (c : Cache α) (dev blkno : Int) : Option Nat :=
  (c.hash (BUFHASH dev blkno)).find? (isBlock c dev blkno)

/-- The end of `getblk`, for a buffer from `getnewbuf`. -/
def assign (c : Cache α) (b : Nat) (dev blkno : Int) : Cache α :=
  (binshash (bremhash c b) b (BUFHASH dev blkno)).modify b
    (fun x => { x with b_dev := dev, b_blkno := blkno })

/-- `getblk` from `getnewbuf` on. -/
def getblkNew (c : Cache α) (dev blkno : Int) : Option (Got α) :=
  (getnewbuf (rounds c) c).map (fun r => match r with
    | (none, c) => .sleepFree c
    | (some b, c) => .got b (assign c b dev blkno))

def getblk (c : Cache α) (dev blkno : Int) : Option (Got α) :=
  match scan c dev blkno with
  | some b =>
    if (c.flags b).busy then some (.sleepBuf b (c.mark b (fun f => { f with wanted := true })))
    else some (.got b (notavail c b))
  | none => getblkNew c dev blkno

/-- The end of `geteblk`, for a buffer from `getnewbuf`. -/
def unassign (c : Cache α) (b : Nat) : Cache α :=
  let c := bremhash (c.mark b (fun f => { f with inval := true })) b
  { c with empties := b :: c.empties }.modify b (fun x => { x with b_dev := NODEV })

def geteblk (c : Cache α) : Option (Got α) :=
  (getnewbuf (rounds c) c).map (fun r => match r with
    | (none, c) => .sleepFree c
    | (some b, c) => .got b (unassign c b))

/-- `bread` once it has its buffer, up to `biowait`, and whether it is through. -/
def breadStart (c : Cache α) (b : Nat) : Option (Bool × Cache α) :=
  if (c.flags b).done || (c.flags b).delwri then some (true, c)
  else (strategy (c.mark b (fun f => { f with read := true })) b).map
    (fun c => ((c.flags b).done, c))

/-- `bflush`, at most `fuel` times through its loop. -/
def bflush (dev : Int) : Nat → Cache α → Option (Cache α)
  | 0, _ => none
  | fuel + 1, c =>
    match c.queued.find? (fun b => (c.flags b).delwri && decide ((c.buf b).b_dev = dev)) with
    | none => some c
    | some b =>
      let c := notavail (c.mark b (fun f => { f with async := true })) b
      (bwrite c b).bind (fun w => bflush dev fuel w.cache)

/-- One round of `binit`. -/
def binitRound (c : Cache α) (b : Nat) : Cache α :=
  let c := { c with empties := b :: c.empties }
  brelse (c.modify b (fun x => { x with
    b_dev := NODEV, b_flags := { noFlags with busy := true, inval := true } })) b

def blank (zero : α) (tape : Int → Bool) (disk : Int → Int → α) (fate : Nat → Fate) : Cache α where
  buf := fun _ => ⟨noFlags, 0, 0, zero⟩
  hash := fun _ => []
  empties := []
  locked := []
  lru := []
  age := []
  wanted := false
  tape := tape
  disk := disk
  fate := fate
  started := fun _ => false
  calls := []

/-- `binit` for a pool of `n` buffers. -/
def binit (n : Nat) (zero : α) (tape : Int → Bool) (disk : Int → Int → α) (fate : Nat → Fate) :
    Cache α :=
  (List.range n).foldl binitRound (blank zero tape disk fate)

/-! ## What the functions leave alone -/

section Fields

variable (c : Cache α) (b x : Nat) (f : Buf α → Buf α) (g : Flags → Flags) (chan : Chan)

@[simp] lemma modify_hash : (c.modify b f).hash = c.hash := rfl
@[simp] lemma modify_queued : (c.modify b f).queued = c.queued := rfl
@[simp] lemma modify_age : (c.modify b f).age = c.age := rfl
@[simp] lemma modify_lru : (c.modify b f).lru = c.lru := rfl
@[simp] lemma modify_locked : (c.modify b f).locked = c.locked := rfl
@[simp] lemma modify_fate : (c.modify b f).fate = c.fate := rfl
@[simp] lemma modify_disk : (c.modify b f).disk = c.disk := rfl
@[simp] lemma modify_tape : (c.modify b f).tape = c.tape := rfl
@[simp] lemma modify_buf : (c.modify b f).buf b = f (c.buf b) := by simp [Cache.modify]
@[simp] lemma modify_buf_ne (h : x ≠ b) : (c.modify b f).buf x = c.buf x := by
  simp [Cache.modify, h]
@[simp] lemma mark_hash : (c.mark b g).hash = c.hash := rfl
@[simp] lemma mark_queued : (c.mark b g).queued = c.queued := rfl
@[simp] lemma mark_age : (c.mark b g).age = c.age := rfl
@[simp] lemma mark_lru : (c.mark b g).lru = c.lru := rfl
@[simp] lemma mark_locked : (c.mark b g).locked = c.locked := rfl
@[simp] lemma mark_fate : (c.mark b g).fate = c.fate := rfl
@[simp] lemma mark_disk : (c.mark b g).disk = c.disk := rfl
@[simp] lemma mark_tape : (c.mark b g).tape = c.tape := rfl
@[simp] lemma mark_buf : (c.mark b g).buf b = { c.buf b with b_flags := g (c.flags b) } := by
  simp [Cache.mark, Cache.flags]
@[simp] lemma mark_buf_ne (h : x ≠ b) : (c.mark b g).buf x = c.buf x := by
  simp [Cache.mark, h]
@[simp] lemma mark_flags : (c.mark b g).flags b = g (c.flags b) := by simp [Cache.flags]
@[simp] lemma wakeup_buf : (wakeup c chan).buf = c.buf := rfl
@[simp] lemma wakeup_hash : (wakeup c chan).hash = c.hash := rfl
@[simp] lemma wakeup_queued : (wakeup c chan).queued = c.queued := rfl
@[simp] lemma wakeup_flags : (wakeup c chan).flags b = c.flags b := rfl

end Fields

/-- A change that concerns buffer `b` alone: the others stay as and where they
were, no chain changes, and `b` keeps its block or loses its device. -/
structure Touches (c c' : Cache α) (b : Nat) : Prop where
  others : ∀ x, x ≠ b → c'.buf x = c.buf x
  queues : ∀ x, x ≠ b → (x ∈ c'.queued ↔ x ∈ c.queued)
  hash : c'.hash = c.hash
  blkno : (c'.buf b).b_blkno = (c.buf b).b_blkno
  inval : (c'.flags b).inval = (c.flags b).inval
  dev : (c'.buf b).b_dev = (c.buf b).b_dev ∨ (c'.buf b).b_dev = NODEV
  fate : c'.fate = c.fate
  tape : c'.tape = c.tape

section Touching

variable {c c' c'' : Cache α} {b : Nat}

lemma touches_refl (c : Cache α) (b : Nat) : Touches c c b :=
  ⟨fun _ _ => rfl, fun _ _ => .rfl, rfl, rfl, rfl, .inl rfl, rfl, rfl⟩

lemma touches_trans (first : Touches c c' b) (second : Touches c' c'' b) : Touches c c'' b := by
  refine ⟨fun x h => (second.others x h).trans (first.others x h),
    fun x h => (second.queues x h).trans (first.queues x h), second.hash.trans first.hash,
    second.blkno.trans first.blkno, second.inval.trans first.inval, ?_,
    second.fate.trans first.fate, second.tape.trans first.tape⟩
  rcases second.dev with same | none
  · rcases first.dev with same' | none
    · exact .inl (same.trans same')
    · exact .inr (same.trans none)
  · exact .inr none

lemma mark_touches (c : Cache α) (b : Nat) {g : Flags → Flags} (keeps : ∀ f, (g f).inval = f.inval) :
    Touches c (c.mark b g) b :=
  ⟨fun x h => by simp [h], fun x _ => .rfl, rfl, by simp, by simp [keeps], .inl (by simp), rfl, rfl⟩

lemma touches_of_mark {g : Flags → Flags} (rest : Touches (c.mark b g) c' b)
    (keeps : ∀ f, (g f).inval = f.inval) : Touches c c' b :=
  touches_trans (mark_touches c b keeps) rest

lemma wakeup_touches (c : Cache α) (b : Nat) (chan : Chan) : Touches c (wakeup c chan) b :=
  ⟨fun _ _ => rfl, fun _ _ => .rfl, rfl, rfl, rfl, .inl rfl, rfl, rfl⟩

lemma mem_bremfree (c : Cache α) (b x : Nat) : x ∈ (bremfree c b).queued ↔ x ∈ c.queued ∧ x ≠ b := by
  simp only [bremfree, Cache.queued, List.mem_append, List.mem_filter, decide_eq_true_eq]
  tauto

lemma notavail_touches (c : Cache α) (b : Nat) : Touches c (notavail c b) b := by
  have unlinked : Touches c (bremfree c b) b :=
    ⟨fun _ _ => rfl, fun x h => by simp [mem_bremfree, h], rfl, rfl, rfl, .inl rfl, rfl, rfl⟩
  exact touches_trans unlinked (mark_touches _ b (fun _ => rfl))

lemma enqueue_touches (c : Cache α) (b : Nat) :
    Touches c (enqueue c b) b ∧ b ∈ (enqueue c b).queued ∧ (enqueue c b).buf = c.buf := by
  simp only [enqueue]
  split_ifs <;> refine ⟨⟨fun _ _ => rfl, fun x h => ?_, rfl, rfl, rfl, .inl rfl, rfl, rfl⟩, ?_, rfl⟩ <;>
    simp [Cache.queued, *]

lemma disown_touches (c : Cache α) (b : Nat) : Touches c (disown c b) b := by
  simp only [disown]
  split_ifs
  · exact mark_touches c b (fun _ => rfl)
  · exact ⟨fun x h => by simp [h], fun _ _ => .rfl, rfl, by simp, by simp [Cache.flags],
      .inr (by simp), rfl, rfl⟩
  · exact touches_refl c b

lemma rouse_touches (c : Cache α) (b : Nat) : Touches c (rouse c b) b := by
  simp only [rouse]
  split_ifs <;> exact ⟨fun _ _ => rfl, fun _ _ => .rfl, rfl, rfl, rfl, .inl rfl, rfl, rfl⟩

lemma brelse_touches (c : Cache α) (b : Nat) : Touches c (brelse c b) b :=
  touches_trans (touches_trans (touches_trans (rouse_touches c b) (disown_touches _ b))
    (enqueue_touches _ b).1) (mark_touches _ b (fun _ => rfl))

lemma brelse_free (c : Cache α) (b : Nat) :
    ((brelse c b).flags b).busy = false ∧ ((brelse c b).flags b).async = false := by
  simp [brelse]

lemma brelse_queued (c : Cache α) (b : Nat) : b ∈ (brelse c b).queued := by
  simpa [brelse] using (enqueue_touches _ b).2.1

/-- What holds of a buffer between calls: on a queue it is not busy, and a
transfer that nobody waits for keeps it busy. -/
structure Settled (c : Cache α) (b : Nat) : Prop where
  idle : b ∈ c.queued → (c.flags b).busy = false
  async : (c.flags b).async = true → (c.flags b).busy = true

/-- The buffer is checked out: busy and on no queue. -/
structure Out (c : Cache α) (b : Nat) : Prop where
  busy : (c.flags b).busy = true
  unqueued : b ∉ c.queued

lemma settled_of_out (out : Out c b) : Settled c b :=
  ⟨fun h => absurd h out.unqueued, fun _ => out.busy⟩

lemma brelse_settled (c : Cache α) (b : Nat) : Settled (brelse c b) b :=
  ⟨fun _ => (brelse_free c b).1, fun h => by simp [(brelse_free c b).2] at h⟩

lemma out_mark (out : Out c b) {g : Flags → Flags} (keeps : ∀ f, (g f).busy = f.busy) :
    Out (c.mark b g) b :=
  ⟨by simpa [keeps] using out.busy, out.unqueued⟩

lemma Settled.of_buf {x : Nat} (settled : Settled c x) (buf : c'.buf x = c.buf x)
    (queued : x ∈ c'.queued → x ∈ c.queued) : Settled c' x := by
  have flags : c'.flags x = c.flags x := by simp [Cache.flags, buf]
  exact ⟨fun h => flags ▸ settled.idle (queued h), fun h => flags ▸ settled.async (flags ▸ h)⟩

lemma settled_touches (touches : Touches c c' b) (here : Settled c' b) (all : ∀ x, Settled c x) :
    ∀ x, Settled c' x := by
  intro x
  by_cases h : x = b
  · exact h ▸ here
  · exact (all x).of_buf (touches.others x h) (touches.queues x h).mp

/-- A buffer whose transfer is waited for stays out and keeps its device. -/
structure Awaited (c c' : Cache α) (b : Nat) : Prop where
  out : Out c' b
  async : (c'.flags b).async = false
  dev : (c'.buf b).b_dev = (c.buf b).b_dev

/-- The end of a transfer: the buffer is released, or it stays out for the one who waits. -/
structure Ends (c c' : Cache α) (b : Nat) : Prop where
  touches : Touches c c' b
  settled : Settled c b → Settled c' b
  awaited : (c.flags b).async = false → Out c b → Awaited c c' b

lemma biodone_ends (done : biodone c b = some c') : Ends c c' b := by
  simp only [biodone] at done
  split_ifs at done with already async
  · cases done
    have released : (c.flags b).async = true := by simpa using async
    exact ⟨touches_of_mark (brelse_touches _ b) (fun _ => rfl), fun _ => brelse_settled _ b,
      fun h => by simp [released] at h⟩
  · cases done
    have waits : (c.flags b).async = false := by simpa using async
    refine ⟨touches_of_mark (touches_of_mark (wakeup_touches _ b _) (fun _ => rfl)) (fun _ => rfl),
      fun settled => ?_, fun _ out => ?_⟩
    · exact ⟨fun h => by simpa using settled.idle h, fun h => by simp [waits] at h⟩
    · exact ⟨⟨by simpa using out.busy, out.unqueued⟩, by simpa using waits, by simp⟩

lemma transfer_touches (c : Cache α) (b : Nat) : Touches c (transfer c b) b := by
  simp only [transfer]
  split_ifs
  · exact ⟨fun x h => by simp [h], fun _ _ => .rfl, rfl, by simp, by simp [Cache.flags],
      .inl (by simp), rfl, rfl⟩
  · exact ⟨fun _ _ => rfl, fun _ _ => .rfl, rfl, rfl, rfl, .inl rfl, rfl, rfl⟩

lemma transfer_dev (c : Cache α) (b : Nat) : ((transfer c b).buf b).b_dev = (c.buf b).b_dev := by
  simp only [transfer]
  split_ifs <;> simp

lemma transfer_flags (c : Cache α) (b : Nat) : (transfer c b).flags b = c.flags b := by
  simp only [transfer]
  split_ifs <;> simp [Cache.flags]

lemma transfer_queued (c : Cache α) (b : Nat) : (transfer c b).queued = c.queued := by
  simp only [transfer]
  split_ifs <;> rfl

/-- What comes before the end and keeps the two flags, the queues and the device. -/
lemma ends_after {d : Cache α} (touches : Touches c d b) (queued : d.queued = c.queued)
    (busy : (d.flags b).busy = (c.flags b).busy) (async : (d.flags b).async = (c.flags b).async)
    (dev : (d.buf b).b_dev = (c.buf b).b_dev) (ends : Ends d c' b) : Ends c c' b := by
  refine ⟨touches_trans touches ends.touches, fun settled => ends.settled ⟨?_, ?_⟩,
    fun waits out => ?_⟩
  · simpa only [queued, busy] using settled.idle
  · simpa only [async, busy] using settled.async
  · obtain ⟨stays, waiting, dev'⟩ := ends.awaited (async.trans waits)
      ⟨busy.trans out.busy, by simpa only [queued] using out.unqueued⟩
    exact ⟨stays, waiting, dev'.trans dev⟩

lemma transfer_ends (done : biodone (transfer c b) b = some c') : Ends c c' b :=
  ends_after (transfer_touches c b) (transfer_queued c b) (by rw [transfer_flags])
    (by rw [transfer_flags]) (transfer_dev c b) (biodone_ends done)

lemma fail_ends (done : biodone (fail c b) b = some c') : Ends c c' b := by
  have touches : Touches c (fail c b) b := mark_touches c b (fun _ => rfl)
  exact ends_after touches rfl (by simp [fail]) (by simp [fail]) (by simp [fail]) (biodone_ends done)

lemma strategy_spec (out : Out c b) (done : strategy c b = some c') :
    Touches c c' b ∧ Settled c' b ∧ ((c.flags b).async = false → Awaited c c' b) := by
  have through : Ends c c' b → Touches c c' b ∧ Settled c' b ∧
      ((c.flags b).async = false → Awaited c c' b) :=
    fun ends => ⟨ends.touches, ends.settled (settled_of_out out), fun h => ends.awaited h out⟩
  simp only [strategy] at done
  split at done
  · cases done
    exact ⟨⟨fun _ _ => rfl, fun _ _ => .rfl, rfl, rfl, rfl, .inl rfl, rfl, rfl⟩,
      settled_of_out ⟨out.busy, out.unqueued⟩, fun h => ⟨⟨out.busy, out.unqueued⟩, h, rfl⟩⟩
  · exact through (transfer_ends done)
  · exact through (fail_ends done)

lemma interrupt_ends {ok : Bool} (done : interrupt c b ok = some c') : Ends c c' b := by
  simp only [interrupt] at done
  have begun : Touches c { c with started := update c.started b false } b :=
    ⟨fun _ _ => rfl, fun _ _ => .rfl, rfl, rfl, rfl, .inl rfl, rfl, rfl⟩
  split_ifs at done
  · exact ends_after begun rfl rfl rfl rfl (transfer_ends done)
  · exact ends_after begun rfl rfl rfl rfl (fail_ends done)

lemma bwrite_spec (out : Out c b) {w : Written α} (done : bwrite c b = some w) :
    Touches c w.cache b ∧ Settled w.cache b ∧
      ∀ d, w = .waiting d → Awaited c d b ∧ (c.flags b).async = false := by
  obtain ⟨c', started, rfl⟩ := Option.map_eq_some_iff.mp done
  have out' : Out (c.mark b (fun f => { f with
      read := false, done := false, error := false, delwri := false })) b := out_mark out (fun _ => rfl)
  obtain ⟨touches, settled, waits⟩ := strategy_spec out' started
  have all := touches_of_mark touches (fun _ => rfl)
  split_ifs with async delwri through
  · have aged : Touches c (c'.mark b (fun f => { f with age := true })) b :=
      touches_trans all (mark_touches c' b (fun _ => rfl))
    refine ⟨aged, ?_, fun d h => by cases h⟩
    exact ⟨fun h => by simpa [Written.cache] using settled.idle h,
      fun h => by simpa [Written.cache] using settled.async (by simpa [Written.cache] using h)⟩
  · exact ⟨all, settled, fun d h => by cases h⟩
  · exact ⟨touches_trans all (brelse_touches _ b), brelse_settled _ b, fun d h => by cases h⟩
  · refine ⟨all, settled, fun d h => ?_⟩
    cases h
    obtain ⟨out'', waiting, dev⟩ := waits (by simpa using async)
    exact ⟨⟨out'', waiting, by simpa using dev⟩, by simpa using async⟩

lemma bawrite_spec (out : Out c b) {w : Written α} (done : bawrite c b = some w) :
    Touches c w.cache b ∧ Settled w.cache b ∧ w = .finished w.cache := by
  have out' : Out (c.mark b (fun f => { f with async := true })) b := out_mark out (fun _ => rfl)
  obtain ⟨touches, settled, waits⟩ := bwrite_spec out' done
  refine ⟨touches_of_mark touches (fun _ => rfl), settled, ?_⟩
  cases w with
  | finished d => rfl
  | waiting d =>
    have := (waits d rfl).2
    simp at this

lemma notavail_out (c : Cache α) (b : Nat) : Out (notavail c b) b := by
  refine ⟨by simp [notavail], fun h => ?_⟩
  have : b ∈ (bremfree c b).queued := h
  simp [mem_bremfree] at this

/-- `getnewbuf` deals with buffers on the queues. Those that are out stay as they
are, the others keep their block or lose their device, and the buffer it hands
out is out with no flag but `B_BUSY`. -/
structure Cleans (c c' : Cache α) (r : Option Nat) : Prop where
  hash : c'.hash = c.hash
  fate : c'.fate = c.fate
  tape : c'.tape = c.tape
  settled : ∀ x, Settled c' x
  out : ∀ x, Out c x → c'.buf x = c.buf x ∧ x ∉ c'.queued
  ident : ∀ x, r ≠ some x → (c'.buf x).b_blkno = (c.buf x).b_blkno ∧
    (c'.flags x).inval = (c.flags x).inval ∧
    ((c'.buf x).b_dev = (c.buf x).b_dev ∨ (c'.buf x).b_dev = NODEV)
  taken : ∀ b, r = some b → b ∈ c.queued ∧ Out c' b ∧ c'.flags b = { noFlags with busy := true }

lemma touches_out {x : Nat} (touches : Touches c c' b) (different : x ≠ b) (out : Out c x) :
    Out c' x := by
  have same := touches.others x different
  exact ⟨by simpa only [Cache.flags, same] using out.busy,
    fun h => out.unqueued ((touches.queues x different).mp h)⟩

lemma getnewbuf_spec (fuel : Nat) {r : Option Nat} (settled : ∀ x, Settled c x)
    (done : getnewbuf fuel c = some (r, c')) : Cleans c c' r := by
  induction fuel generalizing c with
  | zero => cases done
  | succ fuel ih =>
    simp only [getnewbuf] at done
    split at done
    · cases done
      exact ⟨rfl, rfl, rfl, fun x => ⟨(settled x).idle, (settled x).async⟩,
        fun x out => ⟨rfl, out.unqueued⟩, fun x _ => ⟨rfl, rfl, .inl rfl⟩, fun b h => by cases h⟩
    · next b rest first =>
      have queued : b ∈ c.queued := by
        have : b ∈ c.age ++ c.lru := by simp [first]
        simp only [Cache.queued, List.mem_append] at this ⊢
        tauto
      have apart : ∀ x, Out c x → x ≠ b := by
        rintro x out rfl
        exact out.unqueued queued
      have grab := notavail_touches c b
      split_ifs at done with delwri
      · obtain ⟨w, wrote, again⟩ := Option.bind_eq_some_iff.mp done
        obtain ⟨touches, here, _⟩ := bawrite_spec (notavail_out c b) wrote
        have all := touches_trans grab touches
        have rest := ih (settled_touches all here settled) again
        refine ⟨rest.hash.trans all.hash, rest.fate.trans all.fate, rest.tape.trans all.tape,
          rest.settled, fun x out => ?_, fun x other => ?_, fun x taken => ?_⟩
        · have still := touches_out all (apart x out) out
          exact ⟨(rest.out x still).1.trans (all.others x (apart x out)), (rest.out x still).2⟩
        · obtain ⟨blkno, inval, dev⟩ := rest.ident x other
          by_cases h : x = b
          · subst h
            refine ⟨blkno.trans all.blkno, inval.trans all.inval, ?_⟩
            rcases dev with same | none
            · exact all.dev.imp same.trans same.trans
            · exact .inr none
          · have same := all.others x h
            exact ⟨by rw [blkno, same], by rw [inval, Cache.flags, same]; rfl,
              by simpa only [same] using dev⟩
        · obtain ⟨listed, out, flags⟩ := rest.taken x taken
          refine ⟨?_, out, flags⟩
          by_cases h : x = b
          · exact h ▸ queued
          · exact (all.queues x h).mp listed
      · cases done
        have marked : ∀ x, x ≠ b → ((notavail c b).mark b (fun _ => { noFlags with busy := true })).buf x =
            c.buf x := by
          intro x h
          simp [h, grab.others]
        have out : Out ((notavail c b).mark b (fun _ => { noFlags with busy := true })) b :=
          ⟨by simp, (notavail_out c b).unqueued⟩
        refine ⟨grab.hash, grab.fate, grab.tape, fun x => ?_, fun x other => ?_, fun x other => ?_,
          fun x taken => ?_⟩
        · by_cases h : x = b
          · subst h
            exact settled_of_out out
          · exact ⟨fun listed => by
                simpa only [Cache.flags, marked x h] using (settled x).idle ((grab.queues x h).mp listed),
              fun async => by
                simp only [Cache.flags, marked x h] at async ⊢
                exact (settled x).async async⟩
        · exact ⟨marked x (apart x other), fun listed =>
            other.unqueued ((grab.queues x (apart x other)).mp listed)⟩
        · have h : x ≠ b := fun h => other (by simp [h])
          simp [Cache.flags, marked x h]
        · cases taken
          exact ⟨queued, out, by simp⟩

end Touching

end BufferCache
