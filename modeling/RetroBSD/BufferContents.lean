import RetroBSD.BufferSharing

/-!
# What one process reads through the buffer cache

One process, and devices whose strategy routines do the transfer exactly and call
`biodone`. Every call then ends without sleeping, and the cache over the disk is
a store: a read gives what was last released by a write, and after `bflush` the
disk itself holds it.
-/

namespace BufferCache

open Runs List

variable {α : Type}

/-- The process with its buffers; `changed` says which of them it has overwritten.
`store` is what was last released by a write for each block. -/
structure Client (α : Type) where
  cache : Cache α
  held : List Nat
  changed : Nat → Bool
  store : Int → Int → α

inductive Op (α : Type) where
  | bread (dev blkno : Int)
  | getblk (dev blkno : Int)
  | overwrite (b : Nat) (data : α)
  | bwrite (b : Nat)
  | bdwrite (b : Nat)
  | bawrite (b : Nat)
  | brelse (b : Nat)
  | bflush (dev : Int)

def put (f : Int → Int → α) (dev blkno : Int) (data : α) : Int → Int → α :=
  fun d k => if d = dev ∧ k = blkno then data else f d k

def Client.acquire (s : Client α) (b : Nat) (c : Cache α) : Client α :=
  { s with cache := c, held := b :: s.held, changed := Function.update s.changed b false }

def Client.wrote (s : Client α) (b : Nat) (c : Cache α) : Client α :=
  { s with
    cache := c
    held := s.held.filter (· ≠ b)
    store := put s.store (s.cache.buf b).b_dev (s.cache.buf b).b_blkno (s.cache.buf b).data }

def Written.through : Written α → Option (Cache α)
  | .finished c => some c
  | .waiting _ => none

def Got.through : Got α → Option (Nat × Cache α)
  | .got b c => some (b, c)
  | _ => none

/-- One operation, with the buffer it acquires; `none` if it sleeps or panics. -/
def exec (s : Client α) : Op α → Option (Option Nat × Client α)
  | .getblk dev blkno =>
    ((getblk s.cache dev blkno).bind Got.through).map (fun r => (some r.1, s.acquire r.1 r.2))
  | .bread dev blkno =>
    ((getblk s.cache dev blkno).bind Got.through).bind (fun r =>
      (breadStart r.2 r.1).bind (fun q =>
        if q.1 then some (some r.1, s.acquire r.1 q.2) else none))
  | .overwrite b data => some (none, { s with
      cache := s.cache.modify b (fun x => { x with data := data })
      changed := Function.update s.changed b true })
  | .bwrite b => ((bwrite s.cache b).bind Written.through).map (fun c => (none, s.wrote b c))
  | .bdwrite b => ((bdwrite s.cache b).bind Written.through).map (fun c => (none, s.wrote b c))
  | .bawrite b => ((bawrite s.cache b).bind Written.through).map (fun c => (none, s.wrote b c))
  | .brelse b => some (none, { s with
      cache := brelse s.cache b
      held := s.held.filter (· ≠ b) })
  | .bflush dev => (bflush dev (rounds s.cache) s.cache).map (fun c => (none, { s with cache := c }))

def OpStep (s : Client α) (op : Op α) (t : Client α) : Prop := ∃ r, exec s op = some (r, t)

/-- A block is acquired with a buffer to spare; what is released is held, and without
a write only if it is unchanged. -/
def Proper (n : Nat) (s : Client α) : Op α → Prop
  | .bread dev _ => dev ≠ NODEV ∧ s.held.length + 1 < n
  | .getblk dev _ => dev ≠ NODEV ∧ s.held.length + 1 < n
  | .overwrite b _ => b ∈ s.held
  | .bwrite b => b ∈ s.held
  | .bdwrite b => b ∈ s.held
  | .bawrite b => b ∈ s.held
  | .brelse b => b ∈ s.held ∧ s.changed b = false
  | .bflush _ => True

/-- The process has no buffer of the block. Otherwise it would wait for itself. -/
def Client.Without (s : Client α) (dev blkno : Int) : Prop :=
  ∀ b ∈ s.held, ¬ ((s.cache.buf b).b_dev = dev ∧ (s.cache.buf b).b_blkno = blkno)

def Free (s : Client α) : Op α → Prop
  | .bread dev blkno => s.Without dev blkno
  | .getblk dev blkno => s.Without dev blkno
  | _ => True

/-! ## Exact transfers -/

/-- The call concerns buffer `b` alone, leaves it as `x` and the disk as `disk`, and
puts nothing on the queue of locked buffers. -/
structure Exactly (c c' : Cache α) (b : Nat) (x : Buf α) (disk : Int → Int → α) : Prop where
  touches : Touches c c' b
  buf : c'.buf b = x
  disk : c'.disk = disk
  locked : c.locked = [] → c'.locked = []

def released (f : Flags) : Flags := { f with wanted := false, busy := false, async := false, age := false }

section Exact

variable {c c' c'' : Cache α} {b : Nat} {x y : Buf α} {disk disk' : Int → Int → α}

lemma exactly_trans (first : Exactly c c' b x disk) (second : Exactly c' c'' b y disk') :
    Exactly c c'' b y disk' :=
  ⟨touches_trans first.touches second.touches, second.buf, second.disk,
    fun h => second.locked (first.locked h)⟩

lemma Exactly.flags (exactly : Exactly c c' b x disk) : c'.flags b = x.b_flags := by
  simp [Cache.flags, exactly.buf]

lemma mark_exactly (c : Cache α) (b : Nat) (g : Flags → Flags) (keeps : ∀ f, (g f).inval = f.inval) :
    Exactly c (c.mark b g) b { c.buf b with b_flags := g (c.flags b) } c.disk :=
  ⟨mark_touches c b keeps, by simp, rfl, fun h => h⟩

lemma notavail_exactly (c : Cache α) (b : Nat) :
    Exactly c (notavail c b) b { c.buf b with b_flags := { c.flags b with busy := true } } c.disk :=
  ⟨notavail_touches c b, by simp [notavail, bremfree, Cache.flags], rfl,
    fun h => by simp [notavail, bremfree, h]⟩

lemma brelse_exactly (c : Cache α) (b : Nat) (right : (c.flags b).error = false)
    (unlocked : (c.flags b).locked = false) :
    Exactly c (brelse c b) b { c.buf b with b_flags := released (c.flags b) } c.disk := by
  have quiet : (rouse c b).buf = c.buf ∧ (rouse c b).disk = c.disk ∧ (rouse c b).locked = c.locked := by
    simp only [rouse]
    split_ifs <;> exact ⟨rfl, rfl, rfl⟩
  have flags : (rouse c b).flags b = c.flags b := by simp [Cache.flags, quiet.1]
  have owned : disown (rouse c b) b = rouse c b := by simp [disown, flags, right]
  obtain ⟨_, _, buf⟩ := enqueue_touches (rouse c b) b
  have queue : (enqueue (rouse c b) b).disk = c.disk ∧ (enqueue (rouse c b) b).locked = c.locked := by
    simp only [enqueue, flags, unlocked, Bool.false_eq_true, if_false]
    split_ifs <;> exact ⟨quiet.2.1, quiet.2.2⟩
  refine ⟨brelse_touches c b, ?_, ?_, fun h => ?_⟩
  · simp [brelse, owned, Cache.flags, buf, quiet.1, released]
  · simp [brelse, owned, queue.1]
  · simp [brelse, owned, queue.2, h]

def ended (f : Flags) : Flags :=
  if f.async then released { f with done := true } else { f with done := true, wanted := false }

lemma biodone_exactly (fresh : (c.flags b).done = false) (right : (c.flags b).error = false)
    (unlocked : (c.flags b).locked = false) :
    ∃ c', biodone c b = some c' ∧ ((c.flags b).async = true → b ∈ c'.queued) ∧
      Exactly c c' b { c.buf b with b_flags := ended (c.flags b) } c.disk := by
  have marked := mark_exactly c b (fun f => { f with done := true }) (fun _ => rfl)
  by_cases h : (c.flags b).async = true
  · have done := exactly_trans marked (brelse_exactly _ b
      (by simpa using right) (by simpa using unlocked))
    exact ⟨brelse (c.mark b (fun f => { f with done := true })) b, by simp [biodone, fresh, h],
      fun _ => brelse_queued _ b, by simpa [ended, h] using done⟩
  · have waited := mark_exactly (c.mark b (fun f => { f with done := true })) b
      (fun f => { f with wanted := false }) (fun _ => rfl)
    have done := exactly_trans marked waited
    refine ⟨wakeup ((c.mark b (fun f => { f with done := true })).mark b
      (fun f => { f with wanted := false })) (.buf b), by simp [biodone, fresh, h],
      fun async => absurd async h, ?_⟩
    exact ⟨touches_trans done.touches (wakeup_touches _ b _), by simp [ended, h], rfl, fun hl => hl⟩

def moved (x : Buf α) (disk : Int → Int → α) : Buf α × (Int → Int → α) :=
  if x.b_flags.read then ({ x with data := disk x.b_dev x.b_blkno }, disk)
  else (x, put disk x.b_dev x.b_blkno x.data)

lemma strategy_exactly (fate : c.fate b = .exact) (fresh : (c.flags b).done = false)
    (right : (c.flags b).error = false) (unlocked : (c.flags b).locked = false) :
    ∃ c', strategy c b = some c' ∧ ((c.flags b).async = true → b ∈ c'.queued) ∧ Exactly c c' b
      { (moved (c.buf b) c.disk).1 with b_flags := ended (c.flags b) } (moved (c.buf b) c.disk).2 := by
  have first : Exactly c (transfer c b) b (moved (c.buf b) c.disk).1 (moved (c.buf b) c.disk).2 := by
    refine ⟨transfer_touches c b, ?_, ?_, ?_⟩
    · simp only [transfer, moved]
      split_ifs <;> simp
    · simp only [transfer, moved]
      split_ifs <;> rfl
    · simp only [transfer]
      split_ifs <;> exact fun h => h
  obtain ⟨c', done, queued, second⟩ := biodone_exactly (c := transfer c b) (b := b)
    (by simpa only [transfer_flags] using fresh) (by simpa only [transfer_flags] using right)
    (by simpa only [transfer_flags] using unlocked)
  refine ⟨c', by simp [strategy, fate, done], by simpa only [transfer_flags] using queued, ?_⟩
  have all := exactly_trans first second
  simpa only [first.buf, first.disk, transfer_flags] using all

/-- The buffer went back to a queue with its contents, which are on the disk unless
they are marked for a delayed write. -/
structure Stored (c c' : Cache α) (b : Nat) : Prop where
  touches : Touches c c' b
  queued : b ∈ c'.queued
  dev : (c'.buf b).b_dev = (c.buf b).b_dev
  data : (c'.buf b).data = (c.buf b).data
  idle : (c'.flags b).busy = false ∧ (c'.flags b).async = false
  right : (c'.flags b).error = false ∧ (c'.flags b).locked = false
  locked : c.locked = [] → c'.locked = []
  disk : ((c'.flags b).delwri = false ∧
      c'.disk = put c.disk (c.buf b).b_dev (c.buf b).b_blkno (c.buf b).data) ∨
    ((c'.flags b).delwri = true ∧ c'.disk = c.disk)

lemma Exactly.stored {f : Flags} (exactly : Exactly c c' b { c.buf b with b_flags := f } disk)
    (queued : b ∈ c'.queued) (idle : f.busy = false ∧ f.async = false)
    (right : f.error = false ∧ f.locked = false) (written : (f.delwri = false ∧
      disk = put c.disk (c.buf b).b_dev (c.buf b).b_blkno (c.buf b).data) ∨
      (f.delwri = true ∧ disk = c.disk)) : Stored c c' b where
  touches := exactly.touches
  queued := queued
  dev := by rw [exactly.buf]
  data := by rw [exactly.buf]
  idle := by rwa [exactly.flags]
  right := by rwa [exactly.flags]
  locked := exactly.locked
  disk := by rwa [exactly.flags, exactly.disk]

/-- What comes before and changes only flags. -/
lemma stored_after {f : Flags} (first : Exactly c c' b { c.buf b with b_flags := f } c.disk)
    (rest : Stored c' c'' b) : Stored c c'' b := by
  have buf := first.buf
  exact ⟨touches_trans first.touches rest.touches, rest.queued, by rw [rest.dev, buf],
    by rw [rest.data, buf], rest.idle, rest.right, fun h => rest.locked (first.locked h),
    by simpa only [buf, first.disk] using rest.disk⟩

lemma bwrite_stored (fate : c.fate b = .exact) (unlocked : (c.flags b).locked = false) :
    ∃ c', bwrite c b = some (.finished c') ∧ Stored c c' b ∧ (c'.flags b).delwri = false := by
  have cleared := mark_exactly c b
    (fun f => { f with read := false, done := false, error := false, delwri := false }) (fun _ => rfl)
  obtain ⟨c₁, started, queued, wrote⟩ := strategy_exactly (c := c.mark b (fun f =>
    { f with read := false, done := false, error := false, delwri := false })) fate
    (by simp) (by simp) (by simpa using unlocked)
  have all := exactly_trans cleared wrote
  simp only [mark_buf, mark_flags, ended, released] at all queued
  by_cases async : (c.flags b).async = true
  · simp only [async, if_true] at all
    have aged := exactly_trans all (mark_exactly c₁ b (fun f => { f with age := true }) (fun _ => rfl))
    simp only [all.buf, all.flags, all.disk] at aged
    by_cases delayed : (c.flags b).delwri = true
    · refine ⟨_, by simp [bwrite, started, async, delayed],
        aged.stored (queued async) ⟨rfl, rfl⟩ ⟨rfl, unlocked⟩ (.inl ⟨rfl, rfl⟩), ?_⟩
      rw [aged.flags]
    · refine ⟨c₁, by simp [bwrite, started, async, delayed],
        all.stored (queued async) ⟨rfl, rfl⟩ ⟨rfl, unlocked⟩ (.inl ⟨rfl, rfl⟩), ?_⟩
      rw [all.flags]
  · simp only [async, Bool.false_eq_true, if_false] at all
    have third := exactly_trans all (brelse_exactly c₁ b (by rw [all.flags]) (by rwa [all.flags]))
    simp only [all.buf, all.flags, all.disk, released] at third
    refine ⟨brelse c₁ b, by simp [bwrite, started, async, all.flags],
      third.stored (brelse_queued c₁ b) ⟨rfl, rfl⟩ ⟨rfl, unlocked⟩ (.inl ⟨rfl, rfl⟩), ?_⟩
    rw [third.flags]

lemma bawrite_stored (fate : c.fate b = .exact) (unlocked : (c.flags b).locked = false) :
    ∃ c', bawrite c b = some (.finished c') ∧ Stored c c' b ∧ (c'.flags b).delwri = false := by
  have first := mark_exactly c b (fun f => { f with async := true }) (fun _ => rfl)
  obtain ⟨c', done, stored, clean⟩ := bwrite_stored
    (c := c.mark b (fun f => { f with async := true })) fate (by simpa using unlocked)
  exact ⟨c', done, stored_after first stored, clean⟩

lemma bdwrite_stored (fate : c.fate b = .exact) (right : (c.flags b).error = false)
    (unlocked : (c.flags b).locked = false) :
    ∃ c', bdwrite c b = some (.finished c') ∧ Stored c c' b := by
  by_cases tape : c.tape (c.buf b).b_dev = true
  · obtain ⟨c', done, stored, _⟩ := bawrite_stored fate unlocked
    exact ⟨c', by simp [bdwrite, tape, done], stored⟩
  · have first := mark_exactly c b (fun f => { f with delwri := true, done := true }) (fun _ => rfl)
    have all := exactly_trans first (brelse_exactly _ b
      (by simpa using right) (by simpa using unlocked))
    simp only [mark_buf, mark_flags] at all
    exact ⟨_, by simp [bdwrite, tape],
      all.stored (brelse_queued _ b) ⟨rfl, rfl⟩ ⟨right, unlocked⟩ (.inr ⟨rfl, rfl⟩)⟩

end Exact

/-! ## The store behind the cache -/

/-- The cache of `n` buffers over the disk holds the store: a block has its contents
on the disk unless a buffer holds a delayed write, and a buffer with valid contents
has those of the store unless the process has overwritten it. -/
structure Coherent (n : Nat) (s : Client α) : Prop where
  sound : Sound s.cache
  fate : ∀ b, s.cache.fate b = .exact
  right : ∀ b, (s.cache.flags b).error = false ∧ (s.cache.flags b).locked = false
  locked : s.cache.locked = []
  pool : ∀ b, b < n ↔ b ∈ s.cache.queued ∨ b ∈ s.held
  nodup : s.held.Nodup
  held : ∀ b ∈ s.held, InUse s.cache b (some ((s.cache.buf b).b_dev, (s.cache.buf b).b_blkno))
  chained : ∀ i b, b ∈ s.cache.hash i → b < n
  delayed : ∀ b, (s.cache.flags b).delwri = true → (s.cache.buf b).b_dev ≠ NODEV ∧
    Cached s.cache (s.cache.buf b).b_dev (s.cache.buf b).b_blkno b
  disk : ∀ dev blkno, dev ≠ NODEV →
    (∀ b, Cached s.cache dev blkno b → (s.cache.flags b).delwri = false) →
    s.cache.disk dev blkno = s.store dev blkno
  data : ∀ dev blkno b, dev ≠ NODEV → Cached s.cache dev blkno b →
    ¬ (b ∈ s.held ∧ s.changed b = true) →
    ((s.cache.flags b).done = true ∨ (s.cache.flags b).delwri = true) →
    (s.cache.buf b).data = s.store dev blkno

section Coherence

variable {n : Nat} {s t : Client α} {b : Nat}

lemma cached_iff {c c' : Cache α} (touches : Touches c c' b) (dev : (c'.buf b).b_dev = (c.buf b).b_dev)
    (d k : Int) (x : Nat) : Cached c' d k x ↔ Cached c d k x := by
  by_cases h : x = b
  · subst h
    simp [Cached, touches.hash, dev, touches.blkno, touches.inval]
  · simp [Cached, Cache.flags, touches.hash, touches.others x h]

/-- A step that concerns one buffer, which carries a block of a device, and on the
disk and in the store that block alone. -/
structure OneBlock (s t : Client α) (b : Nat) : Prop where
  touches : Touches s.cache t.cache b
  dev : (t.cache.buf b).b_dev = (s.cache.buf b).b_dev
  right : (t.cache.flags b).error = false ∧ (t.cache.flags b).locked = false
  locked : s.cache.locked = [] → t.cache.locked = []
  settled : Settled t.cache b
  device : (s.cache.buf b).b_dev ≠ NODEV
  cached : Cached s.cache (s.cache.buf b).b_dev (s.cache.buf b).b_blkno b
  nodup : t.held.Nodup
  others : ∀ x, x ≠ b → (x ∈ t.held ↔ x ∈ s.held) ∧ t.changed x = s.changed x
  here : b ∈ t.cache.queued ∨ b ∈ t.held
  out : b ∈ t.held → Out t.cache b ∧ (t.cache.flags b).async = false
  elsewhere : ∀ d k, ¬ (d = (s.cache.buf b).b_dev ∧ k = (s.cache.buf b).b_blkno) →
    t.cache.disk d k = s.cache.disk d k ∧ t.store d k = s.store d k
  disk : (t.cache.flags b).delwri = false →
    t.cache.disk (s.cache.buf b).b_dev (s.cache.buf b).b_blkno =
      t.store (s.cache.buf b).b_dev (s.cache.buf b).b_blkno
  data : ¬ (b ∈ t.held ∧ t.changed b = true) →
    ((t.cache.flags b).done = true ∨ (t.cache.flags b).delwri = true) →
    (t.cache.buf b).data = t.store (s.cache.buf b).b_dev (s.cache.buf b).b_blkno

lemma coherent_oneBlock (coherent : Coherent n s) (one : OneBlock s t b) : Coherent n t := by
  have cached := cached_iff one.touches one.dev
  have others := one.touches.others
  have otherFlags : ∀ x, x ≠ b → t.cache.flags x = s.cache.flags x :=
    fun x h => by simp [Cache.flags, others x h]
  obtain ⟨⟨i, chained⟩, _⟩ := one.cached
  have small := coherent.chained i b chained
  -- a buffer of another block is another buffer
  have apart : ∀ d k x, Cached s.cache d k x → x ≠ b → d ≠ NODEV →
      ¬ (d = (s.cache.buf b).b_dev ∧ k = (s.cache.buf b).b_blkno) := by
    rintro d k x hx h device ⟨rfl, rfl⟩
    exact h (coherent.sound.unique _ _ device x b hx one.cached)
  refine ⟨sound_of_touches coherent.sound one.touches one.settled,
    fun x => by rw [one.touches.fate]; exact coherent.fate x, fun x => ?_, one.locked coherent.locked,
    fun x => ?_, one.nodup, fun x hx => ?_, fun j x hx => coherent.chained j x (one.touches.hash ▸ hx),
    fun x hx => ?_, fun d k device clean => ?_, fun d k x device hx unchanged valid => ?_⟩
  · by_cases h : x = b
    · exact h ▸ one.right
    · rw [otherFlags x h]
      exact coherent.right x
  · by_cases h : x = b
    · simp [h, small, one.here]
    · rw [one.touches.queues x h, (one.others x h).1]
      exact coherent.pool x
  · by_cases h : x = b
    · subst h
      obtain ⟨out, async⟩ := one.out hx
      refine ⟨out, async, fun d k same => ?_⟩
      cases same
      refine ⟨one.dev ▸ one.device, ?_⟩
      rw [one.dev, one.touches.blkno]
      exact (cached _ _ x).mpr one.cached
    · rw [others x h]
      exact inUse_steady (steady_of_touches one.touches h) (coherent.held x ((one.others x h).1.mp hx))
  · by_cases h : x = b
    · subst h
      rw [one.dev, one.touches.blkno]
      exact ⟨one.device, (cached _ _ x).mpr one.cached⟩
    · rw [others x h]
      obtain ⟨device, hx'⟩ := coherent.delayed x (otherFlags x h ▸ hx)
      exact ⟨device, (cached _ _ x).mpr hx'⟩
  · by_cases same : d = (s.cache.buf b).b_dev ∧ k = (s.cache.buf b).b_blkno
    · obtain ⟨rfl, rfl⟩ := same
      exact one.disk (clean b ((cached _ _ b).mpr one.cached))
    · obtain ⟨disk, store⟩ := one.elsewhere d k same
      rw [disk, store]
      refine coherent.disk d k device (fun x hx => ?_)
      have h : x ≠ b := by
        rintro rfl
        exact same ⟨hx.2.1.symm, hx.2.2.1.symm⟩
      rw [← otherFlags x h]
      exact clean x ((cached d k x).mpr hx)
  · have hx' := (cached d k x).mp hx
    by_cases h : x = b
    · subst h
      obtain ⟨_, rfl, rfl, _⟩ := hx'
      exact one.data unchanged valid
    · rw [others x h, (one.elsewhere d k (apart d k x hx' h device)).2]
      refine coherent.data d k x device hx' ?_ (otherFlags x h ▸ valid)
      rwa [← (one.others x h).1, ← (one.others x h).2]

lemma held_cached (coherent : Coherent n s) (held : b ∈ s.held) :
    (s.cache.buf b).b_dev ≠ NODEV ∧ Cached s.cache (s.cache.buf b).b_dev (s.cache.buf b).b_blkno b :=
  (coherent.held b held).block _ _ rfl

lemma queued_unheld (coherent : Coherent n s) (queued : b ∈ s.cache.queued) : b ∉ s.held :=
  fun held => (coherent.held b held).out.unqueued queued

/-- The contents on the disk of a block whose buffer has no delayed write. -/
lemma disk_clean (coherent : Coherent n s) {dev blkno : Int} (device : dev ≠ NODEV)
    (cached : Cached s.cache dev blkno b) (clean : (s.cache.flags b).delwri = false) :
    s.cache.disk dev blkno = s.store dev blkno := by
  refine coherent.disk dev blkno device (fun x hx => ?_)
  rwa [coherent.sound.unique dev blkno device x b hx cached]

lemma put_same (f : Int → Int → α) (dev blkno : Int) (data : α) : put f dev blkno data dev blkno = data := by
  simp [put]

lemma put_other (f : Int → Int → α) {dev blkno d k : Int} (data : α) (h : ¬ (d = dev ∧ k = blkno)) :
    put f dev blkno data d k = f d k := by
  simp [put, h]

lemma settled_idle {c : Cache α} (idle : (c.flags b).busy = false ∧ (c.flags b).async = false) :
    Settled c b :=
  ⟨fun _ => idle.1, fun h => by simp [idle.2] at h⟩

section

variable (coherent : Coherent n s)
include coherent

lemma coherent_wrote (held : b ∈ s.held) {c' : Cache α}
    (stored : Stored s.cache c' b) : Coherent n (s.wrote b c') := by
  obtain ⟨device, cached⟩ := held_cached coherent held
  refine coherent_oneBlock coherent
    { touches := stored.touches, dev := stored.dev, right := stored.right, locked := stored.locked,
      settled := settled_idle stored.idle, device, cached,
      nodup := coherent.nodup.filter _, others := fun x h => ?_, here := .inl stored.queued,
      out := fun h => ?_, elsewhere := fun d k h => ⟨?_, put_other _ _ h⟩, disk := fun clean => ?_,
      data := fun _ _ => ?_ }
  · simp [Client.wrote, h]
  · simp [Client.wrote] at h
  · rcases stored.disk with ⟨_, disk⟩ | ⟨_, disk⟩
    · simp [Client.wrote, disk, put_other _ _ h]
    · simp [Client.wrote, disk]
  · rcases stored.disk with ⟨_, disk⟩ | ⟨dirty, _⟩
    · simp [Client.wrote, disk, put_same]
    · simp only [Client.wrote, dirty, Bool.true_eq_false] at clean
  · simp [Client.wrote, put_same, stored.data]

/-- A delayed write on a queue goes to the disk. -/
lemma coherent_flushed (queued : b ∈ s.cache.queued)
    (delwri : (s.cache.flags b).delwri = true) {c' : Cache α} (stored : Stored s.cache c' b)
    (clean : (c'.flags b).delwri = false) : Coherent n { s with cache := c' } := by
  obtain ⟨device, cached⟩ := coherent.delayed b delwri
  have unheld := queued_unheld coherent queued
  have disk : c'.disk = put s.cache.disk (s.cache.buf b).b_dev (s.cache.buf b).b_blkno
      (s.cache.buf b).data := by
    rcases stored.disk with ⟨_, disk⟩ | ⟨dirty, _⟩
    · exact disk
    · simp [clean] at dirty
  have data := coherent.data _ _ b device cached (fun h => unheld h.1) (.inr delwri)
  exact coherent_oneBlock coherent
    { touches := stored.touches, dev := stored.dev, right := stored.right, locked := stored.locked,
      settled := settled_idle stored.idle, device, cached,
      nodup := coherent.nodup, others := fun _ _ => ⟨.rfl, rfl⟩, here := .inl stored.queued,
      out := fun h => absurd h unheld,
      elsewhere := fun d k h => ⟨by simp [disk, put_other _ _ h], rfl⟩,
      disk := fun _ => by simp [disk, put_same, data],
      data := fun _ _ => by simp only [stored.data, data] }

lemma coherent_brelse (held : b ∈ s.held) (unchanged : s.changed b = false) :
    Coherent n { s with cache := brelse s.cache b, held := s.held.filter (· ≠ b) } := by
  obtain ⟨device, cached⟩ := held_cached coherent held
  obtain ⟨right, unlocked⟩ := coherent.right b
  have exactly := brelse_exactly s.cache b right unlocked
  have buf := exactly.buf
  have flags := exactly.flags
  refine coherent_oneBlock coherent
    { touches := exactly.touches, dev := by simp [buf], right := by simp [flags, released, right, unlocked],
      locked := exactly.locked, settled := brelse_settled _ b, device, cached,
      nodup := coherent.nodup.filter _, others := fun x h => ?_, here := .inl (brelse_queued _ b),
      out := fun h => ?_, elsewhere := fun d k h => ⟨by rw [exactly.disk], rfl⟩, disk := fun clean => ?_,
      data := fun _ valid => ?_ }
  · simp [h]
  · simp at h
  · simp only [exactly.disk]
    exact disk_clean coherent device cached (by simpa [flags, released] using clean)
  · simp only [buf]
    exact coherent.data _ _ b device cached (by simp [unchanged]) (by simpa [flags, released] using valid)

lemma coherent_overwrite (held : b ∈ s.held) (data : α) : Coherent n { s with
      cache := s.cache.modify b (fun x => { x with data })
      changed := Function.update s.changed b true } := by
  obtain ⟨device, cached⟩ := held_cached coherent held
  have use := coherent.held b held
  have flags : (s.cache.modify b (fun x => { x with data })).flags b = s.cache.flags b := by
    simp [Cache.flags]
  have touches : Touches s.cache (s.cache.modify b (fun x => { x with data })) b :=
    ⟨fun x h => by simp [h], fun _ _ => .rfl, rfl, by simp, by rw [flags], .inl (by simp), rfl, rfl⟩
  have out : Out (s.cache.modify b (fun x => { x with data })) b :=
    ⟨by rw [flags]; exact use.out.busy, use.out.unqueued⟩
  exact coherent_oneBlock coherent
    { touches, dev := by simp, right := by rw [flags]; exact coherent.right b,
      locked := fun h => h, settled := settled_of_out out, device, cached,
      nodup := coherent.nodup, others := fun x h => by simp [h], here := .inr held,
      out := fun _ => ⟨out, by rw [flags]; exact use.waited⟩, elsewhere := fun _ _ _ => ⟨rfl, rfl⟩,
      disk := fun clean => disk_clean coherent device cached (flags ▸ clean),
      data := fun h => absurd ⟨held, by simp⟩ h }

lemma coherent_hit (queued : b ∈ s.cache.queued) {dev blkno : Int}
    (device : dev ≠ NODEV) (cached : Cached s.cache dev blkno b) :
    Coherent n (s.acquire b (notavail s.cache b)) := by
  obtain ⟨_, isDev, isBlkno, _⟩ := id cached
  subst isDev isBlkno
  have exactly := notavail_exactly s.cache b
  have buf := exactly.buf
  have unheld := queued_unheld coherent queued
  have flags := exactly.flags
  have async : (s.cache.flags b).async = false := by
    by_contra h
    have idle := (coherent.sound.settled b).idle queued
    have busy := (coherent.sound.settled b).async (by simpa using h)
    simp [idle] at busy
  refine coherent_oneBlock coherent
    { touches := exactly.touches, dev := by simp [Client.acquire, buf],
      right := by simp only [Client.acquire, flags]; exact coherent.right b,
      locked := exactly.locked, settled := settled_of_out (notavail_out _ b), device,
      cached, nodup := ?_, others := fun x h => ?_, here := .inr (by simp [Client.acquire]),
      out := fun _ => ⟨notavail_out _ b, by simpa only [Client.acquire, flags] using async⟩,
      elsewhere := fun d k h => ⟨by simp [Client.acquire, exactly.disk], rfl⟩,
      disk := fun clean => ?_, data := fun _ valid => ?_ }
  · exact nodup_cons.mpr ⟨unheld, coherent.nodup⟩
  · simp [Client.acquire, h]
  · exact disk_clean coherent device cached (by simpa [Client.acquire, flags] using clean)
  · simp only [Client.acquire, buf]
    exact coherent.data _ _ b device cached (fun h => unheld h.1)
      (by simpa [Client.acquire, flags] using valid)

/-- `bread` with its buffer: it does not wait, and the buffer has the contents of the store. -/
lemma breadStart_coherent (held : b ∈ s.held) (unchanged : s.changed b = false) :
    ∃ c', breadStart s.cache b = some (true, c') ∧ Coherent n { s with cache := c' } ∧
      (c'.buf b).data = s.store (s.cache.buf b).b_dev (s.cache.buf b).b_blkno ∧
      (c'.buf b).b_dev = (s.cache.buf b).b_dev ∧ (c'.buf b).b_blkno = (s.cache.buf b).b_blkno := by
  obtain ⟨device, cached⟩ := held_cached coherent held
  have use := coherent.held b held
  by_cases valid : (s.cache.flags b).done = true ∨ (s.cache.flags b).delwri = true
  · exact ⟨s.cache, by simp [breadStart, valid], coherent,
      coherent.data _ _ b device cached (by simp [unchanged]) valid, rfl, rfl⟩
  · have stale : (s.cache.flags b).done = false ∧ (s.cache.flags b).delwri = false := by simpa using valid
    obtain ⟨right, unlocked⟩ := coherent.right b
    have waits := use.waited
    have first := mark_exactly s.cache b (fun f => { f with read := true }) (fun _ => rfl)
    obtain ⟨c', started, _, second⟩ := strategy_exactly
      (c := s.cache.mark b (fun f => { f with read := true })) (coherent.fate b)
      (by simpa using stale.1) (by simpa using right) (by simpa using unlocked)
    have out : Out (s.cache.mark b (fun f => { f with read := true })) b := out_mark use.out (fun _ => rfl)
    obtain ⟨_, settled, awaited⟩ := strategy_spec out started
    have stays := (awaited (by simpa using waits)).out
    have all := exactly_trans first second
    simp only [mark_flags, moved, ended, waits, Bool.false_eq_true, if_false] at all
    have buf := all.buf
    have store := disk_clean coherent device cached stale.2
    have data : (c'.buf b).data = s.store (s.cache.buf b).b_dev (s.cache.buf b).b_blkno := by
      simp [buf, store]
    have done : (c'.flags b).done = true := by rw [all.flags]
    refine ⟨c', by simp [breadStart, stale, started, done], ?_, data, by simp [buf], by simp [buf]⟩
    exact coherent_oneBlock coherent
      { touches := all.touches, dev := by simp [buf],
        right := by rw [all.flags]; exact coherent.right b,
        locked := all.locked, settled, device, cached,
        nodup := coherent.nodup, others := fun _ _ => ⟨.rfl, rfl⟩, here := .inr held,
        out := fun _ => ⟨stays, by simp [Cache.flags, buf]⟩,
        elsewhere := fun _ _ _ => ⟨by simp [all.disk], rfl⟩,
        disk := fun _ => by simp [all.disk, store], data := fun _ _ => data }

end

def delayedWrites (c : Cache α) : Finset Nat := c.queued.toFinset.filter (fun b => (c.flags b).delwri = true)

lemma delayedWrites_lt (c : Cache α) : (delayedWrites c).card < rounds c := by
  have fewer : (delayedWrites c).card ≤ c.queued.toFinset.card := Finset.card_filter_le _ _
  have listed := c.queued.toFinset_card_le
  simp only [rounds]
  omega

lemma delayedWrites_stored {c c' : Cache α} (queued : b ∈ c.queued) (delwri : (c.flags b).delwri = true)
    (stored : Stored c c' b) (clean : (c'.flags b).delwri = false) :
    (delayedWrites c').card < (delayedWrites c).card := by
  refine Finset.card_lt_card (Finset.ssubset_iff_of_subset (fun x hx => ?_) |>.mpr ⟨b, ?_, ?_⟩)
  · simp only [delayedWrites, Finset.mem_filter, mem_toFinset] at hx ⊢
    have h : x ≠ b := by
      rintro rfl
      simp [clean] at hx
    rw [← stored.touches.queues x h, Cache.flags, ← stored.touches.others x h]
    exact hx
  · simpa [delayedWrites] using ⟨queued, delwri⟩
  · simp [delayedWrites, clean]

/-- What the loops of `getnewbuf` and `bflush` do before they end: delayed writes go
to the disk and blocks stay where they are. -/
structure Flushes (n : Nat) (s : Client α) (c : Cache α) : Prop where
  coherent : Coherent n { s with cache := c }
  cached : ∀ d k x, Cached c d k x ↔ Cached s.cache d k x
  held : ∀ x ∈ s.held, c.buf x = s.cache.buf x

lemma flushes_refl (coherent : Coherent n s) : Flushes n s s.cache :=
  ⟨coherent, fun _ _ _ => .rfl, fun _ _ => rfl⟩

lemma flushes_stored (coherent : Coherent n s) (queued : b ∈ s.cache.queued)
    (delwri : (s.cache.flags b).delwri = true) {c c' : Cache α} (stored : Stored s.cache c b)
    (clean : (c.flags b).delwri = false) (rest : Flushes n { s with cache := c } c') : Flushes n s c' := by
  refine ⟨rest.coherent, fun d k x => (rest.cached d k x).trans (cached_iff stored.touches stored.dev d k x),
    fun x held => (rest.held x held).trans (stored.touches.others x ?_)⟩
  rintro rfl
  exact queued_unheld coherent queued held

/-- The buffer that `getnewbuf` takes once no delayed write is in front. -/
def taken (c : Cache α) (b : Nat) : Cache α := (notavail c b).mark b (fun _ => { noFlags with busy := true })

lemma queue_inhabited (coherent : Coherent n s) (room : s.held.length < n) : s.cache.age ++ s.cache.lru ≠ [] := by
  intro empty
  have none : s.cache.queued = [] := by
    obtain ⟨age, lru⟩ := append_eq_nil_iff.mp empty
    simp [Cache.queued, coherent.locked, age, lru]
  have subset : Finset.range n ⊆ s.held.toFinset := by
    intro b small
    have := (coherent.pool b).mp (Finset.mem_range.mp small)
    simpa [none] using this
  have := (Finset.card_le_card subset).trans s.held.toFinset_card_le
  simp only [Finset.card_range] at this
  omega

lemma getnewbuf_coherent (fuel : Nat) (coherent : Coherent n s) (room : s.held.length < n)
    (enough : (delayedWrites s.cache).card < fuel) :
    ∃ c b rest, getnewbuf fuel s.cache = some (some b, taken c b) ∧ Flushes n s c ∧
      c.age ++ c.lru = b :: rest ∧ (c.flags b).delwri = false := by
  induction fuel generalizing s with
  | zero => omega
  | succ fuel ih =>
    obtain ⟨b, rest, first⟩ := exists_cons_of_ne_nil (queue_inhabited coherent room)
    have queued : b ∈ s.cache.queued := by
      have : b ∈ s.cache.age ++ s.cache.lru := by simp [first]
      simp only [Cache.queued, mem_append] at this ⊢
      tauto
    have exactly := notavail_exactly s.cache b
    have flags := exactly.flags
    by_cases delwri : (s.cache.flags b).delwri = true
    · obtain ⟨c, done, stored, clean⟩ := bawrite_stored (c := notavail s.cache b)
        (coherent.fate b) (by rw [flags]; exact (coherent.right b).2)
      have stored' := stored_after exactly stored
      have after := coherent_flushed coherent queued delwri stored' clean
      have fewer := delayedWrites_stored queued delwri stored' clean
      obtain ⟨c', b', rest', found, flushes, head, undelayed⟩ := ih after room (by simp only; omega)
      refine ⟨c', b', rest', ?_, flushes_stored coherent queued delwri stored' clean flushes, head, undelayed⟩
      simp [getnewbuf, first, flags, delwri, done, Written.cache, found]
    · refine ⟨s.cache, b, rest, ?_, flushes_refl coherent, first, by simpa using delwri⟩
      simp [getnewbuf, first, flags, delwri, taken]

lemma bflush_coherent (dev : Int) (fuel : Nat) (coherent : Coherent n s)
    (enough : (delayedWrites s.cache).card < fuel) :
    ∃ c, bflush dev fuel s.cache = some c ∧ Flushes n s c ∧
      ∀ b ∈ c.queued, (c.buf b).b_dev = dev → (c.flags b).delwri = false := by
  induction fuel generalizing s with
  | zero => omega
  | succ fuel ih =>
    cases found : s.cache.queued.find?
        (fun b => (s.cache.flags b).delwri && decide ((s.cache.buf b).b_dev = dev)) with
    | none =>
      refine ⟨s.cache, by simp [bflush, found], flushes_refl coherent, fun b queued isDev => ?_⟩
      have := find?_eq_none.mp found b queued
      simpa [isDev] using this
    | some b =>
      have queued := mem_of_find?_eq_some found
      have delwri : (s.cache.flags b).delwri = true := by
        have := find?_some found
        simp only [Bool.and_eq_true] at this
        exact this.1
      have marked := mark_exactly s.cache b (fun f => { f with async := true }) (fun _ => rfl)
      have exactly := exactly_trans marked (notavail_exactly _ b)
      simp only [mark_buf, mark_flags] at exactly
      obtain ⟨c, done, stored, clean⟩ := bwrite_stored (c := notavail (s.cache.mark b _) b)
        (coherent.fate b) (by rw [exactly.flags]; exact (coherent.right b).2)
      have stored' := stored_after exactly stored
      have after := coherent_flushed coherent queued delwri stored' clean
      have fewer := delayedWrites_stored queued delwri stored' clean
      obtain ⟨c', flushed, flushes, written⟩ := ih after (by simp only; omega)
      exact ⟨c', by simp [bflush, found, done, Written.cache, flushed],
        flushes_stored coherent queued delwri stored' clean flushes, written⟩

/-- A buffer without a delayed write is reassigned to a block that no buffer has. -/
lemma coherent_assign (coherent : Coherent n s) {rest : List Nat}
    (first : s.cache.age ++ s.cache.lru = b :: rest) (clean : (s.cache.flags b).delwri = false)
    {dev blkno : Int} (device : dev ≠ NODEV) (fresh : ∀ x, ¬ Cached s.cache dev blkno x) :
    Coherent n (s.acquire b (assign (taken s.cache b) b dev blkno)) := by
  have exactly := notavail_exactly s.cache b
  have flags := exactly.flags
  have cleans : Cleans s.cache (taken s.cache b) (some b) :=
    getnewbuf_spec 1 coherent.sound.settled (by simp [getnewbuf, first, flags, clean, taken])
  obtain ⟨queued, _, takenFlags⟩ := cleans.taken b rfl
  obtain ⟨sound, use⟩ := sound_assign coherent.sound cleans device fresh
  have unheld := queued_unheld coherent queued
  have small := (coherent.pool b).mpr (.inl queued)
  have here := assign_buf (taken s.cache b) b dev blkno
  have there : ∀ x, x ≠ b → (assign (taken s.cache b) b dev blkno).buf x = s.cache.buf x := by
    intro x h
    rw [assign_buf_ne _ b dev blkno h, taken, mark_buf_ne _ _ _ _ h]
    exact exactly.touches.others x h
  have flagsHere : (assign (taken s.cache b) b dev blkno).flags b = { noFlags with busy := true } := by
    simp only [Cache.flags, here]
    exact takenFlags
  have flagsThere : ∀ x, x ≠ b → (assign (taken s.cache b) b dev blkno).flags x = s.cache.flags x :=
    fun x h => by simp [Cache.flags, there x h]
  have chains : ∀ i x, x ∈ (assign (taken s.cache b) b dev blkno).hash i ↔
      (x = b ∧ i = BUFHASH dev blkno) ∨ (x ∈ s.cache.hash i ∧ x ≠ b) :=
    fun i x => mem_assign _ b dev blkno i x
  have queues : ∀ x, x ∈ (assign (taken s.cache b) b dev blkno).queued ↔ x ∈ s.cache.queued ∧ x ≠ b :=
    fun x => mem_bremfree s.cache b x
  have cached : ∀ d k x, x ≠ b →
      (Cached (assign (taken s.cache b) b dev blkno) d k x ↔ Cached s.cache d k x) := by
    intro d k x h
    simp [Cached, there x h, flagsThere x h, chains, h]
  refine ⟨sound, coherent.fate, fun x => ?_, by simp [Client.acquire, assign, binshash, bremhash, taken,
    notavail, bremfree, coherent.locked], fun x => ?_, nodup_cons.mpr ⟨unheld, coherent.nodup⟩,
    fun x hx => ?_, fun i x hx => ?_, fun x hx => ?_, fun d k isDev undelayed => ?_,
    fun d k x isDev hx unchanged valid => ?_⟩
  · by_cases h : x = b
    · simp only [Client.acquire, h, flagsHere]
      exact ⟨rfl, rfl⟩
    · simp only [Client.acquire, flagsThere x h]
      exact coherent.right x
  · by_cases h : x = b
    · simp [Client.acquire, h, small]
    · simp only [Client.acquire, queues, mem_cons, h, false_or, ne_eq, not_false_eq_true, and_true]
      exact coherent.pool x
  · by_cases h : x = b
    · simp only [Client.acquire, h, here]
      exact use
    · have hx' : x ∈ s.held := by simpa [Client.acquire, h] using hx
      simp only [Client.acquire, there x h]
      exact inUse_steady ⟨there x h, fun unqueued hq => unqueued ((queues x).mp hq).1,
        fun i hi => (chains i x).mpr (.inr ⟨hi, h⟩)⟩ (coherent.held x hx')
  · rcases (chains i x).mp hx with ⟨rfl, _⟩ | ⟨hx', _⟩
    · exact small
    · exact coherent.chained i x hx'
  · by_cases h : x = b
    · simp [Client.acquire, h, flagsHere, noFlags] at hx
    · simp only [Client.acquire, flagsThere x h, there x h] at hx ⊢
      obtain ⟨isDev, hx'⟩ := coherent.delayed x hx
      exact ⟨isDev, (cached _ _ x h).mpr hx'⟩
  · refine coherent.disk d k isDev (fun x hx => ?_)
    by_cases h : x = b
    · exact h ▸ clean
    · rw [← flagsThere x h]
      exact undelayed x ((cached d k x h).mpr hx)
  · by_cases h : x = b
    · simp [Client.acquire, h, flagsHere, noFlags] at valid
    · simp only [Client.acquire, flagsThere x h, there x h] at valid ⊢
      exact coherent.data d k x isDev ((cached d k x h).mp hx)
        (fun h' => unchanged ⟨by simp [Client.acquire, h'.1], by simp [Client.acquire, h, h'.2]⟩) valid

/-- `getblk` of a block that the process does not have, with a buffer to spare. -/
lemma getblk_coherent (coherent : Coherent n s) {dev blkno : Int} (device : dev ≠ NODEV)
    (room : s.held.length < n) (other : s.Without dev blkno) :
    ∃ b c, (getblk s.cache dev blkno).bind Got.through = some (b, c) ∧ Coherent n (s.acquire b c) ∧
      (c.buf b).b_dev = dev ∧ (c.buf b).b_blkno = blkno := by
  cases hit : scan s.cache dev blkno with
  | some b =>
    have cached := scan_some hit
    obtain ⟨⟨i, chained⟩, isDev, isBlkno, _⟩ := id cached
    have queued : b ∈ s.cache.queued := by
      rcases (coherent.pool b).mp (coherent.chained i b chained) with queued | held
      · exact queued
      · exact absurd ⟨isDev, isBlkno⟩ (other b held)
    have idle := (coherent.sound.settled b).idle queued
    have buf := (notavail_exactly s.cache b).buf
    exact ⟨b, notavail s.cache b, by simp [getblk, hit, idle, Got.through],
      coherent_hit coherent queued device cached, by simp [buf, isDev], by simp [buf, isBlkno]⟩
  | none =>
    obtain ⟨c, b, rest, found, flushes, first, clean⟩ :=
      getnewbuf_coherent _ coherent room (delayedWrites_lt s.cache)
    have fresh : ∀ x, ¬ Cached c dev blkno x :=
      fun x hx => scan_none coherent.sound device hit x ((flushes.cached dev blkno x).mp hx)
    have here := assign_buf (taken c b) b dev blkno
    exact ⟨b, assign _ b dev blkno, by simp [getblk, hit, getblkNew, found, Got.through],
      coherent_assign flushes.coherent first clean device fresh, by rw [here], by rw [here]⟩

/-- A `getblk` that comes back was not for a block the process has. -/
lemma getblk_without (coherent : Coherent n s) {dev blkno : Int} {r : Nat × Cache α}
    (through : (getblk s.cache dev blkno).bind Got.through = some r) : s.Without dev blkno := by
  rintro b held ⟨rfl, rfl⟩
  obtain ⟨device, cached⟩ := held_cached coherent held
  cases hit : scan s.cache (s.cache.buf b).b_dev (s.cache.buf b).b_blkno with
  | none => exact scan_none coherent.sound device hit b cached
  | some x =>
    obtain rfl := coherent.sound.unique _ _ device x b (scan_some hit) cached
    have busy := (coherent.held x held).out.busy
    simp [getblk, hit, busy, Got.through] at through

/-- What an operation gives: `bread` the contents of the store, `bflush` a disk that
holds the store if no buffer is held. -/
def Gives (s : Client α) : Op α → Option Nat → Client α → Prop
  | .bread dev blkno, r, t => ∃ b, r = some b ∧ b ∈ t.held ∧ (t.cache.buf b).b_dev = dev ∧
      (t.cache.buf b).b_blkno = blkno ∧ (t.cache.buf b).data = s.store dev blkno
  | .bflush dev, _, t => dev ≠ NODEV → s.held = [] → ∀ blkno, t.cache.disk dev blkno = s.store dev blkno
  | _, _, _ => True

/-- Every operation comes back unless it waits for the process itself. -/
lemma exec_coherent (coherent : Coherent n s) {op : Op α} (proper : Proper n s op) (free : Free s op) :
    ∃ r t, exec s op = some (r, t) ∧ Coherent n t ∧ Gives s op r t := by
  cases op with
  | getblk dev blkno =>
    obtain ⟨device, room⟩ := proper
    obtain ⟨b, c, through, after, _⟩ := getblk_coherent coherent device (by omega) free
    exact ⟨some b, s.acquire b c, by simp [exec, through], after, trivial⟩
  | bread dev blkno =>
    obtain ⟨device, room⟩ := proper
    obtain ⟨b, c, through, after, rfl, rfl⟩ := getblk_coherent coherent device (by omega) free
    have held : b ∈ (s.acquire b c).held := by simp [Client.acquire]
    obtain ⟨c', read, after', data, isDev, isBlkno⟩ :=
      breadStart_coherent after held (by simp [Client.acquire])
    have read' : breadStart c b = some (true, c') := read
    exact ⟨some b, s.acquire b c', by simp [exec, through, read'], after', b, rfl, held, isDev, isBlkno, data⟩
  | overwrite b data => exact ⟨none, _, rfl, coherent_overwrite coherent proper data, trivial⟩
  | bwrite b =>
    obtain ⟨c, done, stored, _⟩ := bwrite_stored (coherent.fate b) (coherent.right b).2
    exact ⟨none, s.wrote b c, by simp [exec, done, Written.through], coherent_wrote coherent proper stored,
      trivial⟩
  | bdwrite b =>
    obtain ⟨c, done, stored⟩ := bdwrite_stored (coherent.fate b) (coherent.right b).1 (coherent.right b).2
    exact ⟨none, s.wrote b c, by simp [exec, done, Written.through], coherent_wrote coherent proper stored,
      trivial⟩
  | bawrite b =>
    obtain ⟨c, done, stored, _⟩ := bawrite_stored (coherent.fate b) (coherent.right b).2
    exact ⟨none, s.wrote b c, by simp [exec, done, Written.through], coherent_wrote coherent proper stored,
      trivial⟩
  | brelse b => exact ⟨none, _, rfl, coherent_brelse coherent proper.1 proper.2, trivial⟩
  | bflush dev =>
    obtain ⟨c, done, flushes, written⟩ := bflush_coherent dev _ coherent (delayedWrites_lt s.cache)
    refine ⟨none, { s with cache := c }, by simp [exec, done], flushes.coherent, fun device nothing blkno => ?_⟩
    refine flushes.coherent.disk dev blkno device (fun b cached => ?_)
    obtain ⟨⟨i, chained⟩, isDev, _⟩ := cached
    refine written b ?_ isDev
    have := (flushes.coherent.pool b).mp (flushes.coherent.chained i b chained)
    simpa [nothing] using this

lemma free_of_exec (coherent : Coherent n s) {op : Op α} {r : Option Nat} (done : exec s op = some (r, t)) :
    Free s op := by
  cases op with
  | getblk dev blkno =>
    obtain ⟨_, through, _⟩ := Option.map_eq_some_iff.mp done
    exact getblk_without coherent through
  | bread dev blkno =>
    obtain ⟨_, through, _⟩ := Option.bind_eq_some_iff.mp done
    exact getblk_without coherent through
  | _ => trivial

lemma exec_spec (coherent : Coherent n s) {op : Op α} (proper : Proper n s op) {r : Option Nat}
    (done : exec s op = some (r, t)) : Coherent n t ∧ Gives s op r t := by
  obtain ⟨r', t', done', after, gives⟩ := exec_coherent coherent proper (free_of_exec coherent done)
  rw [done] at done'
  cases done'
  exact ⟨after, gives⟩

end Coherence

/-! ## All operations of a process -/

/-- After `binit`, with nothing held and nothing written. -/
def booted (n : Nat) (zero : α) (tape : Int → Bool) (disk : Int → Int → α) : Client α :=
  ⟨binit n zero tape disk (fun _ => .exact), [], fun _ => false, disk⟩

/-- The pool in the rounds of `binit`: the buffers `bs` are on a queue, none is on a
chain, and no flag that matters is set. -/
structure Fresh (c : Cache α) (bs : List Nat) : Prop where
  hash : ∀ i, c.hash i = []
  locked : c.locked = []
  flags : ∀ b, (c.flags b).error = false ∧ (c.flags b).locked = false ∧ (c.flags b).delwri = false
  queued : ∀ b, b ∈ c.queued ↔ b ∈ bs

lemma binitRound_fresh {c : Cache α} {bs : List Nat} (fresh : Fresh c bs) (b : Nat) :
    Fresh (binitRound c b) (bs ++ [b]) ∧ (binitRound c b).fate = c.fate ∧ (binitRound c b).disk = c.disk := by
  obtain ⟨d, isRound, others, buf, hash, locked, queued, fate, disk⟩ : ∃ d, binitRound c b = brelse d b ∧
      (∀ x, x ≠ b → d.buf x = c.buf x) ∧ d.flags b = { noFlags with busy := true, inval := true } ∧
      d.hash = c.hash ∧ d.locked = c.locked ∧ d.queued = c.queued ∧ d.fate = c.fate ∧ d.disk = c.disk :=
    ⟨_, rfl, fun x h => by simp [h], by simp [Cache.flags], rfl, rfl, rfl, rfl, rfl⟩
  have exactly := brelse_exactly d b (by rw [buf]; rfl) (by rw [buf]; rfl)
  rw [isRound]
  refine ⟨⟨fun i => by rw [exactly.touches.hash, hash, fresh.hash], exactly.locked (locked.trans fresh.locked),
    fun x => ?_, fun x => ?_⟩, exactly.touches.fate.trans fate, exactly.disk.trans disk⟩
  · by_cases h : x = b
    · simp only [Cache.flags, h, exactly.buf]
      simp only [Cache.flags] at buf
      simp [buf, released, noFlags]
    · simp only [Cache.flags, exactly.touches.others x h, others x h]
      exact fresh.flags x
  · by_cases h : x = b
    · simp [h, brelse_queued]
    · simp [exactly.touches.queues x h, queued, fresh.queued, h]

lemma binit_fresh (n : Nat) (zero : α) (tape : Int → Bool) (disk : Int → Int → α) (fate : Nat → Fate) :
    Fresh (binit n zero tape disk fate) (List.range n) ∧ (binit n zero tape disk fate).fate = fate ∧
      (binit n zero tape disk fate).disk = disk := by
  induction n with
  | zero => exact ⟨⟨fun _ => rfl, rfl, fun _ => ⟨rfl, rfl, rfl⟩, fun _ => .rfl⟩, rfl, rfl⟩
  | succ n ih =>
    obtain ⟨fresh, isFate, isDisk⟩ := ih
    obtain ⟨fresh', isFate', isDisk'⟩ := binitRound_fresh fresh n
    have round : binit (n + 1) zero tape disk fate = binitRound (binit n zero tape disk fate) n := by
      simp [binit, range_succ]
    rw [round, range_succ]
    exact ⟨fresh', isFate'.trans isFate, isDisk'.trans isDisk⟩

lemma booted_coherent (n : Nat) (zero : α) (tape : Int → Bool) (disk : Int → Int → α) :
    Coherent n (booted n zero tape disk) := by
  obtain ⟨fresh, isFate, isDisk⟩ := binit_fresh n zero tape disk (fun _ => .exact)
  have unchained : ∀ i b, b ∉ (booted n zero tape disk).cache.hash i := by
    intro i b h
    simp [booted, fresh.hash] at h
  refine ⟨binit_sound n zero tape disk _, fun b => by simp [booted, isFate],
    fun b => ⟨(fresh.flags b).1, (fresh.flags b).2.1⟩, fresh.locked, fun b => ?_, nodup_nil,
    fun b h => (by cases h), fun i b h => absurd h (unchained i b), fun b h => ?_,
    fun _ _ _ _ => by simp [booted, isDisk], fun dev blkno b _ h => ?_⟩
  · simp [booted, fresh.queued]
  · simp [booted, fresh.flags] at h
  · obtain ⟨⟨i, h⟩, _⟩ := h
    exact absurd h (unchained i b)

lemma opStep_coherent {n : Nat} (s : Client α) (op : Op α) (t : Client α) (coherent : Coherent n s)
    (proper : Proper n s op) (step : OpStep s op t) : Coherent n t := by
  obtain ⟨_, done⟩ := step
  exact (exec_spec coherent proper done).1

/-- Whatever the process did since `binit`, its next operation comes back unless it
asks for a block it has, `bread` delivers what was last released by a write, and
`bflush` with nothing held brings that to the disk. -/
theorem reads_last_release {n : Nat} {zero : α} {tape : Int → Bool} {disk : Int → Int → α}
    {s : Client α} (ops : List (Op α)) (run : Run OpStep (Proper n) (booted n zero tape disk) ops s) :
    (∀ op, Proper n s op → Free s op → ∃ r t, exec s op = some (r, t)) ∧
    (∀ dev blkno r t, Proper n s (.bread dev blkno) → exec s (.bread dev blkno) = some (r, t) →
      ∃ b, r = some b ∧ (t.cache.buf b).data = s.store dev blkno) ∧
    (∀ dev r t, dev ≠ NODEV → s.held = [] → exec s (.bflush dev) = some (r, t) →
      ∀ blkno, t.cache.disk dev blkno = s.store dev blkno) := by
  have coherent := run_invariant (Coherent n) opStep_coherent run (booted_coherent n zero tape disk)
  refine ⟨fun op proper free => ?_, fun dev blkno r t proper done => ?_, fun dev r t device nothing done => ?_⟩
  · obtain ⟨r, t, done, _⟩ := exec_coherent coherent proper free
    exact ⟨r, t, done⟩
  · obtain ⟨b, acquired, _, _, _, data⟩ := (exec_spec coherent proper done).2
    exact ⟨b, acquired, data⟩
  · have flush : Proper n s (.bflush dev) := trivial
    exact (exec_spec coherent flush done).2 device nothing

theorem reads_last_release_delayed : ∃ s r t,
    Run OpStep (Proper NBUF) (booted NBUF 0 (fun _ => false) (fun _ _ => 0))
      [.getblk 1 7, .overwrite 9 42, .bdwrite 9] s ∧
    exec s (.bread 1 7) = some (r, t) ∧ ∃ b, r = some b ∧ (t.cache.buf b).data = 42 := by
  have run : Run OpStep (Proper NBUF) (booted NBUF 0 (fun _ => false) (fun _ _ => 0))
      [.getblk 1 7, .overwrite 9 42, .bdwrite 9] _ :=
    .cons ⟨by decide, by decide⟩ ⟨_, rfl⟩ <| .cons (.head _) ⟨_, rfl⟩ <| .cons (.head _) ⟨_, rfl⟩ <| .nil _
  exact ⟨_, _, _, run, rfl, (reads_last_release _ run).2.1 1 7 _ _ ⟨by decide, by decide⟩ rfl⟩

end BufferCache
