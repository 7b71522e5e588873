import RetroBSD.BufferCache
import RetroBSD.Runs

/-!
# Buffers under several processes

Processes call the functions of the buffer cache and take turns where the code
sleeps: on a busy buffer in `getblk`, on the free list in `getnewbuf`, and on a
transfer in `biowait`. Transfers end by interrupts, or at once.

`getblk` looks for the block before it calls `getnewbuf`, and not again after
`getnewbuf` has slept. Buffers are unique as long as nobody has brought the
block in meanwhile.
-/

namespace BufferCache

open Runs Option
open Function (update update_of_ne update_self)

variable {P α : Type} [DecidableEq P]

/-- Where a process sleeps; `read` tells `bread` from `getblk`. -/
inductive Pc where
  | idle
  | waitBuf (read : Bool) (dev blkno : Int) (b : Nat)
  | waitFree (read : Bool) (dev blkno : Int)
  | waitEmpty
  | waitRead (b : Nat)
  | waitWrite (b : Nat)
deriving DecidableEq, Repr

def Pc.chan : Pc → Option Chan
  | .idle => none
  | .waitBuf _ _ _ b => some (.buf b)
  | .waitFree _ _ _ => some .free
  | .waitEmpty => some .free
  | .waitRead b => some (.buf b)
  | .waitWrite b => some (.buf b)

structure Sys (P α : Type) where
  cache : Cache α
  pc : P → Pc
  awake : P → Bool
  /-- Who has a buffer, and the block it was asked for; none for `geteblk`. -/
  held : Nat → Option (P × Option (Int × Int))

/-- The wakeups of a turn take effect, and the process goes on to `pc`. -/
def Sys.resume (s : Sys P α) (p : P) (c : Cache α) (pc : Pc) : Sys P α :=
  { s with
    cache := { c with calls := [] }
    pc := update s.pc p pc
    awake := fun q => if q = p then decide (pc = .idle)
      else s.awake q || c.calls.any (fun chan => (s.pc q).chan = some chan) }

def Sys.hold (s : Sys P α) (b : Nat) (use : Option (P × Option (Int × Int))) : Sys P α :=
  { s with held := update s.held b use }

/-- After `getblk`: `bread` goes on with the transfer. -/
def afterGetblk (s : Sys P α) (p : P) (read : Bool) (dev blkno : Int) : Got α → Option (Sys P α)
  | .sleepBuf b c => some (s.resume p c (.waitBuf read dev blkno b))
  | .sleepFree c => some (s.resume p c (.waitFree read dev blkno))
  | .got b c =>
    let s := s.hold b (some (p, some (dev, blkno)))
    if read then (breadStart c b).map (fun r =>
      s.resume p r.2 (if r.1 then .idle else .waitRead b))
    else some (s.resume p c .idle)

def afterGeteblk (s : Sys P α) (p : P) : Got α → Option (Sys P α)
  | .sleepBuf _ _ => none
  | .sleepFree c => some (s.resume p c .waitEmpty)
  | .got b c => some ((s.hold b (some (p, none))).resume p c .idle)

def afterWrite (s : Sys P α) (p : P) (b : Nat) : Written α → Sys P α
  | .finished c => (s.hold b none).resume p c .idle
  | .waiting c => s.resume p c (.waitWrite b)

def wake (s : Sys P α) (p : P) : Option (Sys P α) :=
  match s.pc p with
  | .idle => none
  | .waitBuf read dev blkno _ =>
    (getblk s.cache dev blkno).bind (afterGetblk s p read dev blkno)
  | .waitFree read dev blkno =>
    (getblkNew s.cache dev blkno).bind (afterGetblk s p read dev blkno)
  | .waitEmpty => (geteblk s.cache).bind (afterGeteblk s p)
  | .waitRead b =>
    some (s.resume p s.cache (if (s.cache.flags b).done then .idle else .waitRead b))
  | .waitWrite b =>
    if (s.cache.flags b).done then some ((s.hold b none).resume p (brelse s.cache b) .idle)
    else some (s.resume p s.cache (.waitWrite b))

inductive Act (P : Type) where
  | getblk (p : P) (dev blkno : Int)
  | bread (p : P) (dev blkno : Int)
  | geteblk (p : P)
  | bwrite (p : P) (b : Nat)
  | bdwrite (p : P) (b : Nat)
  | brelse (p : P) (b : Nat)
  | run (p : P)
  | interrupt (b : Nat) (ok : Bool)
  | device (fate : Nat → Fate)

def step (s : Sys P α) : Act P → Option (Sys P α)
  | .getblk p dev blkno => (getblk s.cache dev blkno).bind (afterGetblk s p false dev blkno)
  | .bread p dev blkno => (getblk s.cache dev blkno).bind (afterGetblk s p true dev blkno)
  | .geteblk p => (geteblk s.cache).bind (afterGeteblk s p)
  | .bwrite p b => (bwrite s.cache b).map (afterWrite s p b)
  | .bdwrite p b => (bdwrite s.cache b).map (afterWrite s p b)
  | .brelse p b => some ((s.hold b none).resume p (brelse s.cache b) .idle)
  | .run p => if s.awake p then wake s p else none
  | .interrupt b ok => (interrupt s.cache b ok).map (fun c => { s with
      cache := { c with calls := [] }
      awake := fun q => s.awake q || c.calls.any (fun chan => (s.pc q).chan = some chan) })
  | .device fate => some { s with cache := { s.cache with fate := fate } }

def Step (s : Sys P α) (a : Act P) (t : Sys P α) : Prop := step s a = some t

/-- A call comes from a process that is not asleep in another, names a device, and
releases what the process has. -/
def Allowed (s : Sys P α) : Act P → Prop
  | .getblk p dev _ => s.pc p = .idle ∧ dev ≠ NODEV
  | .bread p dev _ => s.pc p = .idle ∧ dev ≠ NODEV
  | .geteblk p => s.pc p = .idle
  | .bwrite p b => s.pc p = .idle ∧ ∃ use, s.held b = some (p, use)
  | .bdwrite p b => s.pc p = .idle ∧ ∃ use, s.held b = some (p, use)
  | .brelse p b => s.pc p = .idle ∧ ∃ use, s.held b = some (p, use)
  | _ => True

/-- A buffer on a hash chain that carries the block. -/
def Cached (c : Cache α) (dev blkno : Int) (b : Nat) : Prop :=
  (∃ i, b ∈ c.hash i) ∧ (c.buf b).b_dev = dev ∧ (c.buf b).b_blkno = blkno ∧
    (c.flags b).inval = false

/-- Nobody has brought in the block that a sleeper on the free list goes on with. -/
def Unmet (s : Sys P α) : Act P → Prop
  | .run p => ∀ read dev blkno, s.pc p = .waitFree read dev blkno → ∀ b, ¬ Cached s.cache dev blkno b
  | _ => True

def Unique (c : Cache α) : Prop :=
  ∀ dev blkno, dev ≠ NODEV → ∀ b b', Cached c dev blkno b → Cached c dev blkno b' → b = b'

/-! ## One turn -/

/-- Between turns every buffer is settled, stands in the chain of its block and
shares its block with no other. -/
structure Sound (c : Cache α) : Prop where
  settled : ∀ b, Settled c b
  chains : ∀ i b, b ∈ c.hash i → (c.buf b).b_dev = NODEV ∨
    BUFHASH (c.buf b).b_dev (c.buf b).b_blkno = i
  unique : Unique c

/-- Buffer `b` stays as it is, in its chain, and on no queue if it was on none. -/
structure Steady (c c' : Cache α) (b : Nat) : Prop where
  buf : c'.buf b = c.buf b
  unqueued : b ∉ c.queued → b ∉ c'.queued
  hash : ∀ i, b ∈ c.hash i → b ∈ c'.hash i

/-- What holds of a buffer that somebody has for the given block. -/
structure InUse (c : Cache α) (b : Nat) (block : Option (Int × Int)) : Prop where
  out : Out c b
  waited : (c.flags b).async = false
  block : ∀ dev blkno, block = some (dev, blkno) → dev ≠ NODEV ∧ Cached c dev blkno b

section Turns

variable {c c' : Cache α} {b : Nat}

lemma inUse_steady {block : Option (Int × Int)} (steady : Steady c c' b) (use : InUse c b block) :
    InUse c' b block := by
  have flags : c'.flags b = c.flags b := by simp [Cache.flags, steady.buf]
  refine ⟨⟨flags ▸ use.out.busy, steady.unqueued use.out.unqueued⟩, flags ▸ use.waited, ?_⟩
  intro dev blkno same
  obtain ⟨device, ⟨i, chained⟩, isDev, isBlkno, valid⟩ := use.block dev blkno same
  exact ⟨device, ⟨i, steady.hash i chained⟩, by rw [steady.buf, isDev], by rw [steady.buf, isBlkno],
    flags ▸ valid⟩

variable {blkno dev : Int} {x : Nat}

lemma steady_of_touches (touches : Touches c c' b) (different : x ≠ b) : Steady c c' x :=
  ⟨touches.others x different, fun h h' => h ((touches.queues x different).mp h'),
    fun _ h => touches.hash ▸ h⟩

lemma steady_of_cleans {r : Option Nat} (cleans : Cleans c c' r) (out : Out c x) : Steady c c' x :=
  ⟨(cleans.out x out).1, fun _ => (cleans.out x out).2, fun _ h => cleans.hash ▸ h⟩

/-- A buffer that enters no chain keeps its block or drops it. -/
structure Kept (c c' : Cache α) (x : Nat) : Prop where
  hash : ∀ i, x ∈ c'.hash i → x ∈ c.hash i
  ident : (c'.buf x).b_blkno = (c.buf x).b_blkno ∧ (c'.flags x).inval = (c.flags x).inval ∧
    ((c'.buf x).b_dev = (c.buf x).b_dev ∨ (c'.buf x).b_dev = NODEV)

lemma Kept.cached (kept : Kept c c' x) (device : dev ≠ NODEV) (cached : Cached c' dev blkno x) :
    Cached c dev blkno x := by
  obtain ⟨⟨i, chained⟩, isDev, isBlkno, valid⟩ := cached
  obtain ⟨blkno', inval, same | none⟩ := kept.ident
  · exact ⟨⟨i, kept.hash i chained⟩, same.symm.trans isDev, blkno'.symm.trans isBlkno, inval ▸ valid⟩
  · exact absurd (isDev.symm.trans none) device

lemma Kept.chains (kept : Kept c c' x) (sound : Sound c) (i : Nat) (chained : x ∈ c'.hash i) :
    (c'.buf x).b_dev = NODEV ∨ BUFHASH (c'.buf x).b_dev (c'.buf x).b_blkno = i := by
  obtain ⟨blkno, _, same | none⟩ := kept.ident
  · rw [same, blkno]
    exact sound.chains i x (kept.hash i chained)
  · exact .inl none

/-- Identities that are kept or dropped stay unique. -/
lemma sound_of_kept (sound : Sound c) (settled : ∀ x, Settled c' x)
    (kept : ∀ i x, x ∈ c'.hash i → Kept c c' x) : Sound c' := by
  refine ⟨settled, fun i x chained => (kept i x chained).chains sound i chained,
    fun dev blkno device x y hx hy => ?_⟩
  have before : ∀ z, Cached c' dev blkno z → Cached c dev blkno z := fun z hz => by
    obtain ⟨i, chained⟩ := hz.1
    exact (kept i z chained).cached device hz
  exact sound.unique dev blkno device x y (before x hx) (before y hy)

lemma Kept.of_cleans {r : Option Nat} (cleans : Cleans c c' r) (other : r ≠ some x) : Kept c c' x :=
  ⟨fun _ h => cleans.hash ▸ h, cleans.ident x other⟩

lemma sound_of_touches (sound : Sound c) (touches : Touches c c' b) (here : Settled c' b) :
    Sound c' := by
  refine sound_of_kept sound (settled_touches touches here sound.settled)
    (fun _ x _ => ⟨fun _ h => touches.hash ▸ h, ?_⟩)
  by_cases h : x = b
  · subst h
    exact ⟨touches.blkno, touches.inval, touches.dev⟩
  · simp [Cache.flags, touches.others x h]

lemma sound_of_cleans (sound : Sound c) (cleans : Cleans c c' none) : Sound c' :=
  sound_of_kept sound cleans.settled (fun _ _ _ => .of_cleans cleans (by simp))

lemma scan_none (sound : Sound c) (device : dev ≠ NODEV)
    (missed : scan c dev blkno = none) (x : Nat) : ¬ Cached c dev blkno x := by
  rintro ⟨⟨i, chained⟩, isDev, isBlkno, valid⟩
  have chain : BUFHASH dev blkno = i := by
    rcases sound.chains i x chained with none | same
    · exact absurd (isDev.symm.trans none) device
    · rw [← same, isDev, isBlkno]
  simp only [scan, List.find?_eq_none] at missed
  exact missed x (chain ▸ chained) (by simp [isBlock, isDev, isBlkno, valid])

lemma scan_some (hit : scan c dev blkno = some x) : Cached c dev blkno x := by
  have found := List.find?_some hit
  simp only [isBlock, Bool.and_eq_true, decide_eq_true_eq, Bool.not_eq_true'] at found
  exact ⟨⟨_, List.mem_of_find?_eq_some hit⟩, found.1.2, found.1.1, found.2⟩

lemma mem_bremhash (c : Cache α) (b i x : Nat) : x ∈ (bremhash c b).hash i ↔ x ∈ c.hash i ∧ x ≠ b := by
  simp [bremhash]

lemma mem_assign (c : Cache α) (b : Nat) (dev blkno : Int) (i x : Nat) :
    x ∈ (assign c b dev blkno).hash i ↔
      (x = b ∧ i = BUFHASH dev blkno) ∨ (x ∈ c.hash i ∧ x ≠ b) := by
  by_cases h : i = BUFHASH dev blkno
  · subst h
    simp [assign, binshash, mem_bremhash]
  · simp [assign, binshash, mem_bremhash, h]

lemma assign_buf (c : Cache α) (b : Nat) (dev blkno : Int) :
    (assign c b dev blkno).buf b = { c.buf b with b_dev := dev, b_blkno := blkno } := by
  simp [assign, binshash, bremhash]

lemma assign_buf_ne (c : Cache α) (b : Nat) (dev blkno : Int) (h : x ≠ b) :
    (assign c b dev blkno).buf x = c.buf x := by
  simp [assign, binshash, bremhash, h]

lemma sound_assign (sound : Sound c) (cleans : Cleans c c' (some b))
    (device : dev ≠ NODEV) (fresh : ∀ x, ¬ Cached c dev blkno x) :
    Sound (assign c' b dev blkno) ∧ InUse (assign c' b dev blkno) b (some (dev, blkno)) := by
  obtain ⟨_, out, flags⟩ := cleans.taken b rfl
  have here := assign_buf c' b dev blkno
  have there := fun x (h : x ≠ b) => assign_buf_ne c' b dev blkno h
  have flagsHere : (assign c' b dev blkno).flags b = { noFlags with busy := true } := by
    simp only [Cache.flags, here]
    exact flags
  have kept : ∀ x, x ≠ b → Kept c (assign c' b dev blkno) x := fun x h => by
    have old : Kept c c' x := .of_cleans cleans (by simpa using h.symm)
    refine ⟨fun i chained => old.hash i ?_, by simpa only [Cache.flags, there x h] using old.ident⟩
    exact (((mem_assign c' b dev blkno i x).mp chained).resolve_left (fun same => h same.1)).1
  have assigned : Cached (assign c' b dev blkno) dev blkno b :=
    ⟨⟨_, (mem_assign c' b dev blkno _ b).mpr (.inl ⟨rfl, rfl⟩)⟩, by rw [here], by rw [here],
      by rw [flagsHere]; rfl⟩
  have outHere : Out (assign c' b dev blkno) b := ⟨by rw [flagsHere], out.unqueued⟩
  refine ⟨⟨fun x => ?_, fun i x chained => ?_, fun dev' blkno' device' x y hx hy => ?_⟩,
    ⟨outHere, by rw [flagsHere]; rfl, ?_⟩⟩
  · by_cases h : x = b
    · subst h
      exact settled_of_out outHere
    · exact (cleans.settled x).of_buf (there x h) id
  · rcases (mem_assign c' b dev blkno i x).mp chained with ⟨rfl, rfl⟩ | ⟨_, h⟩
    · exact .inr (by rw [here])
    · exact (kept x h).chains sound i chained
  · have isBlock : ∀ z, Cached (assign c' b dev blkno) dev' blkno' z → z ≠ b →
        ¬ Cached (assign c' b dev blkno) dev' blkno' b := by
      rintro z hz h ⟨_, isDev, isBlkno, _⟩
      rw [here] at isDev isBlkno
      cases isDev
      cases isBlkno
      exact fresh z ((kept z h).cached device' hz)
    by_cases hxb : x = b
    · by_contra different
      exact isBlock y hy (fun h => different (hxb.trans h.symm)) (hxb ▸ hx)
    · by_cases hyb : y = b
      · exact absurd (hyb ▸ hy) (isBlock x hx hxb)
      · exact sound.unique dev' blkno' device' x y ((kept x hxb).cached device' hx)
          ((kept y hyb).cached device' hy)
  · rintro dev' blkno' same
    cases same
    exact ⟨device, assigned⟩

end Turns

/-! ## All processes -/

/-- The block a sleeping process will ask for. -/
def Pc.asks : Pc → Option (Int × Int)
  | .waitBuf _ dev blkno _ => some (dev, blkno)
  | .waitFree _ dev blkno => some (dev, blkno)
  | _ => none

/-- The buffer whose transfer a process waits for. -/
def Pc.awaits : Pc → Option Nat
  | .waitRead b => some b
  | .waitWrite b => some b
  | _ => none

structure Shared (s : Sys P α) : Prop where
  sound : Sound s.cache
  held : ∀ b p block, s.held b = some (p, block) → InUse s.cache b block
  awaits : ∀ p b, (s.pc p).awaits = some b → ∃ block, s.held b = some (p, block)
  asks : ∀ p dev blkno, (s.pc p).asks = some (dev, blkno) → dev ≠ NODEV

section Processes

variable {s t : Sys P α} {p : P} {c : Cache α} {pc : Pc} {b : Nat}

omit [DecidableEq P] in
lemma sound_calls (sound : Sound c) (calls : List Chan) : Sound { c with calls } :=
  ⟨fun b => (sound.settled b).of_buf rfl id, sound.chains, sound.unique⟩

variable {read : Bool} {c' : Cache α} {blkno dev : Int} {block : Option (Int × Int)} {w : Written α}

omit [DecidableEq P] in
lemma inUse_calls (use : InUse c b block) (calls : List Chan) : InUse { c with calls } b block :=
  ⟨⟨use.out.busy, use.out.unqueued⟩, use.waited, use.block⟩

/-- A turn of `p`; the others keep what they have. -/
lemma shared_turn (shared : Shared s) {held : Nat → Option (P × Option (Int × Int))} (sound : Sound c)
    (uses : ∀ x q block, held x = some (q, block) → InUse c x block)
    (kept : ∀ x q block, q ≠ p → s.held x = some (q, block) → held x = some (q, block))
    (awaits : ∀ x, pc.awaits = some x → ∃ block, held x = some (p, block))
    (asks : ∀ dev blkno, pc.asks = some (dev, blkno) → dev ≠ NODEV) :
    Shared ({ s with held }.resume p c pc) := by
  refine ⟨sound_calls sound [], fun x q block holds => inUse_calls (uses x q block holds) [],
    fun q x waits => ?_, fun q dev blkno wants => ?_⟩
  · by_cases hq : q = p
    · subst hq
      simp only [Sys.resume, update_self] at waits
      exact awaits x waits
    · simp only [Sys.resume, update_of_ne hq] at waits
      obtain ⟨block, holds⟩ := shared.awaits q x waits
      exact ⟨block, kept x q block hq holds⟩
  · by_cases hq : q = p
    · subst hq
      simp only [Sys.resume, update_self] at wants
      exact asks dev blkno wants
    · simp only [Sys.resume, update_of_ne hq] at wants
      exact shared.asks q dev blkno wants

/-- A turn that concerns buffer `b`, which is the process's own or nobody's. -/
lemma shared_hold (shared : Shared s) {use : Option (P × Option (Int × Int))} (sound : Sound c)
    (others : ∀ x, x ≠ b → Out s.cache x → Steady s.cache c x)
    (mine : ∀ q block, s.held b = some (q, block) → q = p)
    (here : ∀ q block, use = some (q, block) → InUse c b block)
    (awaits : ∀ x, pc.awaits = some x → x = b ∧ ∃ block, use = some (p, block))
    (asks : ∀ dev blkno, pc.asks = some (dev, blkno) → dev ≠ NODEV) :
    Shared ((s.hold b use).resume p c pc) := by
  refine shared_turn shared sound (fun x q block holds => ?_) (fun x q block hq holds => ?_)
    (fun x waits => ?_) asks
  · by_cases h : x = b
    · subst h
      exact here q block (by simpa using holds)
    · have use := shared.held x q block (by simpa [h] using holds)
      exact inUse_steady (others x h use.out) use
  · have h : x ≠ b := by
      rintro rfl
      exact hq (mine q block holds)
    simpa [h] using holds
  · obtain ⟨rfl, block, uses⟩ := awaits x waits
    exact ⟨block, by simpa using uses⟩

/-- A turn after which everybody has the same buffers. -/
lemma shared_resume (shared : Shared s) (sound : Sound c)
    (others : ∀ x, Out s.cache x → Steady s.cache c x)
    (awaits : ∀ x, pc.awaits = some x → ∃ block, s.held x = some (p, block))
    (asks : ∀ dev blkno, pc.asks = some (dev, blkno) → dev ≠ NODEV) : Shared (s.resume p c pc) :=
  shared_turn shared sound
    (fun x q block holds => inUse_steady (others x (shared.held x q block holds).out)
      (shared.held x q block holds))
    (fun _ _ _ _ holds => holds) awaits asks

omit [DecidableEq P] in
/-- A buffer that is not out is nobody's. -/
lemma nobody_has (shared : Shared s) (free : ¬ Out s.cache b) (q : P) (block : Option (Int × Int)) :
    s.held b ≠ some (q, block) :=
  fun holds => free (shared.held b q block holds).out

omit [DecidableEq P] in
lemma inUse_awaited (use : InUse c b block)
    (touches : Touches c c' b) (awaited : Awaited c c' b) : InUse c' b block := by
  refine ⟨awaited.out, awaited.async, fun dev blkno same => ?_⟩
  obtain ⟨device, ⟨i, chained⟩, isDev, isBlkno, valid⟩ := use.block dev blkno same
  exact ⟨device, ⟨i, touches.hash ▸ chained⟩, awaited.dev.trans isDev, touches.blkno.trans isBlkno,
    touches.inval ▸ valid⟩

omit [DecidableEq P] in
lemma breadStart_spec {through : Bool}
    (use : InUse c b block) (done : breadStart c b = some (through, c')) :
    Touches c c' b ∧ InUse c' b block := by
  simp only [breadStart] at done
  split_ifs at done
  · cases done
    exact ⟨touches_refl c b, use⟩
  · obtain ⟨d, started, same⟩ := map_eq_some_iff.mp done
    cases same
    have out : Out (c.mark b (fun f => { f with read := true })) b := out_mark use.out (fun _ => rfl)
    obtain ⟨touches, _, awaited⟩ := strategy_spec out started
    obtain ⟨stays, async, dev⟩ := awaited (by simpa using use.waited)
    have all := touches_of_mark touches (fun _ => rfl)
    exact ⟨all, inUse_awaited use all ⟨stays, async, by simpa using dev⟩⟩

lemma got_shared (shared : Shared s) (sound : Sound c)
    (use : InUse c b (some (dev, blkno))) (free : ¬ Out s.cache b)
    (others : ∀ x, x ≠ b → Out s.cache x → Steady s.cache c x)
    (after : afterGetblk s p read dev blkno (.got b c) = some t) : Shared t := by
  have mine : ∀ q block, s.held b = some (q, block) → q = p :=
    fun q block holds => absurd holds (nobody_has shared free q block)
  cases read with
  | false =>
    simp only [afterGetblk, Bool.false_eq_true, if_false, some.injEq] at after
    subst after
    refine shared_hold shared sound others mine (fun q block same => ?_) (fun x h => by cases h)
      (fun _ _ h => by cases h)
    cases same
    exact use
  | true =>
    obtain ⟨⟨through, c'⟩, started, rfl⟩ := map_eq_some_iff.mp after
    obtain ⟨touches, use'⟩ := breadStart_spec use started
    refine shared_hold shared (sound_of_touches sound touches (settled_of_out use'.out))
      (fun x h out => ?_) mine (fun q block same => ?_) (fun x h => ?_) (fun _ _ h => ?_)
    · have first := others x h out
      have second := steady_of_touches touches h
      exact ⟨second.buf.trans first.buf, fun q => second.unqueued (first.unqueued q),
        fun i q => second.hash i (first.hash i q)⟩
    · cases same
      exact use'
    · cases through with
      | true => cases h
      | false =>
        cases h
        exact ⟨rfl, _, rfl⟩
    · cases through <;> cases h

/-- `getblk` from `getnewbuf` on, for a block that no buffer has. -/
lemma getblkNew_shared (shared : Shared s) (device : dev ≠ NODEV)
    (fresh : ∀ x, ¬ Cached s.cache dev blkno x)
    (done : (getblkNew s.cache dev blkno).bind (afterGetblk s p read dev blkno) = some t) :
    Shared t := by
  obtain ⟨g, got, after⟩ := bind_eq_some_iff.mp done
  obtain ⟨⟨r, c⟩, taken, rfl⟩ := map_eq_some_iff.mp got
  have cleans := getnewbuf_spec _ shared.sound.settled taken
  cases r with
  | none =>
    simp only [afterGetblk, some.injEq] at after
    subst after
    refine shared_resume shared (sound_of_cleans shared.sound cleans)
      (fun x out => steady_of_cleans cleans out) (fun x h => by cases h) (fun _ _ h => ?_)
    cases h
    exact device
  | some b =>
    obtain ⟨sound, use⟩ := sound_assign shared.sound cleans device fresh
    have free : ¬ Out s.cache b := fun out => out.unqueued (cleans.taken b rfl).1
    refine got_shared shared sound use free (fun x h out => ?_) after
    have steady := steady_of_cleans cleans out
    exact ⟨(assign_buf_ne c b dev blkno h).trans steady.buf, steady.unqueued,
      fun i chained => (mem_assign c b dev blkno i x).mpr (.inr ⟨steady.hash i chained, h⟩)⟩

lemma getblk_shared (shared : Shared s) (device : dev ≠ NODEV)
    (done : (getblk s.cache dev blkno).bind (afterGetblk s p read dev blkno) = some t) :
    Shared t := by
  cases hit : scan s.cache dev blkno with
  | none =>
    simp only [getblk, hit] at done
    exact getblkNew_shared shared device (scan_none shared.sound device hit) done
  | some b =>
    obtain ⟨g, got, after⟩ := bind_eq_some_iff.mp done
    have cached := scan_some hit
    simp only [getblk, hit] at got
    split_ifs at got with busy
    · cases got
      simp only [afterGetblk, some.injEq] at after
      subst after
      have touches : Touches s.cache (s.cache.mark b (fun f => { f with wanted := true })) b :=
        mark_touches _ b (fun _ => rfl)
      have here := shared.sound.settled b
      have settled : Settled (s.cache.mark b (fun f => { f with wanted := true })) b :=
        ⟨fun h => by simpa using here.idle h, fun h => by simpa using here.async (by simpa using h)⟩
      refine shared_turn shared (sound_of_touches shared.sound touches settled)
        (fun x q block holds => ?_) (fun _ _ _ _ holds => holds) (fun x h => by cases h)
        (fun _ _ h => by cases h; exact device)
      have use := shared.held x q block holds
      by_cases h : x = b
      · subst h
        exact inUse_awaited use touches ⟨⟨by simpa using use.out.busy, use.out.unqueued⟩,
          by simpa using use.waited, by simp⟩
      · exact inUse_steady (steady_of_touches touches h) use
    · cases got
      have touches := notavail_touches s.cache b
      have out := notavail_out s.cache b
      have idle : (s.cache.flags b).async = false := by
        by_contra h
        exact busy ((shared.sound.settled b).async (by simpa using h))
      have use : InUse (notavail s.cache b) b (some (dev, blkno)) := by
        refine ⟨out, by simpa [notavail, bremfree, Cache.flags] using idle, fun dev' blkno' same => ?_⟩
        cases same
        obtain ⟨⟨i, chained⟩, isDev, isBlkno, valid⟩ := cached
        exact ⟨device, ⟨i, touches.hash ▸ chained⟩, by simpa [notavail, bremfree] using isDev,
          touches.blkno.trans isBlkno, touches.inval ▸ valid⟩
      exact got_shared shared (sound_of_touches shared.sound touches (settled_of_out out)) use
        (fun held => busy held.busy) (fun x h _ => steady_of_touches touches h) after

omit [DecidableEq P] in
lemma unassign_sound (sound : Sound c) (cleans : Cleans c c' (some b)) :
    Sound (unassign c' b) ∧ InUse (unassign c' b) b none := by
  obtain ⟨_, out, flags⟩ := cleans.taken b rfl
  have there : ∀ x, x ≠ b → (unassign c' b).buf x = c'.buf x := by
    intro x h
    simp [unassign, bremhash, h]
  have flagsHere : (unassign c' b).flags b = { noFlags with busy := true, inval := true } := by
    simp [unassign, bremhash, Cache.flags] at flags ⊢
    simp [flags]
  have outHere : Out (unassign c' b) b := ⟨by rw [flagsHere], out.unqueued⟩
  refine ⟨sound_of_kept sound (fun x => ?_) (fun i x h => ?_),
    ⟨outHere, by rw [flagsHere]; rfl, fun _ _ h => by cases h⟩⟩
  · by_cases h : x = b
    · subst h
      exact settled_of_out outHere
    · exact (cleans.settled x).of_buf (there x h) id
  · have chained : ∀ i, x ∈ (unassign c' b).hash i → x ∈ c'.hash i ∧ x ≠ b := fun i h => by
      simpa [unassign, bremhash] using h
    have different := (chained i h).2
    have old : Kept c c' x := .of_cleans cleans (by simpa using different.symm)
    exact ⟨fun i h => old.hash i (chained i h).1,
      by simpa only [Cache.flags, there x different] using old.ident⟩

section

variable (shared : Shared s)
include shared

lemma geteblk_shared (done : (geteblk s.cache).bind (afterGeteblk s p) = some t) : Shared t := by
  obtain ⟨g, got, after⟩ := bind_eq_some_iff.mp done
  obtain ⟨⟨r, c⟩, taken, rfl⟩ := map_eq_some_iff.mp got
  have cleans := getnewbuf_spec _ shared.sound.settled taken
  cases r with
  | none =>
    simp only [afterGeteblk, some.injEq] at after
    subst after
    exact shared_resume shared (sound_of_cleans shared.sound cleans)
      (fun x out => steady_of_cleans cleans out) (fun x h => by cases h) (fun _ _ h => by cases h)
  | some b =>
    obtain ⟨sound, use⟩ := unassign_sound shared.sound cleans
    have free : ¬ Out s.cache b := fun out => out.unqueued (cleans.taken b rfl).1
    simp only [afterGeteblk, some.injEq] at after
    subst after
    refine shared_hold shared sound (fun x h out => ?_)
      (fun q block holds => absurd holds (nobody_has shared free q block))
      (fun q block same => by cases same; exact use) (fun x h => by cases h) (fun _ _ h => by cases h)
    have steady := steady_of_cleans cleans out
    refine ⟨?_, steady.unqueued, fun i chained => ?_⟩
    · simpa [unassign, bremhash, h] using steady.buf
    · simpa [unassign, bremhash, h] using steady.hash i chained

lemma release_shared (holds : s.held b = some (p, block))
    (touches : Touches s.cache c b) (settled : Settled c b) :
    Shared ((s.hold b none).resume p c .idle) :=
  shared_hold shared (sound_of_touches shared.sound touches settled)
    (fun _ h _ => steady_of_touches touches h)
    (fun q block' same => by rw [holds] at same; cases same; rfl)
    (fun _ _ h => by cases h) (fun _ h => by cases h) (fun _ _ h => by cases h)

lemma write_shared (holds : s.held b = some (p, block))
    (touches : Touches s.cache w.cache b) (settled : Settled w.cache b)
    (waits : ∀ d, w = .waiting d → Awaited s.cache d b) : Shared (afterWrite s p b w) := by
  cases w with
  | finished c => exact release_shared shared holds touches settled
  | waiting c =>
    have use := inUse_awaited (shared.held b p block holds) touches (waits c rfl)
    refine shared_turn shared (sound_of_touches shared.sound touches settled)
      (fun x q block' same => ?_) (fun _ _ _ _ h => h) (fun x h => by cases h; exact ⟨block, holds⟩)
      (fun _ _ h => by cases h)
    by_cases h : x = b
    · subst h
      rw [holds] at same
      cases same
      exact use
    · exact inUse_steady (steady_of_touches touches h) (shared.held x q block' same)

lemma bwrite_shared (holds : s.held b = some (p, block))
    (done : bwrite s.cache b = some w) : Shared (afterWrite s p b w) := by
  obtain ⟨touches, settled, waits⟩ := bwrite_spec (shared.held b p block holds).out done
  exact write_shared shared holds touches settled (fun d h => (waits d h).1)

lemma bdwrite_shared (holds : s.held b = some (p, block))
    (done : bdwrite s.cache b = some w) : Shared (afterWrite s p b w) := by
  simp only [bdwrite] at done
  split_ifs at done
  · obtain ⟨touches, settled, finished⟩ := bawrite_spec (shared.held b p block holds).out done
    exact write_shared shared holds touches settled (fun d h => by rw [finished] at h; cases h)
  · cases done
    exact release_shared shared holds (touches_of_mark (brelse_touches _ b) (fun _ => rfl))
      (brelse_settled _ b)

lemma wake_shared (unmet : ∀ read dev blkno, s.pc p = .waitFree read dev blkno → ∀ b, ¬ Cached s.cache dev blkno b)
    (done : wake s p = some t) : Shared t := by
  have steady : ∀ x, Out s.cache x → Steady s.cache s.cache x := fun x _ => ⟨rfl, id, fun _ h => h⟩
  cases here : s.pc p with
  | idle => simp [wake, here] at done
  | waitBuf read dev blkno b =>
    simp only [wake, here] at done
    exact getblk_shared shared (shared.asks p dev blkno (by rw [here]; rfl)) done
  | waitFree read dev blkno =>
    simp only [wake, here] at done
    exact getblkNew_shared shared (shared.asks p dev blkno (by rw [here]; rfl))
      (unmet read dev blkno here) done
  | waitEmpty =>
    simp only [wake, here] at done
    exact geteblk_shared shared done
  | waitRead b =>
    simp only [wake, here, some.injEq] at done
    subst done
    refine shared_resume shared shared.sound steady (fun x h => ?_) (fun _ _ h => ?_)
    · split_ifs at h
      · cases h
      · exact shared.awaits p x (by rw [here]; exact h)
    · split_ifs at h <;> cases h
  | waitWrite b =>
    obtain ⟨block, holds⟩ := shared.awaits p b (by rw [here]; rfl)
    simp only [wake, here] at done
    split_ifs at done <;> cases done
    · exact release_shared shared holds (brelse_touches _ b) (brelse_settled _ b)
    · exact shared_resume shared shared.sound steady (fun x h => by cases h; exact ⟨block, holds⟩)
        (fun _ _ h => by cases h)

end

end Processes

/-! ## Histories -/

omit [DecidableEq P] in
lemma interrupt_shared {s : Sys P α} (shared : Shared s) {b : Nat} {ok : Bool} {c : Cache α}
    (done : interrupt s.cache b ok = some c) (awake : P → Bool) :
    Shared { s with cache := { c with calls := [] }, awake } := by
  have ends := interrupt_ends done
  refine ⟨sound_calls (sound_of_touches shared.sound ends.touches
    (ends.settled (shared.sound.settled b))) [], fun x q block holds => inUse_calls ?_ [],
    shared.awaits, shared.asks⟩
  have use := shared.held x q block holds
  by_cases h : x = b
  · subst h
    exact inUse_awaited use ends.touches (ends.awaited use.waited use.out)
  · exact inUse_steady (steady_of_touches ends.touches h) use

lemma step_shared (s : Sys P α) (a : Act P) (t : Sys P α) (shared : Shared s)
    (ok : Allowed s a ∧ Unmet s a) (stepped : Step s a t) : Shared t := by
  obtain ⟨allowed, unmet⟩ := ok
  cases a with
  | getblk p dev blkno | bread p dev blkno => exact getblk_shared shared allowed.2 stepped
  | geteblk p => exact geteblk_shared shared stepped
  | bwrite p b =>
    obtain ⟨_, block, holds⟩ := allowed
    obtain ⟨w, done, rfl⟩ := map_eq_some_iff.mp stepped
    exact bwrite_shared shared holds done
  | bdwrite p b =>
    obtain ⟨_, block, holds⟩ := allowed
    obtain ⟨w, done, rfl⟩ := map_eq_some_iff.mp stepped
    exact bdwrite_shared shared holds done
  | brelse p b =>
    obtain ⟨_, block, holds⟩ := allowed
    cases stepped
    exact release_shared shared holds (brelse_touches _ b) (brelse_settled _ b)
  | run p =>
    simp only [Step, step] at stepped
    split_ifs at stepped
    exact wake_shared shared unmet stepped
  | interrupt b ok =>
    obtain ⟨c, done, rfl⟩ := map_eq_some_iff.mp stepped
    exact interrupt_shared shared done _
  | device fate =>
    cases stepped
    exact ⟨⟨fun b => (shared.sound.settled b).of_buf rfl id, shared.sound.chains,
      shared.sound.unique⟩, fun x q block holds =>
      inUse_steady (c := s.cache) ⟨rfl, id, fun _ => id⟩ (shared.held x q block holds),
      shared.awaits, shared.asks⟩

/-- No process is in a call and none has a buffer. -/
structure Started (s : Sys P α) (n : Nat) : Prop where
  pool : ∃ zero tape disk fate, s.cache = binit n zero tape disk fate
  outside : ∀ p, s.pc p = .idle
  nothing : ∀ b, s.held b = none

lemma binit_sound (n : Nat) (zero : α) (tape : Int → Bool) (disk : Int → Int → α) (fate : Nat → Fate) :
    Sound (binit n zero tape disk fate) := by
  have rounds : ∀ (bs : List Nat) (c : Cache α), (∀ i, c.hash i = []) → (∀ b, Settled c b) →
      (∀ i, (bs.foldl binitRound c).hash i = []) ∧ ∀ b, Settled (bs.foldl binitRound c) b := by
    intro bs
    induction bs with
    | nil => exact fun c chains settled => ⟨chains, settled⟩
    | cons b bs ih =>
      intro c chains settled
      have touches := brelse_touches ({ c with empties := b :: c.empties }.modify b (fun x => { x with
        b_dev := NODEV, b_flags := { noFlags with busy := true, inval := true } })) b
      refine ih _ (fun i => by simpa [binitRound, touches.hash] using chains i) (fun x => ?_)
      by_cases h : x = b
      · subst h
        exact brelse_settled _ x
      · have buf : (binitRound c b).buf x = c.buf x := by
          simpa [binitRound, h] using touches.others x h
        exact (settled x).of_buf buf (touches.queues x h).mp
  obtain ⟨chains, settled⟩ := rounds _ (blank zero tape disk fate) (fun _ => rfl)
    (fun b => ⟨fun h => by simp [Cache.queued, blank] at h, fun h => by cases h⟩)
  refine ⟨settled, fun i b h => ?_, fun dev blkno _ b b' h => ?_⟩
  · rw [binit, chains] at h
    cases h
  · obtain ⟨⟨i, h⟩, _⟩ := h
    rw [binit, chains] at h
    cases h

/-- As long as nobody brings in the block that a sleeper on the free list wants, no
block has two buffers, and who has a buffer for a block is alone with it. -/
theorem buffers_unique {start s : Sys P α} {n : Nat} (acts : List (Act P)) (started : Started start n)
    (run : Run Step (fun s a => Allowed s a ∧ Unmet s a) start acts s) :
    Unique s.cache ∧ ∀ b b' p q dev blkno, s.held b = some (p, some (dev, blkno)) →
      s.held b' = some (q, some (dev, blkno)) → b = b' ∧ p = q := by
  obtain ⟨⟨zero, tape, disk, fate, pool⟩, outside, nothing⟩ := started
  have begins : Shared start :=
    ⟨pool ▸ binit_sound n zero tape disk fate, fun b p block h => by simp [nothing] at h,
      fun p b h => by simp [outside, Pc.awaits] at h, fun p dev blkno h => by simp [outside, Pc.asks] at h⟩
  have now := run_invariant Shared step_shared run begins
  refine ⟨now.sound.unique, fun b b' p q dev blkno hp hq => ?_⟩
  obtain ⟨device, cached⟩ := (now.held b p _ hp).block dev blkno rfl
  obtain ⟨_, cached'⟩ := (now.held b' q _ hq).block dev blkno rfl
  obtain rfl := now.sound.unique dev blkno device b b' cached cached'
  rw [hp] at hq
  cases hq
  exact ⟨rfl, rfl⟩

def freshPool : Sys (Fin 3) Unit :=
  ⟨binit NBUF () (fun _ => false) (fun _ _ => ()) (fun _ => .exact), fun _ => .idle, fun _ => true,
    fun _ => none⟩

lemma freshPool_started : Started freshPool NBUF :=
  ⟨⟨(), fun _ => false, fun _ _ => (), fun _ => .exact, rfl⟩, fun _ => rfl, fun _ => rfl⟩

theorem buffers_unique_fresh_pool : ∃ s, Step freshPool (.bread 0 1 7) s ∧ Unique s.cache :=
  ⟨_, rfl, (buffers_unique [.bread 0 1 7] freshPool_started
    (.cons ⟨⟨rfl, by decide⟩, trivial⟩ rfl (.nil _))).1⟩

/-- One process takes every buffer, two others then ask for the same block and sleep
on the free list; each of them gets a buffer of its own when two come free. -/
def twoSleepers : List (Act (Fin 3)) :=
  (List.range NBUF).map (fun k => Act.getblk 0 1 (k : Int)) ++
    [.getblk 1 1 100, .getblk 2 1 100, .brelse 0 9, .brelse 0 8, .run 1, .run 2]

theorem two_sleepers_share_block :
    Started freshPool NBUF ∧ ∃ s, Run Step Allowed freshPool twoSleepers s ∧ ¬ Unique s.cache ∧
      s.held 9 = some (1, some (1, 100)) ∧ s.held 8 = some (2, some (1, 100)) := by
  refine ⟨freshPool_started, _,
    .cons ⟨rfl, by decide⟩ rfl <| .cons ⟨rfl, by decide⟩ rfl <| .cons ⟨rfl, by decide⟩ rfl <|
    .cons ⟨rfl, by decide⟩ rfl <| .cons ⟨rfl, by decide⟩ rfl <| .cons ⟨rfl, by decide⟩ rfl <|
    .cons ⟨rfl, by decide⟩ rfl <| .cons ⟨rfl, by decide⟩ rfl <| .cons ⟨rfl, by decide⟩ rfl <|
    .cons ⟨rfl, by decide⟩ rfl <| .cons ⟨rfl, by decide⟩ rfl <| .cons ⟨rfl, by decide⟩ rfl <|
    .cons ⟨rfl, _, rfl⟩ rfl <| .cons ⟨rfl, _, rfl⟩ rfl <| .cons trivial rfl <|
    .cons trivial rfl <| .nil _, fun unique => ?_, rfl, rfl⟩
  have same := unique 1 100 (by decide) 9 8 ⟨⟨5, by decide⟩, rfl, rfl, rfl⟩ ⟨⟨5, by decide⟩, rfl, rfl, rfl⟩
  exact absurd same (by decide)

end BufferCache
