import RetroBSD.SwapSpace
import RetroBSD.Processes
import RetroBSD.MemoryWindows

/-!
# The swapper

User processes share one region of memory. `sched` (`sys/kernel/vm_sched.c`)
decides who has it, `swapin` and `swapout` (`sys/kernel/vm_swap.c`) move images,
`newproc` (`sys/kernel/kern_fork.c`, without `vfork`) makes the image of a child
by swapping it out, and `exit` leaves the region behind.

A process gives up the processor only where it sleeps, stops, gives way or
ends, so a step goes from one such point to the next; inside of `swapout` and
`swapin` those points are the transfers. Interrupts make processes runnable
between any two steps. Which process waits for what is left out: a process
that sleeps can be woken at any time, the swapper included, and `swtch` can
choose anybody on the run queue who is loaded. The bytes of the u. area are left
out, its place in the swap area is not. `image` is a history variable, which no
step reads.
-/

namespace Swapper

open Runs ResourceMap MemoryWindows
open SwapSpace (btod USIZE DEV_BSIZE USER_DATA_START USER_DATA_END)
open Processes (Stat)

/-- The segments of a process: addresses of memory while it is loaded, block
numbers while it is swapped out. -/
structure Seg where
  p_dsize : ℕ
  p_ssize : ℕ
  p_daddr : ℕ
  p_saddr : ℕ
  p_addr : ℕ
  deriving DecidableEq

structure Frame where
  a : Fin 3 → ℕ
  odata : ℕ
  ostack : ℕ

inductive OutPc where
  | start
  | data (f : Frame)
  | stack (f : Frame)
  | area (f : Frame)
  | finish (f : Frame)

/-- What `swapin` does next, with its local `saddr`. -/
inductive InPc where
  | data
  | stack (saddr : ℕ)
  | area (saddr : ℕ)
  | finish (saddr : ℕ)

/-- Where in the kernel a process is: in code of its own, in the copy that
`newproc` makes (as the child), or in `sched`, before its searches or in one of
the two calls after them. -/
inductive Thread where
  | user
  | newproc (parent : ℕ) (pc : OutPc)
  | search
  | swapout (in_core swapped_out : ℕ) (pc : OutPc)
  | swapin (swapped_out : ℕ) (pc : InPc)

structure Image where
  data : List UInt8
  stack : List UInt8
  deriving DecidableEq

/-- `cur` is the process that has the processor. `image` holds the bytes with
which a process was last swapped out, for a new child those of its parent at the
fork. -/
structure State where
  p_stat : ℕ → Stat
  sload : ℕ → Bool
  ssys : ℕ → Bool
  slock : ℕ → Bool
  sintr : ℕ → Bool
  svfprnt : ℕ → Bool
  p_time : ℕ → ℤ
  p_nice : ℕ → ℤ
  seg : ℕ → Seg
  allproc : List ℕ
  zombproc : List ℕ
  freeproc : List ℕ
  qs : List ℕ
  cur : Option ℕ
  thread : ℕ → Thread
  swapmap : Map
  core : ℕ → UInt8
  swapdev : ℕ → UInt8
  image : ℕ → Image

/-- A transfer waits for the device. -/
def OutPc.waits : OutPc → Bool
  | .data _ | .stack _ | .area _ => true
  | .start | .finish _ => false

def InPc.waits : InPc → Bool
  | .data | .stack _ | .area _ => true
  | .finish _ => false

namespace State

open Function (update)

def goto (s : State) (p : ℕ) (next : Thread) : State :=
  { s with thread := update s.thread p next }

def bytes (s : State) (p : ℕ) : Image :=
  ⟨window s.core (s.seg p).p_daddr (s.seg p).p_dsize,
    window s.core (s.seg p).p_saddr (s.seg p).p_ssize⟩

def remember (s : State) (p : ℕ) : State := { s with image := update s.image p (s.bytes p) }

/-- `sched` calls `swapout`, or is already in it. -/
def called (s : State) (p : ℕ) : OutPc → State
  | .start => s.remember p
  | _ => s

/-! ## Moving images -/

def swapWrite (s : State) (blkno coreaddr count : ℕ) : State :=
  { s with swapdev := transfer s.swapdev (blkno * DEV_BSIZE) s.core coreaddr count }

def swapRead (s : State) (blkno coreaddr count : ℕ) : State :=
  { s with core := transfer s.core coreaddr s.swapdev (blkno * DEV_BSIZE) count }

/-- The end of `swapout`. -/
def leave (s : State) (p : ℕ) (f : Frame) : State :=
  { s with
    seg := update s.seg p { s.seg p with p_daddr := f.a 0, p_saddr := f.a 1, p_addr := f.a 2 }
    sload := update s.sload p false
    slock := update s.slock p false
    p_time := update s.p_time p 0 }

/-- The end of `swapin`. -/
def enter (u0 : ℕ) (s : State) (p saddr : ℕ) : State :=
  { s with
    seg := update s.seg p
      { s.seg p with p_daddr := USER_DATA_START, p_saddr := saddr, p_addr := u0 }
    qs := if s.p_stat p = .srun then p :: s.qs else s.qs
    sload := update s.sload p true
    p_time := update s.p_time p 0 }

/-- One part of `swapout` with the old sizes; the local array starts with what
is on the stack. The result says where it goes on, `none` after the return.
Nothing is the panic "out of swap space". -/
def swapout (s : State) (p : ℕ) (a : Fin 3 → ℕ) : OutPc → Option (State × Option OutPc)
  | .start =>
    let g := s.seg p
    let r := malloc3 s.swapmap (btod g.p_dsize) (btod g.p_ssize) (btod USIZE) a
    if r.1 = 0 then none
    else some ({ s with swapmap := r.2.2, slock := update s.slock p true },
      some (.data ⟨r.2.1, g.p_dsize, g.p_ssize⟩))
  | .data f =>
    some (if f.odata ≠ 0 then s.swapWrite (f.a 0) (s.seg p).p_daddr f.odata else s,
      some (.stack f))
  | .stack f =>
    some (if f.ostack ≠ 0 then s.swapWrite (f.a 1) (s.seg p).p_saddr f.ostack else s,
      some (.area f))
  | .area f => some (s, some (.finish f))
  | .finish f => some (s.leave p f, none)

/-- One part of `swapin`. Nothing is the panic of `mfree`. -/
def swapin (u0 : ℕ) (s : State) (p : ℕ) : InPc → Option (State × Option InPc)
  | .data =>
    let g := s.seg p
    let saddr := USER_DATA_END - g.p_ssize
    if g.p_dsize ≠ 0 then
      (mfree s.swapmap (btod g.p_dsize) g.p_daddr).map fun mp =>
        ({ s.swapRead g.p_daddr USER_DATA_START g.p_dsize with swapmap := mp },
          some (.stack saddr))
    else some (s, some (.stack saddr))
  | .stack saddr =>
    let g := s.seg p
    if g.p_ssize ≠ 0 then
      (mfree s.swapmap (btod g.p_ssize) g.p_saddr).map fun mp =>
        ({ s.swapRead g.p_saddr saddr g.p_ssize with swapmap := mp }, some (.area saddr))
    else some (s, some (.area saddr))
  | .area saddr =>
    (mfree s.swapmap (btod USIZE) (s.seg p).p_addr).map fun mp =>
      ({ s with swapmap := mp }, some (.finish saddr))
  | .finish saddr => some (enter u0 s p saddr, none)

/-! ## Queues -/

/-- The end of `tsleep`, with the processor given up. -/
def tsleep (s : State) (p : ℕ) (sintr : Bool) : State :=
  { s with p_stat := update s.p_stat p .ssleep, sintr := update s.sintr p sintr, cur := none }

/-- `setrun`, and `wakeup` for one process. -/
def setrun (s : State) (p : ℕ) : State :=
  { s with
    p_stat := update s.p_stat p .srun
    qs := if s.sload p then p :: s.qs else s.qs }

/-- Nothing is the panic. -/
def remrq (s : State) (p : ℕ) : Option State :=
  if p ∈ s.qs then some { s with qs := s.qs.erase p } else none

/-! ## The loop of the swapper -/

/-- The first search of `sched` over the rest of `allproc`: `swapped_out` and
`out_time`. -/
def outLongest (s : State) : List ℕ → Option ℕ → ℤ → Option ℕ × ℤ
  | [], swapped_out, out_time => (swapped_out, out_time)
  | rp :: rest, swapped_out, out_time =>
    if s.p_stat rp ≠ .srun ∨ s.sload rp then s.outLongest rest swapped_out out_time
    else
      let rptime := s.p_time rp - s.p_nice rp * 8
      if rptime > out_time ∨ s.svfprnt rp then
        if s.svfprnt rp then (some rp, rptime) else s.outLongest rest (some rp) rptime
      else s.outLongest rest swapped_out out_time

/-- The second search of `sched`: "there may be only one non-system loaded
process". -/
def inCore (s : State) : Option ℕ :=
  s.allproc.find? fun rp => s.p_stat rp ≠ .szomb && !s.ssys rp && s.sload rp

/-- Whether the process found is swapped out. -/
def mayLeave (s : State) (p : ℕ) (out_time : ℤ) : Bool :=
  !s.slock p &&
    (s.p_stat p = .sstop || (s.p_stat p = .ssleep && s.sintr p) ||
      ((s.p_stat p = .srun || s.p_stat p = .ssleep) && decide (out_time ≥ 2) &&
        decide (s.p_time p + s.p_nice p ≥ 1)))

/-- `sched` from its searches to the calls at the head of the loop, or to its
sleep. -/
def sched (s : State) : Option State :=
  match s.outLongest s.allproc none (-20000) with
  | (none, _) => some (s.tsleep 0 false)
  | (some swapped_out, out_time) =>
    match s.inCore with
    | none => some (s.goto 0 (.swapin swapped_out .data))
    | some in_core =>
      if s.mayLeave in_core out_time then
        let t := { s with sload := update s.sload in_core false }
        (if s.p_stat in_core = .srun then t.remrq in_core else some t).map
          fun t => t.goto 0 (.swapout in_core swapped_out .start)
      else some (s.tsleep 0 false)

/-! ## Processes come and go -/

/-- `newproc` up to its call of `swapout`; `fork1` has found a free entry. -/
def newproc (s : State) (parent : ℕ) : Option State :=
  match s.freeproc with
  | [] => none
  | child :: rest =>
    some { s with
      freeproc := rest
      allproc := child :: s.allproc
      p_stat := update (update s.p_stat parent .sidl) child .srun
      sload := update s.sload child true
      ssys := update s.ssys child false
      slock := update s.slock child false
      sintr := update s.sintr child false
      svfprnt := update s.svfprnt child false
      p_time := update s.p_time child 0
      p_nice := update s.p_nice child (s.p_nice parent)
      seg := update s.seg child (s.seg parent)
      cur := some child
      thread := update s.thread child (.newproc parent .start)
      image := update s.image child (s.bytes parent) }

/-- The end of `exit`. The sizes and addresses are overwritten with the status
and the times of the process. -/
def exit (s : State) (p : ℕ) (seg : Seg) : State :=
  { s with
    allproc := s.allproc.erase p
    zombproc := p :: s.zombproc
    p_stat := update s.p_stat p .szomb
    seg := update s.seg p seg
    cur := none }

/-- `wait1` for a child that has ended. -/
def reap (s : State) (p : ℕ) : State :=
  { s with
    zombproc := s.zombproc.erase p
    freeproc := p :: s.freeproc
    p_stat := update s.p_stat p .free
    sload := update s.sload p false
    ssys := update s.ssys p false
    slock := update s.slock p false
    sintr := update s.sintr p false
    svfprnt := update s.svfprnt p false }

end State

/-! ## Steps -/

/-- `swtch` chooses `p`; the current process gives way, sleeps, stops, works in
the region, forks, goes on with a transfer, searches or ends; a child is waited
for. A process is woken, stopped by a signal, or continued into its sleep; time
passes for it, and its priority is changed. -/
inductive Label where
  | swtch (p : ℕ)
  | preempt
  | sleep (sintr : Bool)
  | stop
  | compute (core : ℕ → UInt8) (p_dsize p_ssize : ℕ)
  | newproc
  | transfer (a : Fin 3 → ℕ)
  | sched
  | exit (seg : Seg)
  | wait (p : ℕ)
  | setrun (p : ℕ)
  | suspend (p : ℕ)
  | proceed (p : ℕ)
  | tick (p : ℕ)
  | nice (p : ℕ) (n : ℤ)

namespace State

open Function (update)

/-- What the current process does if it is in code of its own. -/
def asUser (s : State) (act : ℕ → Option State) : Option State :=
  match s.cur with
  | none => none
  | some p =>
    match s.thread p with
    | .user => act p
    | _ => none

/-- The current process sleeps. Inside of a transfer it does so at `PSWP`, and
lets no signals through. -/
def sleep (s : State) (sintr : Bool) : Option State :=
  match s.cur with
  | none => none
  | some p =>
    match s.thread p with
    | .user => some (s.tsleep p sintr)
    | .search => none
    | .newproc _ pc | .swapout _ _ pc => if pc.waits then some (s.tsleep p false) else none
    | .swapin _ pc => if pc.waits then some (s.tsleep p false) else none

/-- The current process goes on in `swapout` or `swapin`. -/
def moveOn (u0 : ℕ) (s : State) (a : Fin 3 → ℕ) : Option State :=
  match s.cur with
  | none => none
  | some p =>
    match s.thread p with
    | .user | .search => none
    | .newproc parent pc =>
      (s.swapout p a pc).map fun r =>
        match r.2 with
        | some pc => r.1.goto p (.newproc parent pc)
        | none =>
          { r.1.goto p .user with p_stat := update r.1.p_stat parent .srun, cur := some parent }
    | .swapout in_core swapped_out pc =>
      ((s.called in_core pc).swapout in_core a pc).map fun r =>
        match r.2 with
        | some pc => r.1.goto p (.swapout in_core swapped_out pc)
        | none => r.1.goto p (.swapin swapped_out .data)
    | .swapin swapped_out pc =>
      (s.swapin u0 swapped_out pc).map fun r =>
        match r.2 with
        | some pc => r.1.goto p (.swapin swapped_out pc)
        | none => r.1.goto p .search

/-- The steps of the kernel. `compute` stands for all that a process does to the
region and to its sizes, in which the data begins at `USER_DATA_START` and the
stack ends at `USER_DATA_END`. -/
def exec (u0 : ℕ) (s : State) : Label → Option State
  | .swtch p =>
    if s.cur = none ∧ p ∈ s.qs ∧ s.sload p = true then
      some { s with qs := s.qs.erase p, cur := some p }
    else none
  | .preempt => s.asUser fun p => some { s with qs := p :: s.qs, cur := none }
  | .sleep sintr => s.sleep sintr
  | .stop => s.asUser fun p => some { s with p_stat := update s.p_stat p .sstop, cur := none }
  | .compute core p_dsize p_ssize => s.asUser fun p =>
    if p_ssize ≤ USER_DATA_END then
      some { s with
        core := core
        seg := update s.seg p
          ⟨p_dsize, p_ssize, USER_DATA_START, USER_DATA_END - p_ssize, (s.seg p).p_addr⟩ }
    else none
  | .newproc => s.asUser s.newproc
  | .transfer a => s.moveOn u0 a
  | .sched =>
    match s.cur with
    | none => none
    | some p =>
      match s.thread p with
      | .search => s.sched
      | _ => none
  | .exit seg => s.asUser fun p => some (s.exit p seg)
  | .wait p => s.asUser fun _ => if p ∈ s.zombproc then some (s.reap p) else none
  | .setrun p =>
    if p ∈ s.allproc ∧ (s.p_stat p = .ssleep ∨ s.p_stat p = .sstop) then some (s.setrun p) else none
  | .suspend p =>
    if p ∈ s.allproc ∧ s.p_stat p = .ssleep ∧ s.sintr p = true then
      some { s with p_stat := update s.p_stat p .sstop }
    else none
  | .proceed p =>
    if p ∈ s.allproc ∧ s.p_stat p = .sstop then
      some { s with p_stat := update s.p_stat p .ssleep }
    else none
  | .tick p =>
    some { s with p_time := update s.p_time p (if s.p_time p ≠ 127 then s.p_time p + 1 else 127) }
  | .nice p n => some { s with p_nice := update s.p_nice p n }

end State

def Step (u0 : ℕ) (s : State) (a : Label) (t : State) : Prop := s.exec u0 a = some t

/-- What `main` leaves to `sched`: itself as process 0, and process 1, which was
swapped out before it had data or a stack. -/
structure Started (s : State) : Prop where
  allproc : s.allproc = [1, 0]
  zombproc : s.zombproc = []
  freeproc : (1 :: 0 :: s.freeproc).Nodup
  qs : s.qs = []
  cur : s.cur = some 0
  stat : s.p_stat 0 = .srun ∧ s.p_stat 1 = .srun
  swapper : s.sload 0 = true ∧ s.ssys 0 = true ∧ s.thread 0 = .search
  init : s.sload 1 = false ∧ s.ssys 1 = false ∧ (s.seg 1).p_dsize = 0 ∧ (s.seg 1).p_ssize = 0
  users : ∀ p, p ≠ 0 → s.thread p = .user
  map : WellFormed s.swapmap
  area : Disjoint (SwapSpace.range (s.seg 1).p_addr (btod USIZE)) (free s.swapmap)
  image : s.image 1 = ⟨[], []⟩

/-- On `allproc`, without `SSYS`, with `SLOAD`. -/
def Resident (s : State) (p : ℕ) : Prop :=
  p ∈ s.allproc ∧ s.ssys p = false ∧ s.sload p = true

end Swapper
