import RetroBSD.Processes

/-!
# Sleep queues and the run queue

`tsleep`, `endtsleep`, `unsleep`, `wakeup`, `setrun`, `psignal`, `stop`,
`swtch`, `setrq` and `remrq` over the one link field `p_link`, and the routines
that use them: `issignal` as far as it stops a process, `selwakeup`, `ptrace`,
`newproc` and `exit`, and the swapper. Each routine runs with interrupts
blocked from one switch of processes to the next.

Which signals are pending is not recorded: what `issignal` finds is part of the
step that calls it. Priorities, signal dispositions, flags that have nothing to
do with the queues and the parent of a process may change at any time. The
addresses of the kernel's variables, which decide the hash chains, are
arbitrary. `panicked` records a panic, a search that runs off its list, or a
loop that does not end.
-/

namespace Scheduler

open LinkedLists Runs
open Processes (Stat Slot NPROC)
open Function (update)

scoped instance neZero : NeZero NPROC := ⟨by decide⟩

abbrev SQSIZE : ℕ := 16

inductive Queue where
  | slpque (h : Fin SQSIZE)
  | qs
  deriving DecidableEq

def HASH (x : ℕ) : Fin SQSIZE := ⟨x / 32 % SQSIZE, Nat.mod_lt _ (by decide)⟩

/-- Where the variables lie whose addresses are used as channels. -/
structure Layout where
  runout : ℕ
  runin : ℕ
  selwait : ℕ
  proc : Slot → ℕ
  runout_ne : runout ≠ 0

/-- What a process does with a signal, by `p_sigignore`, `p_sigmask` and `p_sigcatch`. -/
inductive Disposition where
  | ignored
  | held
  | caught
  | default
  deriving DecidableEq

abbrev SIGKILL : ℕ := 9
abbrev SIGSTOP : ℕ := 17
abbrev SIGTSTP : ℕ := 18
abbrev SIGCONT : ℕ := 19
abbrev SIGCHLD : ℕ := 20
abbrev SIGTTIN : ℕ := 21
abbrev SIGTTOU : ℕ := 22

/-- The signals with `SA_TTYSTOP` and those with `SA_STOP`. -/
def ttyStops (sig : ℕ) : Bool := sig = SIGTSTP || sig = SIGTTIN || sig = SIGTTOU

def stops (sig : ℕ) : Bool := sig = SIGSTOP || ttyStops sig

structure Info where
  p_pptr : Slot
  p_pri : ℕ
  traced : Bool
  svfork : Bool
  nocldstop : Bool
  disposition : ℕ → Disposition

inductive Panic where
  | wakeup
  | setrun
  | remrq
  | unsleep
  | endless
  deriving DecidableEq

structure Sched where
  p_stat : Slot → Stat
  p_wchan : Slot → ℕ
  p_link : Cell Queue Slot → Option Slot
  sload : Slot → Bool
  sintr : Slot → Bool
  info : Slot → Info
  runout : ℕ
  panicked : Option Panic

namespace Sched

def panic (s : Sched) (why : Panic) : Sched := { s with panicked := some why }

def setStat (s : Sched) (p : Slot) (stat : Stat) : Sched :=
  { s with p_stat := update s.p_stat p stat }

def setLoad (s : Sched) (p : Slot) (load : Bool) : Sched :=
  { s with sload := update s.sload p load }

def setIntr (s : Sched) (p : Slot) (intr : Bool) : Sched :=
  { s with sintr := update s.sintr p intr }

/-- Take the process that the cell `c` points at off its queue. -/
def unlink (s : Sched) (c : Cell Queue Slot) (p : Slot) : Sched :=
  { s with p_link := update s.p_link c (s.p_link (.link p)) }

/-- The same for a sleep queue, with the channel cleared. -/
def leave (s : Sched) (c : Cell Queue Slot) (p : Slot) : Sched :=
  { s.unlink c p with p_wchan := update s.p_wchan p 0 }

def setrq (s : Sched) (p : Slot) : Sched := { s with p_link := push s.p_link .qs p }

def remrq (s : Sched) (p : Slot) : Sched :=
  match seek s.p_link (· == p) (NPROC + 1) (.head .qs) with
  | none => s.panic .remrq
  | some (c, _) => s.unlink c p

def unsleep (s : Sched) (p : Slot) : Sched :=
  if s.p_wchan p = 0 then s
  else
    match seek s.p_link (· == p) (NPROC + 1) (.head (.slpque (HASH (s.p_wchan p)))) with
    | none => s.panic .unsleep
    | some (c, _) => s.leave c p

/-- `p->p_stat = SRUN; if (p->p_flag & SLOAD) setrq (p)`. -/
def ready (s : Sched) (p : Slot) : Sched :=
  if s.sload p then (s.setStat p .srun).setrq p else s.setStat p .srun

/-- The loop of `wakeup` from the cell `c` on, for at most `n` rounds. A process that is made
runnable and is not loaded wakes the swapper, and the loop starts again. -/
def walk (A : Layout) : ℕ → Sched → Cell Queue Slot → ℕ → Sched
  | 0, s, _, _ => s.panic .endless
  | n + 1, s, c, chan =>
    match s.p_link c with
    | none => s
    | some p =>
      if s.p_stat p ≠ .ssleep ∧ s.p_stat p ≠ .sstop then s.panic .wakeup
      else if s.p_wchan p = chan then
        if s.p_stat p = .ssleep then
          let s' := (s.leave c p).ready p
          let s' := if s.sload p = false ∧ s.runout ≠ 0 then
            walk A n { s' with runout := 0 } (.head (.slpque (HASH A.runout))) A.runout else s'
          walk A n s' (.head (.slpque (HASH chan))) chan
        else walk A n (s.leave c p) c chan
      else walk A n s (.link p) chan

abbrev rounds : ℕ := (NPROC + 1) * (NPROC + 1)

def wakeup (A : Layout) (s : Sched) (chan : ℕ) : Sched :=
  walk A rounds s (.head (.slpque (HASH chan))) chan

/-- Tell the swapper that a process which is not loaded can run. -/
def wakeSwapper (A : Layout) (s : Sched) : Sched :=
  if s.runout ≠ 0 then { s with runout := 0 }.wakeup A A.runout else s

def setrun (A : Layout) (s : Sched) (p : Slot) : Sched :=
  match s.p_stat p with
  | .ssleep | .sstop =>
    let s' := (s.unsleep p).ready p
    if s.sload p then s' else s'.wakeSwapper A
  | .sidl =>
    let s' := s.ready p
    if s.sload p then s' else s'.wakeSwapper A
  | _ => s.panic .setrun

def stop (A : Layout) (s : Sched) (p : Slot) : Sched :=
  (s.setStat p .sstop).wakeup A (A.proc (s.info p).p_pptr)

/-- What `psignal` finds that `p` does with a signal. -/
def action (s : Sched) (p : Slot) (sig : ℕ) : Disposition :=
  if (s.info p).traced then .default else (s.info p).disposition sig

/-- The case `SSLEEP` of `psignal`, with `notify` in the place of its call for the parent. -/
def postSleeping (A : Layout) (notify : Sched → Sched) (s : Sched) (p : Slot) (sig : ℕ) : Sched :=
  if s.sintr p = false then s
  else if (s.info p).traced then s.setrun A p
  else if sig = SIGCONT ∧ s.action p sig = .default then s
  else if stops sig then
    if s.action p sig ≠ .default then s.setrun A p
    else if (s.info p).svfork then s
    else
      let s' := if (s.info (s.info p).p_pptr).nocldstop then s else notify s
      s'.stop A p
  else s.setrun A p

/-- The case `SSTOP` of `psignal`. -/
def postStopped (A : Layout) (s : Sched) (p : Slot) (sig : ℕ) : Sched :=
  if (s.info p).traced then s
  else if sig = SIGKILL then s.setrun A p
  else if sig = SIGCONT then
    if s.action p sig = .caught ∨ s.p_wchan p = 0 then s.setrun A p else s.setStat p .ssleep
  else if stops sig then s
  else if s.p_wchan p ≠ 0 ∧ s.sintr p then s.unsleep p
  else s

/-- `psignal`, with `notify` in the place of its call for the parent. -/
def post (A : Layout) (notify : Sched → Sched) (s : Sched) (p : Slot) (sig : ℕ) : Sched :=
  if s.action p sig = .ignored then s
  else if ttyStops sig ∧ (s.info p).p_pptr = 1 ∧ s.action p sig = .default then s
  else if s.action p sig = .held ∧ (sig ≠ SIGCONT ∨ s.p_stat p ≠ .sstop) then s
  else
    match s.p_stat p with
    | .ssleep => s.postSleeping A notify p sig
    | .sstop => s.postStopped A p sig
    | _ => s

/-- `psignal (p, SIGCHLD)`, which stops nobody. -/
def psignalChild (A : Layout) (s : Sched) (p : Slot) : Sched := s.post A id p SIGCHLD

def psignal (A : Layout) (s : Sched) (p : Slot) (sig : ℕ) : Sched :=
  s.post A (fun s => s.psignalChild A (s.info p).p_pptr) p sig

/-- The cell of the first process with the best priority from `c` on. -/
def best (s : Sched) : ℕ → Cell Queue Slot → ℕ → Option (Cell Queue Slot × Slot) →
    Option (Cell Queue Slot × Slot)
  | 0, _, _, found => found
  | n + 1, c, pri, found =>
    match s.p_link c with
    | none => found
    | some p =>
      if s.sload p ∧ (s.info p).p_pri < pri then best s n (.link p) (s.info p).p_pri (some (c, p))
      else best s n (.link p) pri found

/-- The process that `swtch` chooses, and the queues without it. -/
def swtch (s : Sched) : Option (Slot × Sched) :=
  (s.best NPROC (.head .qs) 128 none).map fun found => (found.2, s.unlink found.1 found.2)

/-- The start of `tsleep`: the process is on its sleep queue while it still runs. -/
def enqueue (s : Sched) (p : Slot) (ident : ℕ) (catches : Bool) : Sched :=
  { s with
    p_wchan := update s.p_wchan p ident
    p_link := push s.p_link (.slpque (HASH ident)) p
    sintr := update s.sintr p catches }

/-- Whether a process that stops sends `SIGCHLD`. -/
def notifies (s : Sched) (p : Slot) : Bool :=
  ((s.info p).traced && !(s.info p).svfork) || !(s.info (s.info p).p_pptr).nocldstop

/-- `issignal` when it stops the process. -/
def halt (A : Layout) (s : Sched) (p : Slot) : Sched :=
  let s' := if s.notifies p then s.psignalChild A (s.info p).p_pptr else s
  s'.stop A p

/-- The end of `tsleep`, up to `swtch`. -/
def doze (A : Layout) (s : Sched) (p : Slot) : Sched :=
  let s' := s.setStat p .ssleep
  if p = 0 then s' else s'.wakeup A A.runin

def endtsleep (A : Layout) (s : Sched) (p : Slot) : Sched :=
  if s.p_wchan p = 0 then s else if s.p_stat p = .ssleep then s.setrun A p else s.unsleep p

def selwakeup (A : Layout) (s : Sched) (p : Slot) : Sched :=
  if s.p_wchan p = A.selwait then s.endtsleep A p else s

end Sched

/-- The queues, and the process that runs; none between a switch and the next choice. -/
structure System extends Sched where
  cur : Option Slot

/-- What `CURSIG` gives inside of `tsleep`: no signal, a signal, or a stop on the way. -/
inductive Cursig where
  | quiet
  | signal
  | stops
  deriving DecidableEq

inductive Label where
  | tsleep (ident : ℕ) (catches : Bool) (cursig : Cursig)
  | stopSelf (again : Bool)
  | preempt
  | swtch
  | wakeup (chan : ℕ)
  | psignal (p : Slot) (sig : ℕ)
  | endtsleep (p : Slot)
  | selwakeup (p : Slot)
  | ptrace (p : Slot)
  | newproc (child : Slot) (info : Info)
  | forked
  | exit (wchan : ℕ) (link : Option Slot)
  | gone
  | reap (p : Slot)
  | swapout (p : Slot)
  | swapped
  | swapin (p : Slot)
  | waitRunout
  | adjust (p : Slot) (info : Info)

def alive (stat : Stat) : Bool := stat ≠ .free && stat ≠ .szomb

namespace System

def keep (s : System) (t : Sched) : System := ⟨t, s.cur⟩

def switch (t : Sched) : System := ⟨t, none⟩

/-- `tsleep` of the running process `p`, up to its return or the switch. -/
def tsleep (A : Layout) (s : System) (p : Slot) (ident : ℕ) (catches : Bool) (cursig : Cursig) :
    System :=
  let t := s.enqueue p ident catches
  match catches, cursig with
  | true, .signal => s.keep (((t.unsleep p).setStat p .srun).setIntr p false)
  | true, .stops => switch (t.halt A p)
  | _, _ => switch (t.doze A p)

/-- The child while `newproc` writes its image: it takes the place of the parent, which waits in
the state `SIDL`. -/
def newproc (s : System) (parent child : Slot) (info : Info) : System :=
  ⟨{ s.toSched with
      p_stat := update (update s.p_stat parent .sidl) child .srun
      p_wchan := update s.p_wchan child 0
      sload := update s.sload child true
      sintr := update s.sintr child false
      info := update s.info child { info with p_pptr := parent } }, some child⟩

/-- The end of `swapout` in `newproc`, and the parent again. -/
def forked (A : Layout) (s : System) (parent child : Slot) : System :=
  ⟨((s.setLoad child false).wakeSwapper A).setStat parent .srun, some parent⟩

/-- `exit` up to the point where the rest of the entry is overwritten. -/
def exit (s : System) (p : Slot) (wchan : ℕ) (link : Option Slot) : System :=
  s.keep
    { s.setStat p .szomb with
      p_wchan := update s.p_wchan p wchan
      p_link := update s.p_link (.link p) link }

def reap (s : System) (p : Slot) : System :=
  s.keep
    { (s.setStat p .free).setLoad p false with
      p_wchan := update s.p_wchan p 0
      sintr := update s.sintr p false }

/-- The swapper takes the flag first. -/
def swapout (s : System) (p : Slot) : System :=
  let t := s.setLoad p false
  s.keep (if s.p_stat p = .srun then t.remrq p else t)

/-- The steps of the kernel. The running process sleeps, stops, gives way, forks or exits; the
swapper, process 0, moves others in and out; wakeups, signals and timeouts come at any time. Nobody
waits for `runout` with signals let through, and a process that gets a signal is not its own
parent. -/
def exec (A : Layout) (s : System) (a : Label) : Option System :=
  if s.panicked.isSome then none
  else
    match a, s.cur with
    | .tsleep ident catches cursig, some p =>
      if ident ≠ 0 ∧ s.p_stat p = .srun ∧ (catches = true → ident ≠ A.runout) then
        some (s.tsleep A p ident catches cursig)
      else none
    | .stopSelf again, some p =>
      if s.p_stat p = .srun then some (switch (if again then s.stop A p else s.halt A p)) else none
    | .preempt, some p => if s.p_stat p = .srun then some (switch (s.setrq p)) else none
    | .swtch, none => s.toSched.swtch.map fun found => ⟨found.2.setIntr found.1 false, some found.1⟩
    | .wakeup chan, _ => some (s.keep (s.toSched.wakeup A chan))
    | .psignal p sig, _ =>
      if (s.info p).p_pptr ≠ p then some (s.keep (s.toSched.psignal A p sig)) else none
    | .endtsleep p, _ =>
      if alive (s.p_stat p) then some (s.keep (s.toSched.endtsleep A p)) else none
    | .selwakeup p, _ =>
      if alive (s.p_stat p) then some (s.keep (s.toSched.selwakeup A p)) else none
    | .ptrace p, _ =>
      if s.p_stat p = .sstop then some (s.keep (s.toSched.setrun A p)) else none
    | .newproc child info, some parent =>
      if s.p_stat parent = .srun ∧ s.p_stat child = .free then some (s.newproc parent child info)
      else none
    | .forked, some child =>
      let parent := (s.info child).p_pptr
      if s.p_stat child = .srun ∧ s.p_stat parent = .sidl then some (s.forked A parent child)
      else none
    | .exit wchan link, some p =>
      if s.p_stat p = .srun ∧ p ≠ 0 then some (s.exit p wchan link) else none
    | .gone, some p => if s.p_stat p = .szomb then some (switch s.toSched) else none
    | .reap p, cur => if s.p_stat p = .szomb ∧ cur ≠ some p then some (s.reap p) else none
    | .swapout p, some q =>
      if q = 0 ∧ p ≠ 0 ∧ s.sload p ∧ (s.p_stat p = .sstop ∨ s.p_stat p = .ssleep ∨
        s.p_stat p = .srun) then some (s.swapout p) else none
    | .swapped, some q => if q = 0 then some (s.keep (s.wakeSwapper A)) else none
    | .swapin p, some q =>
      if q = 0 ∧ s.p_stat p = .srun ∧ s.sload p = false then
        some (s.keep ((s.setrq p).setLoad p true))
      else none
    | .waitRunout, some q =>
      if q = 0 ∧ s.p_stat q = .srun then
        some ({ s with runout := s.runout + 1 }.tsleep A q A.runout false .quiet)
      else none
    | .adjust p info, _ => some (s.keep { s.toSched with info := update s.info p info })
    | _, _ => none

end System

def Step (A : Layout) (s : System) (a : Label) (t : System) : Prop := s.exec A a = some t

def boot (info : Slot → Info) : System where
  p_stat := update (fun _ => .free) 0 .srun
  p_wchan := fun _ => 0
  p_link := fun _ => none
  sload := update (fun _ => false) 0 true
  sintr := fun _ => false
  info := info
  runout := 0
  panicked := none
  cur := some 0

/-- `psignal (p, SIGCHLD)` makes `p` runnable. -/
def Sched.TakesChild (s : Sched) (p : Slot) : Prop :=
  s.p_stat p = .ssleep ∧ s.sintr p = true ∧ s.action p SIGCHLD ≠ .ignored ∧
    s.action p SIGCHLD ≠ .held

instance (s : Sched) (p : Slot) : Decidable (s.TakesChild p) :=
  inferInstanceAs (Decidable (_ ∧ _))

/-- A process that stops inside of `tsleep` is not on the chain of `runout` when its parent is made
runnable and the swapper has to be told. -/
def Calm (A : Layout) (s : System) : Label → Prop
  | .tsleep ident true .stops => ∀ p, s.cur = some p → s.notifies p = true →
    s.TakesChild (s.info p).p_pptr → s.sload (s.info p).p_pptr = false → s.runout ≠ 0 →
      HASH ident ≠ HASH A.runout
  | _ => True

end Scheduler
