import RetroBSD.Runs
import RetroBSD.LinkedLists

/-!
# The process table

`newproc` with the search for a process id, `exit`, one pass of `wait1` and
`setpgrp`, over the pointers of the `proc` table: the lists `allproc`,
`zombproc` and `freeproc` through `p_nxt` and `p_prev`, and the `pidhash`
chains through `p_hash`. Every pass over a list is made without a sleep.

`p_pgrp` lies in the part of the entry that an exit overwrites with the exit
status and the resource usage; it shares its storage with `ru_msgsnd`, which
nothing counts, so it reads as 0 in a zombie. What other parts of the kernel do
to a process (signals, `setuid`) is a step that may set the fields it can
change to anything. Sizes and addresses are left out, and so is the copying of
the image. Panics are steps that cannot be taken.
-/

namespace Processes

open LinkedLists Runs
open Function (update)

abbrev NPROC : ℕ := 10
abbrev PIDHSZ : ℕ := 16
abbrev Slot := Fin NPROC

inductive Queue where
  | allproc
  | zombproc
  | freeproc
  deriving DecidableEq

inductive Stat where
  | free
  | ssleep
  | swait
  | srun
  | sidl
  | szomb
  | sstop
  deriving DecidableEq

def Stat.alive : Stat → Bool
  | .free | .szomb => false
  | _ => true

structure Proc where
  p_stat : Stat
  p_pptr : Option Slot
  p_uid : ℕ
  u_uid : ℕ
  p_pid : ℤ
  p_ppid : ℤ
  p_pgrp : ℤ
  p_xstat : ℤ
  traced : Bool
  waited : Bool
  deriving DecidableEq

def Proc.empty : Proc := ⟨.free, none, 0, 0, 0, 0, 0, 0, false, false⟩

structure Table where
  proc : Slot → Proc
  p_nxt : Cell Queue Slot → Option Slot
  p_prev : Slot → Cell Queue Slot
  p_hash : Cell (Fin PIDHSZ) Slot → Option Slot
  mpid : ℤ
  pidchecked : ℤ

def PIDHASH (pid : ℤ) : Fin PIDHSZ :=
  ⟨(pid % PIDHSZ).toNat, by have := Int.emod_nonneg pid (b := PIDHSZ) (by decide)
                            have := Int.emod_lt_of_pos pid (b := PIDHSZ) (by decide)
                            omega⟩

def Table.entries (s : Table) (q : Queue) : List Slot := elements s.p_nxt NPROC (.head q)

/-- The loop over the entries in `newproc`: the candidate, the bound up to which ids are known to
be unused, and whether to start again. -/
def scan : List Proc → ℤ → ℤ → ℤ × ℤ × Bool
  | [], mpid, pidchecked => (mpid, pidchecked, false)
  | child :: rest, mpid, pidchecked =>
    let hit := child.p_pid = mpid ∨ child.p_pgrp = mpid
    let mpid := if hit then mpid + 1 else mpid
    if hit ∧ mpid ≥ pidchecked then (mpid, pidchecked, true)
    else
      let pidchecked :=
        if child.p_pid > mpid ∧ pidchecked > child.p_pid then child.p_pid else pidchecked
      let pidchecked :=
        if child.p_pgrp > mpid ∧ pidchecked > child.p_pgrp then child.p_pgrp else pidchecked
      scan rest mpid pidchecked

/-- `newproc` from `retry` on, for at most `n` rounds. -/
def choose (procs : List Proc) : ℕ → ℤ → ℤ → Option (ℤ × ℤ)
  | 0, _, _ => none
  | n + 1, mpid, pidchecked =>
    let wrapped : ℤ × ℤ := if mpid ≥ 30000 then (100, 0) else (mpid, pidchecked)
    if wrapped.1 ≥ wrapped.2 then
      let scanned := scan procs wrapped.1 30000
      if scanned.2.2 then choose procs n scanned.1 scanned.2.1
      else some (scanned.1, scanned.2.1)
    else some wrapped

/-- The id that `newproc` chooses, with the new value of `pidchecked`. -/
def Table.newpid (s : Table) : Option (ℤ × ℤ) :=
  choose ((s.entries .allproc ++ s.entries .zombproc).map s.proc) 60000 (s.mpid + 1) s.pidchecked

/-- `newproc (0)` called by `parent`. -/
def Table.newproc (s : Table) (parent : Slot) : Option Table :=
  match s.newpid, s.p_nxt (.head .freeproc) with
  | some (mpid, pidchecked), some child =>
    let p_nxt := update s.p_nxt (.head .freeproc) (s.p_nxt (.link child))
    some
      { mpid := mpid
        pidchecked := pidchecked
        proc := update s.proc child
          { s.proc child with
            p_stat := .srun
            p_pptr := some parent
            p_uid := (s.proc parent).p_uid
            u_uid := (s.proc parent).u_uid
            p_pid := mpid
            p_ppid := (s.proc parent).p_pid
            p_pgrp := (s.proc parent).p_pgrp
            traced := false
            waited := false }
        p_hash := push s.p_hash (PIDHASH mpid) child
        p_prev := update (setBack s.p_prev (p_nxt (.head .allproc)) (.link child)) child
          (.head .allproc)
        p_nxt := push p_nxt .allproc child }
  | _, _ => none

/-- Take `p` off the list it is on, through its back pointer. -/
def Table.unlink (s : Table) (p : Slot) : Table :=
  { s with
    p_nxt := update s.p_nxt (s.p_prev p) (s.p_nxt (.link p))
    p_prev := setBack s.p_prev (s.p_nxt (.link p)) (s.p_prev p) }

/-- An iteration of the loop in `exit` that gives the children of `p` to init. -/
def orphan (p : Slot) (proc : Slot → Proc) (q : Slot) : Slot → Proc :=
  if (proc q).p_pptr = some p then
    update proc q { proc q with p_pptr := some 1, p_ppid := 1, traced := false }
  else proc

/-- The part of `exit` that moves `p` to `zombproc` and off its hash chain, where the cell `pp`
points at it, and overwrites its entry. -/
def Table.bury (s : Table) (p : Slot) (rv : ℤ) (pp : Cell (Fin PIDHSZ) Slot) : Table :=
  let off := s.unlink p
  { off with
    p_prev := update (setBack off.p_prev (off.p_nxt (.head .zombproc)) (.link p)) p
      (.head .zombproc)
    p_nxt := push off.p_nxt .zombproc p
    p_hash := update s.p_hash pp (s.p_hash (.link p))
    proc := update s.proc p
      { s.proc p with p_stat := .szomb, p_xstat := rv, p_pgrp := 0, traced := false } }

/-- `exit (rv)` called by `p`. -/
def Table.exit (s : Table) (p : Slot) (rv : ℤ) : Option Table :=
  if (s.proc p).p_pid = 1 then none
  else
    match seek s.p_hash (· = p) (NPROC + 1) (.head (PIDHASH (s.proc p).p_pid)) with
    | none => none
    | some (pp, _) =>
      let dead := s.bury p rv pp
      some { dead with
        proc := (dead.entries .allproc ++ dead.entries .zombproc).foldl (orphan p) dead.proc }

structure WaitArgs where
  pid : ℤ
  nohang : Bool
  untraced : Bool
  /-- A `copyout` that the call makes fails. -/
  fault : Bool

inductive Waited where
  | reaped (p : Slot) (pid xstat : ℤ)
  | stopped (pid : ℤ)
  | efault
  | echild
  | nohang
  | sleeps
  deriving DecidableEq

/-- Whether `wait1` called by `q` looks at an entry. -/
def wanted (q : Slot) (pid : ℤ) (p : Proc) : Bool :=
  p.p_pptr = some q && (pid = -1 || p.p_pid = pid || p.p_pgrp = -pid)

/-- The end of `wait1` for a zombie. -/
def Table.reap (s : Table) (p : Slot) : Table :=
  let off := s.unlink p
  { off with
    p_nxt := push off.p_nxt .freeproc p
    proc := update s.proc p
      { s.proc p with
        p_stat := .free
        p_pptr := none
        p_pid := 0
        p_ppid := 0
        p_pgrp := 0
        p_xstat := 0
        traced := false
        waited := false } }

/-- One pass of `wait1`. -/
def Table.wait1 (s : Table) (q : Slot) (args : WaitArgs) : Table × Waited :=
  let pid := if args.pid = 0 then -(s.proc q).p_pgrp else args.pid
  match (s.entries .zombproc).find? fun p => wanted q pid (s.proc p) with
  | some p =>
    if args.fault then (s, .efault)
    else (s.reap p, .reaped p (s.proc p).p_pid (s.proc p).p_xstat)
  | none =>
    let found := (s.entries .allproc).filter fun p => wanted q pid (s.proc p)
    match found.find? fun p => (s.proc p).p_stat = .sstop && !(s.proc p).waited &&
      ((s.proc p).traced || args.untraced) with
    | some p =>
      ({ s with proc := update s.proc p { s.proc p with waited := true } },
        if args.fault then .efault else .stopped (s.proc p).p_pid)
    | none => (s, if found.isEmpty then .echild else if args.nohang then .nohang else .sleeps)

/-- `inferior`, for at most `n` generations. -/
def Table.inferior (s : Table) (caller : Slot) : ℕ → Slot → Bool
  | 0, _ => false
  | n + 1, p =>
    if p = caller then true
    else if (s.proc p).p_ppid = 0 then false
    else
      match (s.proc p).p_pptr with
      | none => false
      | some q => s.inferior caller n q

def Table.pfind (s : Table) (pid : ℤ) : Option Slot :=
  (seek s.p_hash (fun p => (s.proc p).p_pid = pid) (NPROC + 1) (.head (PIDHASH pid))).map Prod.snd

/-- `setpgrp (pid, pgrp)` called by `caller`; `p_pgrp` is a short. -/
def Table.setpgrp (s : Table) (caller : Slot) (pid pgrp : ℤ) : Table :=
  match s.pfind (if pid = 0 then (s.proc caller).p_pid else pid) with
  | none => s
  | some p =>
    if (s.proc p).p_uid ≠ (s.proc caller).u_uid ∧ (s.proc caller).u_uid ≠ 0 ∧
        s.inferior caller NPROC p = false then s
    else { s with proc := update s.proc p { s.proc p with p_pgrp := pgrp.bmod 65536 } }

/-- The table with a history: which process a slot holds, how many there have been, and which have
been waited for, with the number of the process that did so. -/
structure System extends Table where
  number : Slot → ℕ
  born : ℕ
  waits : List (ℕ × ℕ)

/-- The history when `wait1` called by `q` has returned. -/
def System.waited (s : System) (q : Slot) : Waited → List (ℕ × ℕ)
  | .reaped p _ _ => (s.number p, s.number q) :: s.waits
  | _ => s.waits

inductive Label where
  | newproc (parent : Slot)
  | exit (p : Slot) (rv : ℤ)
  | wait1 (q : Slot) (args : WaitArgs)
  | setpgrp (caller : Slot) (pid pgrp : ℤ)
  | other (p : Slot) (stat : Stat) (p_uid u_uid : ℕ) (traced waited : Bool)

def Label.caller : Label → Slot
  | .newproc p | .exit p _ | .wait1 p _ | .setpgrp p _ _ | .other p _ _ _ _ _ => p

/-- One step of a process that is alive. -/
def System.exec (s : System) (label : Label) : Option System :=
  if (s.proc label.caller).p_stat.alive then
    match label with
    | .newproc parent =>
      match s.p_nxt (.head .freeproc), s.newproc parent with
      | some child, some table =>
        some { s with
          toTable := table
          number := update s.number child s.born
          born := s.born + 1 }
      | _, _ => none
    | .exit p rv => (s.exit p rv).map fun table => { s with toTable := table }
    | .wait1 q args =>
      some { s with
        toTable := (s.wait1 q args).1
        waits := s.waited q (s.wait1 q args).2 }
    | .setpgrp caller pid pgrp => some { s with toTable := s.setpgrp caller pid pgrp }
    | .other p stat p_uid u_uid traced waited =>
      if stat.alive then
        some { s with
          proc := update s.proc p
            { s.proc p with
              p_stat := stat
              p_uid := p_uid
              u_uid := u_uid
              traced := traced
              waited := waited } }
      else none
  else none

def Step (s : System) (label : Label) (t : System) : Prop := s.exec label = some t

/-- The links after `pqinit`: proc 0 on `allproc`, the others on `freeproc` in their order. -/
def pqinitLinks : Cell Queue Slot → Option Slot
  | .head .allproc => some 0
  | .head .zombproc => none
  | .head .freeproc => some 1
  | .link p => if more : 0 < p.val ∧ p.val + 1 < NPROC then some ⟨p.val + 1, more.2⟩ else none

/-- The table when `main` has set up the swapper. -/
def swapper : System where
  proc := update (fun _ => Proc.empty) 0 { Proc.empty with p_stat := .srun }
  p_nxt := pqinitLinks
  p_prev _ := .head .allproc
  p_hash _ := none
  mpid := 0
  pidchecked := 0
  number _ := 0
  born := 1
  waits := []

/-- The table when `main` has made init. -/
def boot : System := (swapper.exec (.newproc 0)).getD swapper

end Processes
