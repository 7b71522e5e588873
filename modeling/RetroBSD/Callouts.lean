import RetroBSD.Runs
import RetroBSD.LinkedLists
import RetroBSD.DeltaLists

/-!
# The callout queue

`timeout`, `untimeout`, the queue part of `hardclock` and the loop of
`softclock`, over the `c_next` pointers of the callout table. `c_time` is a
32-bit integer and wraps around as the machine's does. Interrupts stay disabled
while an interrupt is served, so no tick falls into a `softclock`; the functions
that `softclock` calls may themselves call `timeout` and `untimeout`, so every
iteration of its loop is a step of its own.

The record `System` adds a history that the code does not have: which
registration a slot holds, when it was made, and what each `softclock` ran.
-/

namespace Callouts

open LinkedLists DeltaLists Runs
open Function (update)

abbrev NCALL : ℕ := 18
abbrev Slot := Fin NCALL

inductive Queue where
  | calltodo
  | callfree
  deriving DecidableEq

variable {F A : Type} [DecidableEq F] [DecidableEq A]

/-- The table. The cell `head calltodo` is `calltodo.c_next`. -/
structure Clock (F A : Type) where
  c_next : Cell Queue Slot → Option Slot
  c_time : Slot → Int32
  c_arg : Slot → A
  c_func : Slot → F

namespace Clock

/-- The pointers that `coutinit` sets; the others are null from the start. -/
def coutinitLinks : Cell Queue Slot → Option Slot
  | .head .calltodo => none
  | .head .callfree => some 0
  | .link i => if more : i.val + 1 < NCALL then some ⟨i.val + 1, more⟩ else none

def coutinit (c_arg : Slot → A) (c_func : Slot → F) : Clock F A where
  c_next := coutinitLinks
  c_time _ := 0
  c_arg := c_arg
  c_func := c_func

/-- The search of `timeout`: the place for the new entry and what is left of `t` there. -/
def search (s : Clock F A) : ℕ → Cell Queue Slot → Int32 → Cell Queue Slot × Int32
  | 0, p1, t => (p1, t)
  | n + 1, p1, t =>
    match s.c_next p1 with
    | none => (p1, t)
    | some p2 =>
      if s.c_time p2 < t then
        search s n (.link p2) (if s.c_time p2 > 0 then t - s.c_time p2 else t)
      else (p1, t)

/-- `p->c_time += d` for a pointer that can be null. -/
def addTime (c_time : Slot → Int32) (p : Option Slot) (d : Int32) : Slot → Int32 :=
  match p with
  | none => c_time
  | some p => update c_time p (c_time p + d)

/-- The pointer writes that link `pnew` at the cell `p1`. -/
def enqueue (s : Clock F A) (pnew : Slot) (p1 : Cell Queue Slot) (t : Int32) : Clock F A :=
  { s with
    c_next := update (update s.c_next p1 (some pnew)) (.link pnew) (s.c_next p1)
    c_time := addTime (update s.c_time pnew t) (s.c_next p1) (-t) }

/-- `timeout`, with `none` for the panic. -/
def timeout (s : Clock F A) (func : F) (arg : A) (t : Int32) : Option (Clock F A) :=
  match s.c_next (.head .callfree) with
  | none => none
  | some pnew =>
    let s : Clock F A :=
      { s with
        c_next := update s.c_next (.head .callfree) (s.c_next (.link pnew))
        c_arg := update s.c_arg pnew arg
        c_func := update s.c_func pnew func }
    let place := s.search NCALL (.head .calltodo) (if t ≤ 0 then 1 else t)
    some (s.enqueue pnew place.1 place.2)

/-- The entry that `untimeout` removes, with the cell that points at it. -/
def registered (s : Clock F A) (func : F) (arg : A) : Option (Cell Queue Slot × Slot) :=
  seek s.c_next (fun p2 => s.c_func p2 = func && s.c_arg p2 = arg) (NCALL + 1) (.head .calltodo)

/-- Take `p` out of the list after the cell `c` and put it in front of `callfree`. -/
def release (c_next : Cell Queue Slot → Option Slot) (c : Cell Queue Slot) (p : Slot) :
    Cell Queue Slot → Option Slot :=
  let c_next := update c_next c (c_next (.link p))
  let c_next := update c_next (.link p) (c_next (.head .callfree))
  update c_next (.head .callfree) (some p)

def untimeout (s : Clock F A) (func : F) (arg : A) : Clock F A :=
  match s.registered func arg with
  | none => s
  | some (p1, p2) =>
    { s with
      c_time := if s.c_time p2 > 0 then addTime s.c_time (s.c_next (.link p2)) (s.c_time p2)
        else s.c_time
      c_next := release s.c_next p1 p2 }

/-- The queue loop of `hardclock`. -/
def countdown (c_next : Cell Queue Slot → Option Slot) :
    ℕ → Option Slot → (Slot → Int32) → Slot → Int32
  | 0, _, c_time => c_time
  | _ + 1, none, c_time => c_time
  | n + 1, some p1, c_time =>
    let c_time := update c_time p1 (c_time p1 - 1)
    if c_time p1 > 0 then c_time
    else if c_time p1 = 0 then c_time
    else countdown c_next n (c_next (.link p1)) c_time

/-- `hardclock`, as far as it concerns the queue. -/
def hardclock (s : Clock F A) : Clock F A :=
  { s with c_time := countdown s.c_next (NCALL + 1) (s.c_next (.head .calltodo)) s.c_time }

/-- The entry that the next iteration of `softclock` runs; without one the loop is left. -/
def due (s : Clock F A) : Option Slot :=
  match s.c_next (.head .calltodo) with
  | none => none
  | some p1 => if s.c_time p1 > 0 then none else some p1

/-- An iteration of `softclock` that runs `p1`. -/
def pop (s : Clock F A) (p1 : Slot) : Clock F A :=
  { s with c_next := release s.c_next (.head .calltodo) p1 }

end Clock

/-- A call of `timeout`, made after `born` ticks. -/
structure Job (F A : Type) where
  func : F
  arg : A
  t : Int32
  born : ℕ

def Job.due (job : Job F A) : ℕ := job.born + max job.t.toInt.toNat 1

/-- A function run by a `softclock` that started after `start` ticks; `earlier` are the ticks
after which the `softclock`s before it started. -/
structure Call (F A : Type) where
  func : F
  arg : A
  job : Job F A
  start : ℕ
  earlier : List ℕ

/-- An entry removed by `untimeout (func, arg)`. -/
structure Cancel (F A : Type) where
  func : F
  arg : A
  job : Job F A

/-- The table with its history. Only `Clock` and `soft`, which says whether `softclock` is in
its loop, belong to the code. -/
structure System (F A : Type) extends Clock F A where
  soft : Bool
  ticks : ℕ
  job : Slot → Job F A
  jobs : List (Job F A)
  ran : List (Call F A)
  cancelled : List (Cancel F A)
  starts : List ℕ

inductive Label (F A : Type) where
  | timeout (func : F) (arg : A) (t : Int32)
  | untimeout (func : F) (arg : A)
  | hardclock
  | softclock
  | iterate

/-- One step, or `none` if the code panics or the step cannot be taken now. -/
def exec (s : System F A) : Label F A → Option (System F A)
  | .timeout func arg t =>
    match s.c_next (.head .callfree), s.toClock.timeout func arg t with
    | some pnew, some clock =>
      some { s with
        toClock := clock
        job := update s.job pnew ⟨func, arg, t, s.ticks⟩
        jobs := ⟨func, arg, t, s.ticks⟩ :: s.jobs }
    | _, _ => none
  | .untimeout func arg =>
    some { s with
      toClock := s.toClock.untimeout func arg
      cancelled := (s.registered func arg).toList.map (fun found => ⟨func, arg, s.job found.2⟩) ++
        s.cancelled }
  | .hardclock =>
    if s.soft then none
    else some { s with toClock := s.toClock.hardclock, ticks := s.ticks + 1 }
  | .softclock =>
    if s.soft then none
    else some { s with soft := true, starts := s.ticks :: s.starts }
  | .iterate =>
    if s.soft then
      match s.toClock.due with
      | none => some { s with soft := false }
      | some p1 =>
        some { s with
          toClock := s.toClock.pop p1
          ran := ⟨s.c_func p1, s.c_arg p1, s.job p1, s.ticks, s.starts.tail⟩ :: s.ran }
    else none

def Step (s : System F A) (l : Label F A) (t : System F A) : Prop := exec s l = some t

/-- No pending callout is overdue by `2 ^ 31` ticks, so that a tick does not wrap `c_time`. -/
def Fresh (s : System F A) : Label F A → Prop
  | .hardclock => ∀ todo, Linked s.c_next (.head .calltodo) todo →
      ∀ p ∈ todo, s.c_time p ≠ Int32.minValue
  | _ => True

def boot (c_arg : Slot → A) (c_func : Slot → F) (job : Slot → Job F A) : System F A where
  toClock := Clock.coutinit c_arg c_func
  soft := false
  ticks := 0
  job := job
  jobs := []
  ran := []
  cancelled := []
  starts := []

end Callouts
