import RetroBSD.Runs
import RetroBSD.References
import RetroBSD.Rings
import RetroBSD.TailQueues

/-!
# The table of in-core inodes

`ihinit`, `iget`, `igrab`, `iput`, `irele` and `iflush` over the hash chains
and the free list of the inode table. A reference is kept in some place: a
variable of a process, a file, a mount table entry. A place that is about to be
filled or emptied may wait for a lock or for the disk, and meanwhile other
places change; a process that keeps several references has several places.

Left out are the contents of an inode and what `irele` does with them before
it gives the slot back, the time stamps, and who is woken: a place that waits
may try again at any time. There are no I/O errors. `i_lastr` is the same word
as `i_freef`.
-/

namespace InodeTable

open LinkedLists References Runs
open Function (update)

abbrev NINODE : ℕ := 24
abbrev INOHSZ : ℕ := 16
abbrev ROOTINO : ℕ := 2

/-- The number of values of an `u_int`. -/
abbrev WORD : ℕ := 2 ^ 32

abbrev Slot := Fin NINODE

def INOHASH (dev ino : ℕ) : Fin INOHSZ := ⟨(dev + ino) % INOHSZ, Nat.mod_lt _ (by decide)⟩

inductive Panic where
  | freeInodeIsnt
  | nullPointer
  deriving DecidableEq

/-- The table: `chains` are `ihead`, `i_forw` and `i_back`, `free` is `ifreeh`, `i_freef`, `i_freeb`
and `ifreet`; `mounted` is the device of the mount table entry of an inode with `IMOUNT`. -/
structure Table where
  chains : Links (Fin INOHSZ) Slot
  free : TailQueue Slot
  i_dev : Slot → ℕ
  i_number : Slot → ℕ
  i_count : Slot → ℕ
  locked : Slot → Bool
  mounted : Slot → Option ℕ
  panicked : Option Panic

/-- What happens with a place that holds a reference or waits for one. -/
inductive Place where
  | empty
  | looking (dev ino : ℕ)
  | grabbing (x : Slot)
  | reading (x : Slot)
  | holds (x : Slot)
  | releasing (x : Slot)
  deriving DecidableEq

def Place.slot : Place → Option Slot
  | .reading x | .holds x | .releasing x => some x
  | _ => none

def Place.held : Place → Option Slot
  | .holds x => some x
  | _ => none

namespace Table

def panic (t : Table) (why : Panic) : Table := { t with panicked := some why }

def setLock (t : Table) (x : Slot) (lock : Bool) : Table :=
  { t with locked := update t.locked x lock }

def increment (t : Table) (x : Slot) : Table :=
  { t with i_count := update t.i_count x ((t.i_count x + 1) % WORD) }

def decrement (t : Table) (x : Slot) : Table :=
  { t with i_count := update t.i_count x ((t.i_count x + (WORD - 1)) % WORD) }

/-- The end of `igrab`, which `iget` has inline. -/
def grab (t : Table) (x : Slot) : Table :=
  let t' := if t.i_count x = 0 then
      match t.free.remove x with
      | none => t.panic .nullPointer
      | some free => { t with free := free }
    else t
  (t'.increment x).setLock x true

/-- `iget` takes the first inode of the free list for another file. -/
def recycle (t : Table) (x : Slot) (dev ino : ℕ) : Table :=
  let t' : Table :=
    { t with
      free := (t.free.pop x).scribble x none
      chains := (t.chains.remque (.link x)).insque (.link x) (.head (INOHASH dev ino))
      i_dev := update t.i_dev x dev
      i_number := update t.i_number x ino
      mounted := update t.mounted x none }
  (t'.setLock x true).increment x

/-- The loop over the chain in `iget` and in `ifind`. -/
def ifind (t : Table) (dev ino : ℕ) : Option Slot :=
  t.chains.search (fun x => ino = t.i_number x ∧ dev = t.i_dev x) (INOHASH dev ino) (NINODE + 1)
    (.head (INOHASH dev ino))

/-- `iget` from `loop` to the next sleep, jump or return. -/
def iget (t : Table) (dev ino : ℕ) : Table × Place :=
  match t.ifind dev ino with
  | some x =>
    if t.locked x then (t, .looking dev ino)
    else
      match t.mounted x with
      | some m_dev => (t, .looking m_dev ROOTINO)
      | none => (t.grab x, .holds x)
  | none =>
    match t.free.next (.head ()) with
    | none => (t, .empty)
    | some x =>
      if t.i_count x ≠ 0 then (t.panic .freeInodeIsnt, .empty)
      else (t.recycle x dev ino, .reading x)

def igrab (t : Table) (x : Slot) : Table × Place :=
  if t.locked x then (t, .grabbing x) else (t.grab x, .holds x)

/-- `irele` up to its first sleep on the last reference. -/
def irele (t : Table) (x : Slot) : Table × Place :=
  if t.i_count x = 1 then (t.setLock x true, .releasing x) else (t.decrement x, .empty)

/-- The rest of `irele` on the last reference. -/
def giveBack (t : Table) (x : Slot) : Table :=
  let t' : Table := { t.setLock x false with mounted := update t.mounted x none }
  ({ t' with free := t'.free.append x }).decrement x

def iput (t : Table) (x : Slot) : Table × Place := (t.setLock x false).irele x

/-- The loop of `iflush`; false if an inode of the device is in use. -/
def iflush (dev : ℕ) : List Slot → Table → Table × Bool
  | [], t => (t, true)
  | x :: xs, t =>
    if t.i_dev x = dev then
      if t.i_count x ≠ 0 then (t, false)
      else iflush dev xs { t with chains := (t.chains.remque (.link x)).isolate (.link x) }
    else iflush dev xs t

end Table

/-- The loop of `ihinit` over the inodes. -/
def enlist (free : TailQueue Slot) (x : Slot) : TailQueue Slot :=
  { next := update free.next free.tail (some x)
    prev := update free.prev x (some free.tail)
    tail := .link x }

def ihinit : Table where
  chains := ⟨id, id⟩
  free :=
    (List.finRange NINODE).tail.foldl enlist
      { next := update (fun _ => none) (.head ()) (some 0)
        prev := update (fun _ => none) 0 (some (.head ()))
        tail := .link 0 }
  i_dev := fun _ => 0
  i_number := fun _ => 0
  i_count := fun _ => 0
  locked := fun _ => false
  mounted := fun _ => none
  panicked := none

variable {P : Type} [DecidableEq P]

structure System (P : Type) extends Table where
  place : P → Place

inductive Label (P : Type) where
  | iget (p : P) (dev ino : ℕ)
  | igrab (p : P) (x : Slot)
  | resume (p : P)
  | irele (p : P)
  | iput (p : P)
  | copy (p q : P)
  | ilock (p : P)
  | iunlock (p : P)
  | lastr (p : P) (v : Option Slot)
  | iflush (dev : ℕ)
  | mount (x : Slot) (dev : Option ℕ)

namespace System

def put (s : System P) (p : P) (result : Table × Place) : System P :=
  ⟨result.1, update s.place p result.2⟩

def keep (s : System P) (t : Table) : System P := ⟨t, s.place⟩

/-- One step, from one sleep to the next. `copy` is a second reference to an inode that is held. -/
def exec (s : System P) : Label P → Option (System P)
  | .iget p dev ino => if s.place p = .empty then some (s.put p (s.toTable.iget dev ino)) else none
  | .igrab p x => if s.place p = .empty then some (s.put p (s.toTable.igrab x)) else none
  | .resume p =>
    match s.place p with
    | .looking dev ino => some (s.put p (s.toTable.iget dev ino))
    | .grabbing x => some (s.put p (s.toTable.igrab x))
    | .reading x => some (s.put p (s.toTable, .holds x))
    | .releasing x => some (s.put p (s.giveBack x, .empty))
    | _ => none
  | .irele p => (s.place p).held.map fun x => s.put p (s.toTable.irele x)
  | .iput p => (s.place p).held.map fun x => s.put p (s.toTable.iput x)
  | .copy p q =>
    if s.place q = .empty then (s.place p).held.map fun x => s.put q (s.increment x, .holds x)
    else none
  | .ilock p =>
    (s.place p).held.bind fun x => if s.locked x then none else some (s.keep (s.setLock x true))
  | .iunlock p => (s.place p).held.map fun x => s.keep (s.setLock x false)
  | .lastr p v =>
    (s.place p).held.map fun x => s.keep { s.toTable with free := s.free.scribble x v }
  | .iflush dev => some (s.keep (s.toTable.iflush dev (List.finRange NINODE)).1)
  | .mount x dev => some (s.keep { s.toTable with mounted := update s.mounted x dev })

end System

def Step (s : System P) (a : Label P) (t : System P) : Prop := s.exec a = some t

def boot (P : Type) : System P := ⟨ihinit, fun _ => .empty⟩

end InodeTable
