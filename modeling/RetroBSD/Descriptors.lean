import RetroBSD.References
import RetroBSD.Runs

/-!
# File descriptors

The system calls that create and drop references to file structures: `open`,
`pipe`, `dup`, `dup2`, `fcntl`, `close`, `fork`, `exec` and `exit`. A call runs
to its end before the next one starts. What happens outside the descriptor
table, the name lookup of `vn_open`, the close routine of a file or the reading
of a new image, is given by its error number, zero for success.

Of the flags of a file only `FREAD` and `FWRITE` matter here, of those of a
descriptor only `UF_EXCLOSE`. A descriptor that `ufalloc` leaves in `u_rval` is
given as its result.
-/

namespace Descriptors

open References Runs Finset
open Function (update update_of_ne)

local instance neZero : NeZero 2 := ⟨by decide⟩

abbrev NFILE : ℕ := 24
abbrev NOFILE : ℕ := 30
abbrev File := Fin NFILE
abbrev Fd := Fin NOFILE

abbrev ENXIO : ℕ := 6
abbrev EBADF : ℕ := 9
abbrev EAGAIN : ℕ := 11
abbrev EACCES : ℕ := 13
abbrev ENODEV : ℕ := 19
abbrev EINVAL : ℕ := 22
abbrev ENFILE : ℕ := 23
abbrev EMFILE : ℕ := 24

/-- The modes of a file: `FREAD` and `FWRITE`. -/
structure Mode where
  fread : Bool
  fwrite : Bool

/-- The table of file structures; `lastf` is where the search for a free one starts. -/
structure Files where
  f_count : File → ℕ
  f_flag : File → Mode
  lastf : ℕ

structure U where
  u_ofile : Fd → Option File
  uf_exclose : Fd → Bool
  u_lastfile : ℤ
  u_error : ℕ

def Files.setCount (k : Files) (fp : File) (n : ℕ) : Files :=
  { k with f_count := update k.f_count fp n }

def Files.setFlag (k : Files) (fp : File) (mode : Mode) : Files :=
  { k with f_flag := update k.f_flag fp mode }

namespace U

def point (u : U) (fd : Fd) (fp : Option File) : U :=
  { u with u_ofile := update u.u_ofile fd fp }

def flag (u : U) (fd : Fd) (exclose : Bool) : U :=
  { u with uf_exclose := update u.uf_exclose fd exclose }

def fail (u : U) (error : ℕ) : U := { u with u_error := error }

/-- `if (fd > u.u_lastfile) u.u_lastfile = fd`. -/
def reach (u : U) (fd : Fd) : U :=
  { u with u_lastfile := if u.u_lastfile < fd then (fd : ℤ) else u.u_lastfile }

/-- The highest of the first `n` descriptors that is in use. -/
def highest (u_ofile : Fd → Option File) : (n : ℕ) → n ≤ NOFILE → ℤ
  | 0, _ => -1
  | n + 1, small =>
    if u_ofile ⟨n, small⟩ = none then highest u_ofile n (Nat.le_of_succ_le small) else (n : ℤ)

/-- `while (u.u_lastfile >= 0 && u.u_ofile[u.u_lastfile] == NULL) u.u_lastfile--`. -/
def lower (u : U) : U :=
  { u with u_lastfile := highest u.u_ofile (min (u.u_lastfile + 1).toNat NOFILE) (min_le_right _ _) }

def ufalloc (u : U) (i : ℕ) : Option Fd × U :=
  match (List.finRange NOFILE).find? fun fd : Fd => i ≤ fd ∧ u.u_ofile fd = none with
  | some fd => (some fd, (u.flag fd false).reach fd)
  | none => (none, u.fail EMFILE)

/-- `getf`, for an argument read as an unsigned number. -/
def getf (u : U) (f : ℕ) : Option (Fd × File) :=
  if h : f < NOFILE then (u.u_ofile ⟨f, h⟩).map fun fp => (⟨f, h⟩, fp) else none

end U

/-- `closef`; `error` is what the close routine of the file returns. -/
def closef (k : Files) (fp : Option File) (error : ℕ) : Files × ℕ :=
  match fp with
  | none => (k, 0)
  | some fp =>
    if 1 < k.f_count fp then (k.setCount fp (k.f_count fp - 1), 0) else (k.setCount fp 0, error)

def dupit (k : Files) (u : U) (fd : Fd) (fp : File) (exclose : Bool) : Files × U :=
  (k.setCount fp (k.f_count fp + 1), ((u.point fd (some fp)).flag fd exclose).reach fd)

def dup2 (k : Files) (u : U) (i : ℕ) (j : ℤ) : Files × U :=
  match u.getf i with
  | none => (k, u.fail EBADF)
  | some (old, fp) =>
    if h : 0 ≤ j ∧ j < NOFILE then
      let new : Fd := ⟨j.toNat, by omega⟩
      if old = new then (k, u)
      else dupit (closef k (u.u_ofile new) 0).1 u new fp false
    else (k, u.fail EBADF)

def dup (k : Files) (u : U) (i : ℕ) (j : ℤ) : Files × U :=
  if 64 ≤ i then dup2 k u (i % 64) j
  else
    match u.getf i with
    | none => (k, u.fail EBADF)
    | some (_, fp) =>
      match u.ufalloc 0 with
      | (none, u') => (k, u')
      | (some new, u') => dupit k u' new fp false

/-- The commands of `fcntl`; those that leave descriptors and counts alone are one case. -/
inductive Cmd where
  | dupfd (arg : ℤ)
  | setfd (exclose : Bool)
  | other (error : ℕ)

def fcntl (k : Files) (u : U) (fdes : ℕ) (cmd : Cmd) : Files × U :=
  match u.getf fdes with
  | none => (k, u.fail EBADF)
  | some (fd, fp) =>
    match cmd with
    | .dupfd arg =>
      if 0 ≤ arg ∧ arg < NOFILE then
        match u.ufalloc arg.toNat with
        | (none, u') => (k, u')
        | (some new, u') => dupit k u' new fp false
      else (k, u.fail EINVAL)
    | .setfd exclose => (k, u.flag fd exclose)
    | .other error => (k, u.fail error)

def close (k : Files) (u : U) (i : ℕ) (error : ℕ) : Files × U :=
  match u.getf i with
  | none => (k, u.fail EBADF)
  | some (fd, fp) =>
    let (k', error') := closef k (some fp) error
    (k', (u.point fd none).lower.fail error')

/-- The search of `falloc`: from `lastf` to the end, then from the start. -/
def Files.slot (k : Files) : Option File :=
  ((List.finRange NFILE).find? fun fp : File => k.lastf ≤ fp ∧ k.f_count fp = 0).or
    ((List.finRange NFILE).find? fun fp : File => fp < k.lastf ∧ k.f_count fp = 0)

def falloc (k : Files) (u : U) : Files × U × Option (Fd × File) :=
  match u.ufalloc 0 with
  | (none, u') => (k, u', none)
  | (some i, u') =>
    match k.slot with
    | none => (k, u'.fail ENFILE, none)
    | some fp =>
      ({ k.setCount fp 1 with lastf := fp + 1 }, u'.point i (some fp), some (i, fp))

/-- `dupfdopen (indx, dfd, mode, error)`; gives its return value. -/
def dupfdopen (k : Files) (u : U) (indx : Fd) (dfd : ℕ) (mode : Mode) (error : ℕ) :
    Files × U × ℕ :=
  match u.getf dfd with
  | none => (k, u, EBADF)
  | some (old, wfp) =>
    if u.u_ofile indx = some wfp then (k, u, EBADF)
    else if error ≠ ENODEV then (k, u, error)
    else if (mode.fread && !(k.f_flag wfp).fread) || (mode.fwrite && !(k.f_flag wfp).fwrite) then
      (k, u, EACCES)
    else
      (k.setCount wfp (k.f_count wfp + 1),
        ((u.point indx (some wfp)).flag indx (u.uf_exclose old)).reach indx, 0)

/-- What `vn_open` and `ino_lock` give to `copen`: their errors, and the value that the driver of
`/dev/fd` leaves in `u_dupfd`. -/
structure Opened where
  error : ℕ
  u_dupfd : Option ℕ
  lockError : ℕ

/-- `copen` gives its return value. The result of `dupfdopen` is compared with zero before it is
assigned, so a failure of `dupfdopen` is returned as zero. -/
def copen (k : Files) (u : U) (mode : Mode) (r : Opened) : Files × U × ℕ :=
  match falloc k u with
  | (k', u', none) => (k', u', u'.u_error)
  | (k', u', some (indx, fp)) =>
    let k' := k'.setFlag fp mode
    if r.error ≠ 0 then
      let k' := k'.setCount fp 0
      match r.u_dupfd, decide (r.error = ENODEV ∨ r.error = ENXIO) with
      | some dfd, true =>
        match dupfdopen k' u' indx dfd mode r.error with
        | (k'', u'', 0) => (k'', u'', 0)
        | (k'', u'', _) => (k'', u''.point indx none, 0)
      | _, _ => (k', u'.point indx none, r.error)
    else if r.lockError ≠ 0 then ((closef k' (some fp) 0).1, u'.point indx none, r.lockError)
    else (k', u', 0)

def opens (k : Files) (u : U) (mode : Mode) (r : Opened) : Files × U :=
  let (k', u', error) := copen k u mode r
  (k', u'.fail error)

/-- `pipe`; `error` is that of `ialloc`. -/
def pipe (k : Files) (u : U) (error : ℕ) : Files × U :=
  if error ≠ 0 then (k, u.fail error)
  else
    match falloc k u with
    | (k', u', none) => (k', u')
    | (k', u', some (r, rf)) =>
      match falloc k' u' with
      | (k'', u'', none) => (k''.setCount rf 0, u''.point r none)
      | (k'', u'', some (_, wf)) =>
        ((k''.setFlag wf ⟨false, true⟩).setFlag rf ⟨true, false⟩, u'')

/-- One descriptor of the loop in `newproc`. -/
def share (u : U) (k : Files) (n : Fd) : Files :=
  if u.u_lastfile < n then k
  else
    match u.u_ofile n with
    | none => k
    | some fp => k.setCount fp (k.f_count fp + 1)

/-- The loop of `newproc` over the descriptors. -/
def shareAll (k : Files) (u : U) : Files := (List.finRange NOFILE).foldl (share u) k

/-- What the loops of `exec` and `exit` do with a descriptor. -/
def drop (s : Files × U) (i : Fd) : Files × U :=
  ((closef s.1 (s.2.u_ofile i) 0).1, (s.2.point i none).flag i false)

def dropFlagged (s : Files × U) (cc : Fd) : Files × U :=
  if s.2.u_lastfile < cc then s else if s.2.uf_exclose cc then drop s cc else s

def dropAny (s : Files × U) (i : Fd) : Files × U :=
  if s.2.u_lastfile < i then s else drop s i

/-- The loops of `exec` over the descriptors. -/
def closeOnExec (k : Files) (u : U) : Files × U :=
  let s := (List.finRange NOFILE).foldl dropFlagged (k, u)
  (s.1, s.2.lower)

/-- The loop of `exit` over the descriptors. -/
def closeAll (k : Files) (u : U) : Files × U := (List.finRange NOFILE).foldl dropAny (k, u)

variable {P : Type} [DecidableEq P]

structure System (P : Type) where
  files : Files
  proc : P → Option U

/-- The calls of a process, with what happens outside of this module. -/
inductive Call (P : Type) where
  | opens (mode : Mode) (r : Opened)
  | pipe (error : ℕ)
  | dup (i : ℕ) (j : ℤ)
  | dup2 (i : ℕ) (j : ℤ)
  | fcntl (fdes : ℕ) (cmd : Cmd)
  | close (i : ℕ) (error : ℕ)
  | exec (error : ℕ)
  | fork (child : P) (error : ℕ)
  | exit

/-- A call that only concerns the process itself; `none` for the others. -/
def Call.alone (k : Files) (u : U) : Call P → Option (Files × U)
  | .opens mode r => some (Descriptors.opens k u mode r)
  | .pipe error => some (Descriptors.pipe k u error)
  | .dup i j => some (Descriptors.dup k u i j)
  | .dup2 i j => some (Descriptors.dup2 k u i j)
  | .fcntl fdes cmd => some (Descriptors.fcntl k u fdes cmd)
  | .close i error => some (Descriptors.close k u i error)
  | .exec error => some (if error ≠ 0 then (k, u.fail error) else closeOnExec k u)
  | _ => none

namespace System

def set (s : System P) (k : Files) (p : P) (u : Option U) : System P :=
  ⟨k, update s.proc p u⟩

/-- One call of the process `p`, which starts with `u_error` zero. A new process takes an unused
entry of the process table. -/
def exec (s : System P) (a : P × Call P) : Option (System P) :=
  match s.proc a.1 with
  | none => none
  | some u =>
    let u := u.fail 0
    match a.2 with
    | .fork child error =>
      if error ≠ 0 then some (s.set s.files a.1 (some (u.fail error)))
      else
        match s.proc child with
        | some _ => none
        | none => some ((s.set s.files a.1 (some u)).set (shareAll s.files u) child (some u))
    | .exit => some (s.set (closeAll s.files u).1 a.1 none)
    | call => (call.alone s.files u).map fun r => s.set r.1 a.1 (some r.2)

end System

def Step (s : System P) (a : P × Call P) (t : System P) : Prop := s.exec a = some t

def boot (init : P) : System P where
  files := ⟨fun _ => 0, fun _ => ⟨false, false⟩, 0⟩
  proc := update (fun _ => none) init (some ⟨fun _ => none, fun _ => false, -1, 0⟩)

section Balance

variable {k k' : Files} {u : U} {others : File → ℕ}

/-- The counts of the files, with `others` the references that other processes hold. -/
structure Balanced (k : Files) (u : U) (others : File → ℕ) : Prop where
  counts : ∀ f, k.f_count f = references u.u_ofile f + others f
  within : ∀ fd, u.u_ofile fd ≠ none → (fd : ℤ) ≤ u.u_lastfile
  small : u.u_lastfile < NOFILE

lemma Balanced.fail (b : Balanced k u others) (error : ℕ) : Balanced k (u.fail error) others :=
  ⟨b.counts, b.within, b.small⟩

lemma Balanced.flag (b : Balanced k u others) (fd : Fd) (e : Bool) :
    Balanced k (u.flag fd e) others :=
  ⟨b.counts, b.within, b.small⟩

lemma Balanced.setFlag (b : Balanced k u others) (fp : File) (mode : Mode) :
    Balanced (k.setFlag fp mode) u others :=
  ⟨b.counts, b.within, b.small⟩

lemma le_reach (u : U) (fd : Fd) :
    (fd : ℤ) ≤ (u.reach fd).u_lastfile ∧ u.u_lastfile ≤ (u.reach fd).u_lastfile := by
  simp only [U.reach]
  split_ifs <;> omega

lemma Balanced.reach (b : Balanced k u others) (fd : Fd) : Balanced k (u.reach fd) others := by
  refine ⟨b.counts, fun fd' used => (b.within fd' used).trans (le_reach u fd).2, ?_⟩
  have := b.small
  simp only [U.reach]
  split_ifs <;> omega

variable {fd : Fd} {fp : File}

/-- A descriptor is written, and the counts follow. -/
lemma Balanced.point (b : Balanced k u others) {new : Option File}
    (reaches : new ≠ none → (fd : ℤ) ≤ u.u_lastfile)
    (moved : ∀ f, k'.f_count f + holds (u.u_ofile fd) f = k.f_count f + holds new f) :
    Balanced k' (u.point fd new) others := by
  constructor
  · intro f
    have written := references_update u.u_ofile fd new f
    have := moved f
    have := b.counts f
    simp only [U.point]
    omega
  · intro fd' used
    by_cases same : fd' = fd
    · subst same
      apply reaches
      simpa [U.point] using used
    · apply b.within
      simpa [U.point, update_of_ne same] using used
  · exact b.small

lemma count_up (k : Files) (fp f : File) :
    (k.setCount fp (k.f_count fp + 1)).f_count f = k.f_count f + holds (some fp) f := by
  by_cases same : f = fp
  · subst same
    simp [Files.setCount]
  · simp [Files.setCount, update_of_ne same, holds_of_ne (Ne.symm same)]

/-- `closef` takes one reference away, if there is one. -/
lemma closef_count (held : 0 < k.f_count fp) (error : ℕ) (f : File) :
    (closef k (some fp) error).1.f_count f + holds (some fp) f = k.f_count f := by
  by_cases same : f = fp
  · subst same
    simp only [closef]
    split_ifs with several <;> simp [Files.setCount] <;> omega
  · rw [holds_of_ne (Ne.symm same)]
    simp only [closef]
    split_ifs <;> simp [Files.setCount, update_of_ne same]

lemma Balanced.held (b : Balanced k u others)
    (points : u.u_ofile fd = some fp) : 0 < k.f_count fp := by
  have := holds_le_references u.u_ofile fd fp
  rw [points, holds_self] at this
  have := b.counts fp
  omega

lemma Balanced.closef_count (b : Balanced k u others) (fd : Fd) (error : ℕ) (f : File) :
    (closef k (u.u_ofile fd) error).1.f_count f + holds (u.u_ofile fd) f = k.f_count f := by
  rcases points : u.u_ofile fd with _ | fp
  · simp [closef]
  · exact Descriptors.closef_count (b.held points) error f

lemma Balanced.clear (b : Balanced k u others) (fd : Fd) (error : ℕ) :
    Balanced (closef k (u.u_ofile fd) error).1 (u.point fd none) others :=
  b.point (fun used => absurd rfl used) (b.closef_count fd error)

/-- `dupit` on a descriptor whose former reference has been dropped. -/
lemma Balanced.dupit (b : Balanced k u others) {e : Bool}
    (dropped : ∀ f, k'.f_count f + holds (u.u_ofile fd) f = k.f_count f) :
    Balanced (dupit k' u fd fp e).1 (dupit k' u fd fp e).2 others := by
  have moved : ∀ f, (k'.setCount fp (k'.f_count fp + 1)).f_count f + holds ((u.reach fd).u_ofile fd) f
      = k.f_count f + holds (some fp) f := by
    intro f
    have : (u.reach fd).u_ofile = u.u_ofile := rfl
    rw [count_up, this, ← dropped]
    omega
  exact ((b.reach fd).point (fun _ => (le_reach u fd).1) moved).flag fd e

lemma getf_points {i : ℕ} (found : u.getf i = some (fd, fp)) : u.u_ofile fd = some fp := by
  unfold U.getf at found
  split_ifs at found with small
  obtain ⟨fp', points, same⟩ := Option.map_eq_some_iff.mp found
  cases same
  exact points

section

variable (b : Balanced k u others) (i : ℕ)
include b i

/-- What `ufalloc` gives is a descriptor without a file, within the reach of `u_lastfile`. -/
lemma Balanced.ufalloc : Balanced k (u.ufalloc i).2 others ∧ ∀ fd, (u.ufalloc i).1 = some fd →
      (u.ufalloc i).2.u_ofile fd = none ∧ (fd : ℤ) ≤ (u.ufalloc i).2.u_lastfile := by
  unfold U.ufalloc
  split
  · rename_i fd found
    refine ⟨(b.flag fd false).reach fd, ?_⟩
    rintro fd' ⟨⟩
    have free := List.find?_some found
    exact ⟨(of_decide_eq_true free).2, (le_reach _ fd).1⟩
  · exact ⟨b.fail EMFILE, by simp⟩

/-- `dup` and `fcntl` end this way. -/
lemma Balanced.dup_new (fp : File) {r : Files × U} (result : r = match u.ufalloc i with
      | (none, u') => (k, u')
      | (some new, u') => Descriptors.dupit k u' new fp false) :
    Balanced r.1 r.2 others := by
  obtain ⟨balanced, fresh⟩ := b.ufalloc i
  subst result
  generalize u.ufalloc i = found at balanced fresh ⊢
  obtain ⟨new, u'⟩ := found
  cases new with
  | none => exact balanced
  | some new =>
    apply balanced.dupit
    intro f
    rw [(fresh new rfl).1]
    rfl

lemma Balanced.dup2 (j : ℤ) : Balanced (dup2 k u i j).1 (dup2 k u i j).2 others := by
  unfold Descriptors.dup2
  split
  · exact b.fail EBADF
  · split_ifs with range
    · dsimp only
      split_ifs with same
      · exact b
      · exact b.dupit (b.closef_count _ 0)
    · exact b.fail EBADF

lemma Balanced.dup (j : ℤ) : Balanced (dup k u i j).1 (dup k u i j).2 others := by
  unfold Descriptors.dup
  split_ifs with large
  · exact b.dup2 (i % 64) j
  · split
    · exact b.fail EBADF
    · exact b.dup_new 0 _ rfl

end

lemma Balanced.fcntl (b : Balanced k u others) (fdes : ℕ) (cmd : Cmd) :
    Balanced (fcntl k u fdes cmd).1 (fcntl k u fdes cmd).2 others := by
  unfold Descriptors.fcntl
  split
  · exact b.fail EBADF
  · cases cmd with
    | dupfd arg =>
      dsimp only
      split_ifs with range
      · exact b.dup_new arg.toNat _ rfl
      · exact b.fail EINVAL
    | setfd e => exact b.flag _ e
    | other error => exact b.fail error

lemma highest_spec (u_ofile : Fd → Option File) (n : ℕ) (small : n ≤ NOFILE) :
    U.highest u_ofile n small < n ∧
    ∀ fd : Fd, fd < n → u_ofile fd ≠ none → (fd : ℤ) ≤ U.highest u_ofile n small := by
  induction n with
  | zero => simp [U.highest]
  | succ n ih =>
    obtain ⟨below, above⟩ := ih _
    unfold U.highest
    split_ifs with empty
    · refine ⟨by push_cast; omega, fun fd lt used => above fd ?_ used⟩
      have : fd ≠ n := by
        intro same
        exact used (by rw [show fd = ⟨n, small⟩ from Fin.ext same, empty])
      omega
    · exact ⟨by push_cast; omega, fun fd lt _ => by omega⟩

lemma Balanced.lower (b : Balanced k u others) : Balanced k u.lower others := by
  obtain ⟨below, above⟩ := highest_spec u.u_ofile _ _
  refine ⟨b.counts, fun fd used => above fd ?_ used, ?_⟩
  · have := b.within fd used
    omega
  · simp only [U.lower]
    omega

lemma Balanced.close (b : Balanced k u others) (i error : ℕ) :
    Balanced (close k u i error).1 (close k u i error).2 others := by
  unfold Descriptors.close
  split
  · exact b.fail EBADF
  · rename_i fd fp found
    have cleared := b.clear fd error
    rw [getf_points found] at cleared
    exact cleared.lower.fail _

lemma slot_free (found : k.slot = some fp) : k.f_count fp = 0 := by
  rcases Option.or_eq_some_iff.mp found with first | ⟨-, second⟩
  · have free := List.find?_some first
    exact (of_decide_eq_true free).2
  · have free := List.find?_some second
    exact (of_decide_eq_true free).2

/-- `falloc` fails for want of a descriptor or of a file, or takes the first of each. -/
lemma falloc_cases (k : Files) (u : U) :
    (∃ u', falloc k u = (k, u', none) ∧ u'.u_error ≠ 0 ∧ u'.u_ofile = u.u_ofile ∧
      ((∃ fd, u.u_ofile fd = none) → k.slot = none)) ∨
    ∃ u' i fp, falloc k u = ({ k.setCount fp 1 with lastf := fp + 1 }, u', some (i, fp)) ∧
      u.u_ofile i = none ∧ k.slot = some fp ∧ u'.u_ofile = update u.u_ofile i (some fp) := by
  unfold falloc U.ufalloc
  rcases found : (List.finRange NOFILE).find? fun fd : Fd => 0 ≤ (fd : ℕ) ∧ u.u_ofile fd = none
    with _ | i
  · refine .inl ⟨_, rfl, by simp [U.fail], rfl, fun ⟨fd, free⟩ => ?_⟩
    have := List.find?_eq_none.mp found fd (List.mem_finRange fd)
    simp [free] at this
  · have free := List.find?_some found
    rcases taken : k.slot with _ | fp
    · exact .inl ⟨_, rfl, by simp [U.fail], rfl, fun _ => rfl⟩
    · exact .inr ⟨_, i, fp, rfl, (of_decide_eq_true free).2, rfl, rfl⟩

/-- A `falloc` that fails changes no reference. -/
lemma falloc_full (k : Files) (u : U) :
    (falloc k u).2.2 = none → (falloc k u).1 = k ∧ (falloc k u).2.1.u_ofile = u.u_ofile := by
  obtain ⟨u', result, -, ofile, -⟩ | ⟨u', i, fp, result, -⟩ := falloc_cases k u
  · simp [result, ofile]
  · simp [result]

/-- A file that `falloc` gives has one reference, from the new descriptor. -/
lemma Balanced.falloc (b : Balanced k u others) : Balanced (falloc k u).1 (falloc k u).2.1 others ∧
    ∀ i fp, (falloc k u).2.2 = some (i, fp) →
      (falloc k u).2.1.u_ofile i = some fp ∧ (falloc k u).1.f_count fp = 1 := by
  obtain ⟨balanced, fresh⟩ := b.ufalloc 0
  unfold Descriptors.falloc
  generalize u.ufalloc 0 = found at balanced fresh ⊢
  obtain ⟨new, u'⟩ := found
  cases new with
  | none => exact ⟨balanced, by simp⟩
  | some i =>
    obtain ⟨empty, reaches⟩ := fresh i rfl
    dsimp only at empty reaches ⊢
    split
    · exact ⟨balanced.fail ENFILE, by simp⟩
    · rename_i fp found
      have free := slot_free found
      constructor
      · apply Balanced.point balanced (fun _ => reaches)
        intro f
        have up := count_up k fp f
        rw [free] at up
        rw [empty]
        exact up
      · rintro i' fp' ⟨⟩
        constructor
        · simp [U.point]
        · simp [Files.setCount]

/-- A file with a single reference is given up without `closef`. -/
lemma Balanced.undo (b : Balanced k u others)
    (points : u.u_ofile fd = some fp) (single : k.f_count fp = 1) (f : File) :
    (k.setCount fp 0).f_count f + holds (u.u_ofile fd) f = k.f_count f := by
  have closed := b.closef_count fd 0 f
  rw [points, closef, if_neg (by omega)] at closed
  rw [points]
  exact closed

lemma Balanced.forget (b : Balanced k u others)
    (points : u.u_ofile fd = some fp) (single : k.f_count fp = 1) :
    Balanced (k.setCount fp 0) (u.point fd none) others :=
  b.point (fun used => absurd rfl used) (b.undo points single)

/-- `dupfdopen` accepts `dfd` for an entry that points to `own`: the pseudo-error is that of the
driver, and `dfd` is open, on another file and for all that is asked for. -/
def Duplicable (k : Files) (u : U) (own : Option File) (dfd : ℕ) (mode : Mode) (error : ℕ) : Prop :=
  error = ENODEV ∧ ∃ old wfp, u.getf dfd = some (old, wfp) ∧ own ≠ some wfp ∧
    ¬ ((mode.fread && !(k.f_flag wfp).fread) || (mode.fwrite && !(k.f_flag wfp).fwrite))

/-- `dupfdopen` fails and changes nothing, or it duplicates a file. -/
lemma dupfdopen_cases (k : Files) (u : U) (indx : Fd) (dfd : ℕ) (mode : Mode) {error : ℕ}
    (failed : error ≠ 0) : (¬ Duplicable k u (u.u_ofile indx) dfd mode error ∧
      ∃ e, e ≠ 0 ∧ dupfdopen k u indx dfd mode error = (k, u, e)) ∨
    (Duplicable k u (u.u_ofile indx) dfd mode error ∧ ∃ wfp e, dupfdopen k u indx dfd mode error =
      ((dupit k u indx wfp e).1, (dupit k u indx wfp e).2, 0)) := by
  unfold dupfdopen
  rcases found : u.getf dfd with _ | ⟨old, wfp⟩
  · exact .inl ⟨by simp [Duplicable, found], EBADF, by decide, rfl⟩
  · dsimp only
    split_ifs with same driver modes
    · exact .inl ⟨by simp [Duplicable, found, same], EBADF, by decide, rfl⟩
    · exact .inl ⟨fun dup => driver dup.1, error, failed, rfl⟩
    · refine .inl ⟨?_, EACCES, by decide, rfl⟩
      rintro ⟨-, old', wfp', found', -, granted⟩
      cases found.symm.trans found'
      exact granted modes
    · exact .inr ⟨⟨not_not.mp driver, old, wfp, found, same, modes⟩, wfp, _, rfl⟩

lemma Balanced.copen (b : Balanced k u others) (mode : Mode) (r : Opened) :
    Balanced (copen k u mode r).1 (copen k u mode r).2.1 others := by
  obtain ⟨balanced, fresh⟩ := b.falloc
  unfold Descriptors.copen
  generalize Descriptors.falloc k u = found at balanced fresh ⊢
  obtain ⟨k', u', result⟩ := found
  cases result with
  | none => exact balanced
  | some result =>
    obtain ⟨indx, fp⟩ := result
    obtain ⟨points, single⟩ := fresh indx fp rfl
    dsimp only at points single balanced ⊢
    have balanced := balanced.setFlag fp mode
    split_ifs with failed locked
    · split
      · rename_i dfd _ _
        rcases dupfdopen_cases ((k'.setFlag fp mode).setCount fp 0) u' indx dfd mode failed with
          ⟨-, e, nonzero, kept⟩ | ⟨-, wfp, e, taken⟩
        · rw [kept]
          cases e with
          | zero => exact absurd rfl nonzero
          | succ e => exact balanced.forget points single
        · rw [taken]
          exact balanced.dupit (balanced.undo points single)
      · exact balanced.forget points single
    · have closed := balanced.clear indx 0
      rw [points] at closed
      exact closed
    · exact balanced

lemma Balanced.opens (b : Balanced k u others) (mode : Mode) (r : Opened) :
    Balanced (opens k u mode r).1 (opens k u mode r).2 others :=
  (b.copen mode r).fail _

lemma Balanced.pipe (b : Balanced k u others) (error : ℕ) :
    Balanced (pipe k u error).1 (pipe k u error).2 others := by
  unfold Descriptors.pipe
  split_ifs with failed
  · exact b.fail error
  obtain ⟨balanced, fresh⟩ := b.falloc
  generalize Descriptors.falloc k u = found at balanced fresh ⊢
  obtain ⟨k₁, u₁, result⟩ := found
  cases result with
  | none => exact balanced
  | some result =>
    obtain ⟨r, rf⟩ := result
    obtain ⟨points, single⟩ := fresh r rf rfl
    dsimp only at points single balanced ⊢
    have kept := falloc_full k₁ u₁
    obtain ⟨balanced₂, fresh₂⟩ := balanced.falloc
    generalize Descriptors.falloc k₁ u₁ = found at balanced₂ fresh₂ kept ⊢
    obtain ⟨k₂, u₂, result⟩ := found
    cases result with
    | none =>
      obtain ⟨files, ofile⟩ := kept rfl
      exact balanced₂.forget (ofile ▸ points) (files ▸ single)
    | some result => exact (balanced₂.setFlag _ _).setFlag _ _

lemma Balanced.drop {s : Files × U} (b : Balanced s.1 s.2 others) (i : Fd) :
    Balanced (drop s i).1 (drop s i).2 others :=
  (b.clear i 0).flag i false

lemma Balanced.closeOnExec (b : Balanced k u others) :
    Balanced (closeOnExec k u).1 (closeOnExec k u).2 others := by
  have all : ∀ (l : List Fd) s, Balanced s.1 s.2 others →
      Balanced (l.foldl dropFlagged s).1 (l.foldl dropFlagged s).2 others := by
    intro l
    induction l with
    | nil => exact fun s balanced => balanced
    | cons cc l ih =>
      intro s balanced
      apply ih
      unfold dropFlagged
      split_ifs
      · exact balanced
      · exact balanced.drop cc
      · exact balanced
  have last := all (List.finRange NOFILE) (k, u) b
  unfold Descriptors.closeOnExec
  generalize (List.finRange NOFILE).foldl dropFlagged (k, u) = s at last ⊢
  exact last.lower

lemma Balanced.closeAll (b : Balanced k u others) (f : File) : (closeAll k u).1.f_count f = others f := by
  have all : ∀ (l : List Fd) s, Balanced s.1 s.2 others →
      Balanced (l.foldl dropAny s).1 (l.foldl dropAny s).2 others ∧
      ∀ fd, (fd ∈ l ∨ s.2.u_ofile fd = none) → (l.foldl dropAny s).2.u_ofile fd = none := by
    intro l
    induction l with
    | nil => exact fun s balanced => ⟨balanced, fun fd empty => by simpa using empty⟩
    | cons i l ih =>
      intro s balanced
      have dropped : Balanced (dropAny s i).1 (dropAny s i).2 others ∧
          ∀ fd, (fd = i ∨ s.2.u_ofile fd = none) → (dropAny s i).2.u_ofile fd = none := by
        unfold dropAny
        split_ifs with beyond
        · refine ⟨balanced, fun fd cases => ?_⟩
          rcases cases with rfl | empty
          · by_contra used
            have := balanced.within fd used
            omega
          · exact empty
        · refine ⟨balanced.drop i, fun fd cases => ?_⟩
          by_cases same : fd = i
          · subst same
            simp [Descriptors.drop, U.point, U.flag]
          · simpa [Descriptors.drop, U.point, U.flag, update_of_ne same] using
              cases.resolve_left same
      obtain ⟨last, empties⟩ := ih (dropAny s i) dropped.1
      refine ⟨last, fun fd member => empties fd ?_⟩
      rcases member with member | empty
      · rcases List.mem_cons.mp member with same | later
        · exact .inr (dropped.2 fd (.inl same))
        · exact .inl later
      · exact .inr (dropped.2 fd (.inr empty))
  obtain ⟨last, empties⟩ := all (List.finRange NOFILE) (k, u) b
  have none := funext fun fd => empties fd (.inl (List.mem_finRange fd))
  rw [Descriptors.closeAll, last.counts, none, references_none, Nat.zero_add]

/-- The loop of `newproc` counts every descriptor once more. -/
lemma Balanced.shareAll (b : Balanced k u others) (f : File) :
    (shareAll k u).f_count f = k.f_count f + references u.u_ofile f := by
  have all : ∀ (l : List Fd) k, (l.foldl (share u) k).f_count f
      = k.f_count f + (l.map fun n => holds (u.u_ofile n) f).sum := by
    intro l
    induction l with
    | nil => simp
    | cons n l ih =>
      intro k
      have one : (share u k n).f_count f = k.f_count f + holds (u.u_ofile n) f := by
        unfold share
        split_ifs with beyond
        · have empty : u.u_ofile n = none := by
            by_contra used
            have := b.within n used
            omega
          rw [empty, holds_none, Nat.add_zero]
        · rcases points : u.u_ofile n with _ | fp
          · rfl
          · exact count_up k fp f
      rw [List.foldl_cons, ih, one, List.map_cons, List.sum_cons, Nat.add_assoc]
  rw [Descriptors.shareAll, all, references, Fin.sum_univ_def]

/-- A call that only concerns the process itself keeps the balance. -/
lemma Balanced.alone {P : Type} (b : Balanced k u others) {call : Call P} {r : Files × U}
    (done : call.alone k u = some r) : Balanced r.1 r.2 others := by
  cases call with
  | opens mode opened => cases done; exact b.opens mode opened
  | pipe error => cases done; exact b.pipe error
  | dup i j => cases done; exact b.dup i j
  | dup2 i j => cases done; exact b.dup2 i j
  | fcntl fdes cmd => cases done; exact b.fcntl fdes cmd
  | close i error => cases done; exact b.close i error
  | exec error =>
    cases done
    split_ifs with failed
    · exact b.fail error
    · exact b.closeOnExec
  | fork child error => cases done
  | exit => cases done

end Balance

def table : Option U → Fd → Option File
  | none => fun _ => none
  | some u => u.u_ofile

section Systems

variable [Fintype P]

/-- The references of all processes are counted, and every `u_lastfile` covers its process. -/
structure Good (s : System P) : Prop where
  counts : ∀ f, s.files.f_count f = ∑ p, references (table (s.proc p)) f
  within : ∀ p u, s.proc p = some u → ∀ fd, u.u_ofile fd ≠ none → (fd : ℤ) ≤ u.u_lastfile
  small : ∀ p u, s.proc p = some u → u.u_lastfile < NOFILE

/-- The references that processes other than `p` hold. -/
def others (s : System P) (p : P) (f : File) : ℕ :=
  ∑ q ∈ Finset.univ.erase p, references (table (s.proc q)) f

lemma others_add (s : System P) (p : P) (f : File) :
    references (table (s.proc p)) f + others s p f = ∑ q, references (table (s.proc q)) f :=
  add_sum_erase _ (fun q => references (table (s.proc q)) f) (mem_univ p)

variable {s : System P} {u : U}

lemma Good.balanced (good : Good s) {p : P} (here : s.proc p = some u) :
    Balanced s.files u (others s p) := by
  refine ⟨fun f => ?_, good.within p u here, good.small p u here⟩
  have split := others_add s p f
  rw [here] at split
  exact (good.counts f).trans split.symm

lemma Good.set (good : Good s) (p : P) (k : Files) (u : Option U)
    (counts : ∀ f, k.f_count f = references (table u) f + others s p f)
    (within : ∀ v, u = some v → ∀ fd, v.u_ofile fd ≠ none → (fd : ℤ) ≤ v.u_lastfile)
    (small : ∀ v, u = some v → v.u_lastfile < NOFILE) : Good (s.set k p u) := by
  have cases : ∀ q v, (s.set k p u).proc q = some v → u = some v ∨ s.proc q = some v := by
    intro q v entry
    by_cases same : q = p
    · subst same
      exact .inl (by simpa [System.set] using entry)
    · exact .inr (by simpa [System.set, update_of_ne same] using entry)
  constructor
  · intro f
    have split := others_add s p f
    have total := sum_update (fun o => references (table o) f) s.proc p u
    have := counts f
    simp only [System.set] at total ⊢
    omega
  · intro q v entry
    rcases cases q v entry with new | old
    · exact within v new
    · exact good.within q v old
  · intro q v entry
    rcases cases q v entry with new | old
    · exact small v new
    · exact good.small q v old

lemma Good.put (good : Good s) {p : P} {k : Files}
    (balanced : Balanced k u (others s p)) : Good (s.set k p (some u)) := by
  apply good.set p k (some u) balanced.counts
  · rintro v ⟨⟩
    exact balanced.within
  · rintro v ⟨⟩
    exact balanced.small

lemma Good.fork (good : Good s) {child : P} {rest : File → ℕ}
    (balanced : Balanced s.files u rest) (unused : s.proc child = none) :
    Good (s.set (shareAll s.files u) child (some u)) := by
  apply good.set child (shareAll s.files u) (some u)
  · intro f
    have split := others_add s child f
    rw [unused] at split
    have empty : references (table none) f = 0 := references_none f
    have := good.counts f
    rw [balanced.shareAll]
    simp only [table] at *
    omega
  · rintro v ⟨⟩
    exact balanced.within
  · rintro v ⟨⟩
    exact balanced.small

lemma Good.step {t : System P} {a : P × Call P} (good : Good s) (step : Step s a t) : Good t := by
  obtain ⟨p, call⟩ := a
  rw [Step, System.exec] at step
  split at step
  · cases step
  rename_i u here
  have balanced := (good.balanced here).fail 0
  dsimp only at step here
  split at step
  · rename_i child error
    split_ifs at step with failed
    · cases step
      exact good.put (balanced.fail error)
    · split at step
      · cases step
      · rename_i unused
        cases step
        have first := good.put balanced
        have still : (s.set s.files p (some (u.fail 0))).proc child = none := by
          have other : child ≠ p := by
            rintro rfl
            rw [here] at unused
            cases unused
          simp [System.set, update_of_ne other, unused]
        exact first.fork balanced still
  · have closed := balanced.closeAll
    generalize closeAll s.files _ = r at closed step
    cases step
    apply good.set p r.1 none
    · intro f
      simp [closed, table]
    · simp
    · simp
  · obtain ⟨r, done, result⟩ := Option.map_eq_some_iff.mp step
    cases result
    exact good.put (balanced.alone done)

lemma good_boot (init : P) : Good (boot init) := by
  have entry : ∀ p u, (boot init).proc p = some u → u = ⟨fun _ => none, fun _ => false, -1, 0⟩ := by
    intro p u here
    by_cases same : p = init
    · subst same
      simpa [boot, eq_comm] using here
    · simp [boot, update_of_ne same] at here
  constructor
  · intro f
    symm
    apply sum_eq_zero
    intro p _
    rcases here : (boot init).proc p with _ | u
    · exact references_none f
    · rw [entry p u here]
      exact references_none f
  · intro p u here fd used
    rw [entry p u here] at used
    exact absurd rfl used
  · intro p u here
    rw [entry p u here]
    decide

/-- After every call the count of a file is the number of descriptors that point to it, and no
descriptor in use lies above `u_lastfile`. -/
theorem file_reference_counts (init : P) (calls : List (P × Call P)) (s : System P)
    (run : Run Step (fun _ _ => True) (boot init) calls s) : (∀ f, s.files.f_count f =
      (Finset.univ.filter fun x : P × Fd => table (s.proc x.1) x.2 = some f).card) ∧
    ∀ p u, s.proc p = some u → ∀ fd, u.u_ofile fd ≠ none → (fd : ℤ) ≤ u.u_lastfile := by
  have good := run_invariant Good (fun _ _ _ good _ step => good.step step) run (good_boot init)
  refine ⟨fun f => ?_, good.within⟩
  rw [good.counts, card_filter, Fintype.sum_prod_type]
  rfl

end Systems

/-- Two processes: a file, a pipe, a duplicate that is closed by `exec`, an open of `/dev/fd/0` and
one of `/dev/fd/9`, which fails and is reported as a success. -/
def sampleCalls : List (Fin 2 × Call (Fin 2)) :=
  [(0, .opens ⟨true, true⟩ ⟨0, none, 0⟩), (0, .pipe 0), (0, .dup 0 0), (0, .fcntl 3 (.setfd true)),
    (0, .fork 1 0), (1, .exec 0), (1, .opens ⟨true, false⟩ ⟨ENODEV, some 0, 0⟩),
    (1, .opens ⟨true, false⟩ ⟨ENODEV, some 9, 0⟩), (0, .dup2 1 0), (0, .close 3 0), (0, .exit)]

theorem file_reference_counts_sample :
    ∃ s : System (Fin 2), Run Step (fun _ _ => True) (boot 0) sampleCalls s ∧
      s.files.f_count 0 = 2 ∧ s.files.f_count 0 =
        (Finset.univ.filter fun x : Fin 2 × Fd => table (s.proc x.1) x.2 = some 0).card := by
  exact Exists.imp
    (fun s ⟨run, count⟩ => ⟨run, count, (file_reference_counts 0 sampleCalls s run).1 0⟩)
    (run_of_reached System.exec (by decide +kernel))

section OpenResult

/-- The `u_rval` of `open`: the descriptor that `falloc` has taken. -/
def rval (k : Files) (u : U) : Option Fd := (falloc k u).2.2.map Prod.fst

variable {k : Files} {u u' : U} {i : Fd} {fp : File}

lemma getf_taken (taken : u'.u_ofile = update u.u_ofile i (some fp)) (dfd : ℕ) :
    u'.getf dfd = if dfd = i then some (i, fp) else u.getf dfd := by
  unfold U.getf
  split_ifs with small same same
  · subst same
    simp [taken]
  · rw [taken, update_of_ne (fun e => same (by rw [← e]))]
  · omega
  · rfl

/-- The entry and the file that `falloc` takes do not matter to `dupfdopen`. -/
lemma duplicable_taken (k' : Files) (free : u.u_ofile i = none)
    (taken : u'.u_ofile = update u.u_ofile i (some fp))
    (flags : ∀ f ≠ fp, k'.f_flag f = k.f_flag f) (dfd : ℕ) (mode : Mode) (error : ℕ) :
    Duplicable k' u' (some fp) dfd mode error ↔ Duplicable k u (some fp) dfd mode error := by
  unfold Duplicable
  rw [getf_taken taken]
  split_ifs with same
  · simp +contextual [same, U.getf, free]
  · refine and_congr_right fun _ => exists_congr fun old => exists_congr fun wfp => ?_
    refine and_congr_right fun _ => and_congr_right fun other => ?_
    rw [flags wfp (fun e => other (congrArg some e.symm))]

/-- An open that returns without error has a descriptor with a file that is in use, and one that
returns an error leaves the table alone, except where `dupfdopen` refuses: its error is lost in a
comparison, and the call returns zero with the new entry cleared. -/
theorem open_result_iff (k : Files) (u : U) (mode : Mode) (r : Opened) :
    (((opens k u mode r).2.u_error = 0 → ∃ fd fp, rval k u = some fd ∧
        (opens k u mode r).2.u_ofile fd = some fp ∧ 1 ≤ (opens k u mode r).1.f_count fp) ∧
      ((opens k u mode r).2.u_error ≠ 0 → (opens k u mode r).2.u_ofile = u.u_ofile)) ↔
    ((∃ fd, u.u_ofile fd = none) → k.slot ≠ none → ∀ dfd, r.u_dupfd = some dfd →
      r.error = ENODEV ∨ r.error = ENXIO → Duplicable k u k.slot dfd mode r.error) := by
  obtain ⟨u', result, failed, ofile, full⟩ | ⟨u', i, fp, result, free, slot, taken⟩ :=
    falloc_cases k u
  · -- no descriptor or no file: the error of `falloc`
    have : opens k u mode r = (k, u'.fail u'.u_error) := by simp [opens, copen, result]
    rw [this]
    refine ⟨fun _ any some_ => absurd (full any) some_, fun _ => ⟨fun zero => ?_, fun _ => ofile⟩⟩
    exact absurd zero failed
  · have fd : rval k u = some i := by simp [rval, result]
    have restored : (u'.point i none).u_ofile = u.u_ofile := by simp [U.point, taken, ← free]
    by_cases opened : r.error = 0
    · refine ⟨fun _ _ _ _ _ pseudo => by simp [opened] at pseudo, fun _ => ?_⟩
      by_cases locked : r.lockError = 0
      · simp [opens, copen, result, opened, locked, fd, U.fail, taken, Files.setFlag, Files.setCount]
      · simp [opens, copen, result, opened, locked, U.fail, restored]
    · by_cases pseudo : r.error = ENODEV ∨ r.error = ENXIO
      · rcases dup : r.u_dupfd with _ | dfd
        · simp [opens, copen, result, opened, dup, U.fail, restored]
        · let k' := ({ k.setCount fp 1 with lastf := fp + 1 }.setFlag fp mode).setCount fp 0
          have own : u'.u_ofile i = some fp := by simp [taken]
          have same := duplicable_taken k' free taken
            (fun f other => update_of_ne other _ _) dfd mode r.error
          obtain ⟨bad, e, nonzero, done⟩ | ⟨good, wfp, e, done⟩ :=
            dupfdopen_cases k' u' i dfd mode opened
          · -- the error `e` is lost
            have lost : opens k u mode r = (k', (u'.point i none).fail 0) := by
              simp [opens, copen, result, opened, dup, pseudo, k', done]
            rw [own, same, ← slot] at bad
            rw [lost]
            refine ⟨fun ⟨law, _⟩ => ?_,
              fun law => absurd (law ⟨i, free⟩ (by simp [slot]) dfd rfl pseudo) bad⟩
            obtain ⟨_, f, here, points, -⟩ := law rfl
            cases fd.symm.trans here
            simp [U.fail, restored, free] at points
          · have shared : opens k u mode r =
                ((dupit k' u' i wfp e).1, (dupit k' u' i wfp e).2.fail 0) := by
              simp [opens, copen, result, opened, dup, pseudo, k', done]
            rw [own, same, ← slot] at good
            rw [shared]
            refine ⟨fun _ _ _ _ here _ => by cases here; exact good,
              fun _ => ⟨fun _ => ⟨i, wfp, fd, ?_, ?_⟩, absurd rfl⟩⟩
            · simp [dupit, U.fail, U.reach, U.flag, U.point]
            · simp [dupit, Files.setCount]
      · simp [opens, copen, result, opened, pseudo, U.fail, restored]

/-- An open of `/dev/fd/9` by a process without open files: no error, and no file at descriptor 0. -/
theorem open_closed_descriptor :
    let u : U := ⟨fun _ => none, fun _ => false, -1, 0⟩
    let k : Files := ⟨fun _ => 0, fun _ => ⟨false, false⟩, 0⟩
    let s := opens k u ⟨true, false⟩ ⟨ENODEV, some 9, 0⟩
    s.2.u_error = 0 ∧ rval k u = some 0 ∧ s.2.u_ofile 0 = none := by
  decide

end OpenResult

end Descriptors
