import RetroBSD.Runs

/-!
# Advisory locks

`flock`, `ino_lock`, `ino_unlock` and the lock part of `closef` on one inode,
with any number of processes that share file structures. A request runs until
it returns or sleeps in `ino_lock`; a process that sleeps goes on at `again`, or
gives up when a signal ends its sleep. It may go on at any time here, not only
after a wakeup, so wakeups themselves are not part of the model.

A process that sleeps in `flock` has a descriptor for the file, and `closef`
counts descriptors: the last close of a file comes when nobody sleeps on it.
-/

namespace AdvisoryLocks

open Runs Finset
open Function (update update_of_ne update_self update_eq_self update_idem)

abbrev NFILE : ℕ := 24
abbrev File := Fin NFILE

/-- The lock flags of the files (`FSHLOCK`, `FEXLOCK`), and the counts and flags of the inode. -/
structure Locks where
  fshlock : File → Bool
  fexlock : File → Bool
  i_shlockc : ℕ
  i_exlockc : ℕ
  ishlock : Bool
  iexlock : Bool
  ilwait : Bool

/-- The counts are unsigned shorts. -/
def increment (n : ℕ) : ℕ := (n + 1) % 2 ^ 16

def decrement (n : ℕ) : ℕ := (n + (2 ^ 16 - 1)) % 2 ^ 16

namespace Locks

def dropShared (s : Locks) (fp : File) : Locks :=
  { s with
    i_shlockc := decrement s.i_shlockc
    ishlock := if decrement s.i_shlockc = 0 then false else s.ishlock
    fshlock := update s.fshlock fp false }

def dropExclusive (s : Locks) (fp : File) : Locks :=
  { s with
    i_exlockc := decrement s.i_exlockc
    iexlock := if decrement s.i_exlockc = 0 then false else s.iexlock
    ilwait := if decrement s.i_exlockc = 0 then false else s.ilwait
    fexlock := update s.fexlock fp false }

def ino_unlock (s : Locks) (fp : File) (shared exclusive : Bool) : Locks :=
  let s' := if shared && s.fshlock fp then s.dropShared fp else s
  if exclusive && s.fexlock fp then s'.dropExclusive fp else s'

/-- The end of `ino_lock`. -/
def grant (s : Locks) (fp : File) (exclusive : Bool) : Locks :=
  if exclusive then
    { s with
      i_exlockc := increment s.i_exlockc
      iexlock := true
      fexlock := update s.fexlock fp true }
  else if s.fshlock fp then s
  else
    { s with
      i_shlockc := increment s.i_shlockc
      ishlock := true
      fshlock := update s.fshlock fp true }

/-- The flags of a file structure that `falloc` gives out. -/
def fresh (s : Locks) (fp : File) : Locks :=
  { s with
    fshlock := update s.fshlock fp false
    fexlock := update s.fexlock fp false }

/-- The lock part of the last `closef`. -/
def release (s : Locks) (fp : File) : Locks :=
  if s.fshlock fp || s.fexlock fp then s.ino_unlock fp true true else s

end Locks

/-- A request for a lock, shared unless exclusive. -/
structure Request where
  exclusive : Bool
  nonblocking : Bool
  deriving DecidableEq

inductive Outcome where
  | granted
  | wouldBlock
  | sleeps
  deriving DecidableEq

/-- `ino_lock` from `again` to its return or its next sleep, in at most `n` rounds. -/
def again : ℕ → Locks → File → Request → Option (Locks × Outcome)
  | 0, _, _, _ => none
  | n + 1, s, fp, cmd =>
    if s.iexlock then
      if s.fexlock fp then again n (s.ino_unlock fp false true) fp cmd
      else if cmd.nonblocking then some (s, .wouldBlock)
      else some ({ s with ilwait := true }, .sleeps)
    else if cmd.exclusive && s.ishlock then
      if s.fshlock fp then again n (s.ino_unlock fp true false) fp cmd
      else if cmd.nonblocking then some (s, .wouldBlock)
      else some ({ s with ilwait := true }, .sleeps)
    else some (s.grant fp cmd.exclusive, .granted)

/-- `ino_lock`; a file has at most two locks to give up. -/
def ino_lock (s : Locks) (fp : File) (cmd : Request) : Option (Locks × Outcome) := again 3 s fp cmd

variable {P : Type} [DecidableEq P]

/-- The locks, with the reference counts of the files, the number of descriptors that each process
has for each file, and the requests that sleep. -/
structure State (P : Type) extends Locks where
  f_count : File → ℕ
  refs : P → File → ℕ
  waits : P → Option (File × Request)

/-- The argument `how` of `flock`. -/
structure How where
  unlock : Bool
  shared : Bool
  exclusive : Bool
  nonblocking : Bool

inductive Label (P : Type) where
  | flock (p : P) (fp : File) (how : How)
  | wake (p : P) (interrupted : Bool)
  | opens (p : P) (fp : File)
  | share (p q : P) (fp : File)
  | close (p : P) (fp : File)

/-- What `p` does when `ino_lock` has returned or sleeps. -/
def State.after (s : State P) (p : P) (fp : File) (cmd : Request) :
    Option (Locks × Outcome) → Option (State P)
  | none => none
  | some (locks, .sleeps) =>
    some { s with toLocks := locks, waits := update s.waits p (some (fp, cmd)) }
  | some (locks, _) => some { s with toLocks := locks, waits := update s.waits p none }

def State.flock (s : State P) (p : P) (fp : File) (how : How) : Option (State P) :=
  if how.unlock then some { s with toLocks := s.ino_unlock fp true true }
  else if !how.shared && !how.exclusive then some s
  else if s.fexlock fp && how.exclusive then some s
  else if s.fshlock fp && (how.shared && !how.exclusive) then some s
  else
    let cmd : Request := ⟨how.exclusive, how.nonblocking⟩
    s.after p fp cmd (ino_lock s.toLocks fp cmd)

def State.closef (s : State P) (fp : File) : State P :=
  if s.f_count fp > 1 then { s with f_count := update s.f_count fp (s.f_count fp - 1) }
  else
    { s with
      toLocks := s.release fp
      f_count := update s.f_count fp 0 }

/-- The descriptors of `p` for `fp` change to `n`. -/
def State.setRefs (s : State P) (p : P) (fp : File) (n : ℕ) : State P :=
  { s with refs := update s.refs p (update (s.refs p) fp n) }

/-- One step of a process, between two sleeps. -/
def exec (s : State P) : Label P → Option (State P)
  | .flock p fp how => if s.waits p = none ∧ 0 < s.refs p fp then s.flock p fp how else none
  | .wake p interrupted =>
    match s.waits p with
    | none => none
    | some (fp, cmd) =>
      if interrupted then some { s with waits := update s.waits p none }
      else s.after p fp cmd (ino_lock s.toLocks fp cmd)
  | .opens p fp =>
    if s.waits p = none ∧ s.f_count fp = 0 then
      some ({ s with
        toLocks := s.fresh fp
        f_count := update s.f_count fp 1 }.setRefs p fp (s.refs p fp + 1))
    else none
  | .share p q fp =>
    if s.waits p = none ∧ s.waits q = none ∧ 0 < s.refs p fp then
      some ({ s with f_count := update s.f_count fp (s.f_count fp + 1) }.setRefs q fp
        (s.refs q fp + 1))
    else none
  | .close p fp =>
    if s.waits p = none ∧ 0 < s.refs p fp then
      some ((s.closef fp).setRefs p fp (s.refs p fp - 1))
    else none

def Step (s : State P) (label : Label P) (t : State P) : Prop := exec s label = some t

def start : State P where
  fshlock _ := false
  fexlock _ := false
  i_shlockc := 0
  i_exlockc := 0
  ishlock := false
  iexlock := false
  ilwait := false
  f_count _ := 0
  refs _ _ := 0
  waits _ := none

def count (flag : File → Bool) : ℕ := (Finset.univ.filter fun fp => flag fp = true).card

section Counts

variable {flag : File → Bool} {fp : File}

lemma count_le (flag : File → Bool) : count flag ≤ NFILE :=
  (card_le_univ _).trans (Fintype.card_fin NFILE).le

lemma count_set (flag : File → Bool) (fp : File) (clear : flag fp = false) :
    count (update flag fp true) = count flag + 1 := by
  have out : fp ∉ univ.filter fun fp => flag fp = true := by simp [clear]
  rw [count, count, ← card_insert_of_notMem out]
  congr 1
  ext q
  by_cases same : q = fp <;> simp [same]

lemma count_clear (set : flag fp = true) : count (update flag fp false) + 1 = count flag := by
  have := count_set (update flag fp false) fp (update_self ..)
  rwa [update_idem, show update flag fp true = flag by
    rw [← set, update_eq_self], eq_comm] at this

lemma count_eq_zero : count flag = 0 ↔ ∀ fp, flag fp = false := by
  simp [count]

lemma clear_of_flag {held : Bool} {n : ℕ} (holds : held = true ↔ n ≠ 0) (counts : n = count flag)
    (clear : held = false) : ∀ fp, flag fp = false := by
  rw [← count_eq_zero, ← counts]
  simpa [clear] using holds

lemma increment_count (room : count flag + 1 ≤ NFILE) :
    increment (count flag) = count flag + 1 := by
  simp only [increment, NFILE] at *
  omega

lemma decrement_succ {n : ℕ} (small : n < NFILE) : decrement (n + 1) = n := by
  simp only [decrement, NFILE] at *
  omega

end Counts

/-- The counts and flags of the inode are those of the files, and a file with an exclusive lock is
the only one with a lock. -/
structure Exclusion (s : Locks) : Prop where
  shared : s.i_shlockc = count s.fshlock
  exclusive : s.i_exlockc = count s.fexlock
  ishlock : s.ishlock = true ↔ s.i_shlockc ≠ 0
  iexlock : s.iexlock = true ↔ s.i_exlockc ≠ 0
  one : count s.fexlock ≤ 1
  alone : ∀ fp, s.fexlock fp = true → ∀ q, s.fshlock q = false ∧ (q ≠ fp → s.fexlock q = false)

section Locks

variable {s : Locks} {fp : File}

lemma Exclusion.dropShared (sound : Exclusion s) (held : s.fshlock fp = true) :
    Exclusion (s.dropShared fp) := by
  have fewer := count_clear held
  have most := count_le s.fshlock
  have less : decrement s.i_shlockc = count (update s.fshlock fp false) := by
    rw [sound.shared, ← fewer]
    exact decrement_succ (by omega)
  constructor
  · exact less
  · exact sound.exclusive
  · have held : s.ishlock = true := sound.ishlock.mpr (by rw [sound.shared]; omega)
    simp only [Locks.dropShared, held]
    split_ifs with zero
    · simp [zero]
    · simp [zero]
  · exact sound.iexlock
  · exact sound.one
  · intro q exclusive r
    have := (sound.alone q exclusive fp).1
    simp [this] at held

lemma Exclusion.dropExclusive (sound : Exclusion s) (held : s.fexlock fp = true) :
    Exclusion (s.dropExclusive fp) := by
  have fewer := count_clear held
  have one := sound.one
  have less : decrement s.i_exlockc = count (update s.fexlock fp false) := by
    rw [sound.exclusive, ← fewer]
    exact decrement_succ (by simp only [NFILE]; omega)
  have none : count (update s.fexlock fp false) = 0 := by omega
  constructor
  · exact sound.shared
  · exact less
  · exact sound.ishlock
  · simp [Locks.dropExclusive, less, none]
  · simp [Locks.dropExclusive, none]
  · intro q exclusive
    simp [Locks.dropExclusive, count_eq_zero.mp none] at exclusive

lemma Exclusion.unlock (sound : Exclusion s) (fp : File) (shared exclusive : Bool) :
    Exclusion (s.ino_unlock fp shared exclusive) := by
  simp only [Locks.ino_unlock, Bool.and_eq_true]
  split_ifs with held held' held'
  · exact absurd held'.2 (by simp [(sound.alone fp held.2 fp).1])
  · exact sound.dropExclusive held.2
  · exact sound.dropShared held'.2
  · exact sound

lemma unlock_other (s : Locks) {q : File} (other : q ≠ fp) (shared exclusive : Bool) :
    (s.ino_unlock fp shared exclusive).fshlock q = s.fshlock q ∧
      (s.ino_unlock fp shared exclusive).fexlock q = s.fexlock q := by
  simp only [Locks.ino_unlock]
  split_ifs <;> simp [Locks.dropExclusive, Locks.dropShared, other]

lemma unlock_self (s : Locks) (fp : File) : (s.ino_unlock fp true true).fshlock fp = false ∧
      (s.ino_unlock fp true true).fexlock fp = false := by
  simp only [Locks.ino_unlock]
  split_ifs <;> simp_all [Locks.dropExclusive, Locks.dropShared]

lemma fresh_eq (unshared : s.fshlock fp = false) (free : s.fexlock fp = false) :
    s.fresh fp = s := by
  have shared : update s.fshlock fp false = s.fshlock := by rw [← unshared, update_eq_self]
  have exclusive : update s.fexlock fp false = s.fexlock := by rw [← free, update_eq_self]
  rw [Locks.fresh, shared, exclusive]

lemma release_eq (s : Locks) (fp : File) : s.release fp = s.ino_unlock fp true true := by
  unfold Locks.release
  split_ifs with held
  · rfl
  · simp only [Bool.or_eq_true, not_or] at held
    simp [Locks.ino_unlock, held]

/-- A lock is taken when nothing stands against it. -/
lemma Exclusion.grant (sound : Exclusion s) (fp : File) {exclusive : Bool}
    (free : s.iexlock = false) (unshared : exclusive = true → s.ishlock = false) :
    Exclusion (s.grant fp exclusive) := by
  have noneExclusive := clear_of_flag sound.iexlock sound.exclusive free
  have zero : count s.fexlock = 0 := count_eq_zero.mpr noneExclusive
  cases exclusive with
  | true =>
    have noneShared := clear_of_flag sound.ishlock sound.shared (unshared rfl)
    have more := count_set s.fexlock fp (noneExclusive fp)
    have up : increment s.i_exlockc = count (update s.fexlock fp true) := by
      rw [more, sound.exclusive]
      exact increment_count (by simp only [NFILE]; omega)
    constructor
    · exact sound.shared
    · exact up
    · exact sound.ishlock
    · simp [Locks.grant, up, more]
    · simp [Locks.grant, more, zero]
    · intro q _ r
      refine ⟨noneShared r, fun other => ?_⟩
      by_cases here : r = fp
      · by_cases same : q = r
        · exact absurd same.symm other
        · simp_all [Locks.grant]
      · simp [Locks.grant, here, noneExclusive]
  | false =>
    by_cases held : s.fshlock fp = true
    · simpa [Locks.grant, held] using sound
    · have clear : s.fshlock fp = false := by simpa using held
      have more := count_set s.fshlock fp clear
      have up : increment s.i_shlockc = count (update s.fshlock fp true) := by
        rw [more, sound.shared]
        exact increment_count (by have := count_le (update s.fshlock fp true); omega)
      have eq : s.grant fp false = { s with
            i_shlockc := increment s.i_shlockc
            ishlock := true
            fshlock := update s.fshlock fp true } := by
        simp [Locks.grant, clear]
      rw [eq]
      constructor
      · exact up
      · exact sound.exclusive
      · simp [up, more]
      · exact sound.iexlock
      · exact sound.one
      · intro q exclusive
        simp [noneExclusive] at exclusive

lemma grant_other (s : Locks) {q : File} (other : q ≠ fp) (exclusive : Bool) :
    (s.grant fp exclusive).fshlock q = s.fshlock q ∧
      (s.grant fp exclusive).fexlock q = s.fexlock q := by
  unfold Locks.grant
  split_ifs <;> simp [other]

/-- A request comes to a sleep or a return, and touches the locks of its own file only. -/
def Settles (s : Locks) (fp : File) (result : Option (Locks × Outcome)) : Prop :=
  ∃ s' outcome, result = some (s', outcome) ∧ Exclusion s' ∧
    ∀ q, q ≠ fp → s'.fshlock q = s.fshlock q ∧ s'.fexlock q = s.fexlock q

lemma again_spec (sound : Exclusion s) (fp : File) (cmd : Request) (n : ℕ)
    (enough : (s.fexlock fp).toNat + (s.fshlock fp).toNat < n) : Settles s fp (again n s fp cmd) := by
  induction n generalizing s with
  | zero => omega
  | succ n ih =>
    have waiting : Exclusion { s with ilwait := true } := { sound with }
    -- giving up a lock of `fp` and starting again
    have round : ∀ shared exclusive, ((s.ino_unlock fp shared exclusive).fexlock fp).toNat +
          ((s.ino_unlock fp shared exclusive).fshlock fp).toNat < n →
        Settles s fp (again n (s.ino_unlock fp shared exclusive) fp cmd) := by
      intro shared exclusive fewer
      obtain ⟨s', outcome, done, sound', others⟩ := ih (sound.unlock fp shared exclusive) fewer
      refine ⟨s', outcome, done, sound', fun q other => ?_⟩
      obtain ⟨a, b⟩ := others q other
      obtain ⟨c, d⟩ := unlock_other s other shared exclusive
      exact ⟨a.trans c, b.trans d⟩
    simp only [again]
    by_cases locked : s.iexlock = true
    · rw [if_pos locked]
      by_cases own : s.fexlock fp = true
      · rw [if_pos own]
        apply round
        simp [own] at enough
        simp [Locks.ino_unlock, own, Locks.dropExclusive]
        omega
      · split_ifs
        · exact ⟨s, _, rfl, sound, fun q _ => ⟨rfl, rfl⟩⟩
        · exact ⟨_, _, rfl, waiting, fun q _ => ⟨rfl, rfl⟩⟩
    · rw [if_neg locked]
      by_cases wait : (cmd.exclusive && s.ishlock) = true
      · rw [if_pos wait]
        by_cases own : s.fshlock fp = true
        · rw [if_pos own]
          apply round
          simpa [Locks.ino_unlock, own, Locks.dropShared] using enough
        · rw [if_neg own]
          split_ifs
          · exact ⟨s, _, rfl, sound, fun q _ => ⟨rfl, rfl⟩⟩
          · exact ⟨_, _, rfl, waiting, fun q _ => ⟨rfl, rfl⟩⟩
      · rw [if_neg wait]
        refine ⟨_, _, rfl, sound.grant fp (by simpa using locked) fun exclusive => ?_,
          fun q other => grant_other s other cmd.exclusive⟩
        simpa [exclusive] using wait

lemma ino_lock_spec (sound : Exclusion s) (fp : File) (cmd : Request) :
    Settles s fp (ino_lock s fp cmd) := by
  refine again_spec sound fp cmd 3 ?_
  have := Bool.toNat_lt (s.fexlock fp)
  have := Bool.toNat_lt (s.fshlock fp)
  omega

end Locks

section Runs

variable [Fintype P] {s t : State P}

/-- The invariant of every run: the locks are exclusive, `f_count` counts descriptors, a file that
is not open has no lock, and who sleeps has a descriptor. -/
structure Good (s : State P) : Prop where
  sound : Exclusion s.toLocks
  counts : ∀ fp, s.f_count fp = ∑ p, s.refs p fp
  closed : ∀ fp, s.f_count fp = 0 → s.fshlock fp = false ∧ s.fexlock fp = false
  sleepers : ∀ p fp cmd, s.waits p = some (fp, cmd) → 0 < s.refs p fp

lemma sum_setRefs (s : State P) (p : P) (fp fp' : File) (n : ℕ) :
    (∑ q, (s.setRefs p fp n).refs q fp') + (if fp' = fp then s.refs p fp else 0) =
      (∑ q, s.refs q fp') + if fp' = fp then n else 0 := by
  have split : ∀ refs : P → File → ℕ, ∑ q, refs q fp' =
      refs p fp' + ∑ q ∈ univ.erase p, refs q fp' := fun refs =>
    (add_sum_erase _ _ (mem_univ p)).symm
  have rest : ∑ q ∈ univ.erase p, (s.setRefs p fp n).refs q fp' =
      ∑ q ∈ univ.erase p, s.refs q fp' :=
    sum_congr rfl fun q member => by
      simp [State.setRefs, update_of_ne (ne_of_mem_erase member)]
  rw [split, split, rest]
  by_cases same : fp' = fp
  · subst same
    simp [State.setRefs]
    omega
  · simp [State.setRefs, same]

variable {fp : File} {p : P}

omit [DecidableEq P] in
lemma Good.opened (good : Good s) (has : 0 < s.refs p fp) : 0 < s.f_count fp := by
  rw [good.counts]
  exact has.trans_le (single_le_sum (f := fun q => s.refs q fp) (fun q _ => Nat.zero_le _)
    (mem_univ p))

lemma good_after (good : Good s) {cmd : Request} (has : 0 < s.refs p fp)
    (step : s.after p fp cmd (ino_lock s.toLocks fp cmd) = some t) : Good t := by
  obtain ⟨locks, outcome, done, sound, others⟩ := ino_lock_spec good.sound fp cmd
  have closed : ∀ q, s.f_count q = 0 → locks.fshlock q = false ∧ locks.fexlock q = false := by
    intro q zero
    have other : q ≠ fp := fun same => by
      have := good.opened has
      rw [same] at zero
      omega
    obtain ⟨a, b⟩ := others q other
    rw [a, b]
    exact good.closed q zero
  have sleepers : ∀ wait, (∀ fp' cmd', wait = some (fp', cmd') → fp' = fp) →
      ∀ q fp' cmd', update s.waits p wait q = some (fp', cmd') → 0 < s.refs q fp' := by
    intro wait own q fp' cmd' waits
    by_cases same : q = p
    · subst same
      rw [update_self] at waits
      rw [own fp' cmd' waits]
      exact has
    · rw [update_of_ne same] at waits
      exact good.sleepers q fp' cmd' waits
  rw [done] at step
  cases outcome <;> cases step
  all_goals
    refine { sound, counts := good.counts, closed, sleepers := sleepers _ ?_ }
    rintro fp' cmd' ⟨⟩
  rfl

omit [DecidableEq P] in
lemma Good.unlocked (good : Good s) {q : File} (zero : q ≠ fp → s.f_count q = 0) :
    (s.ino_unlock fp true true).fshlock q = false ∧
      (s.ino_unlock fp true true).fexlock q = false := by
  by_cases same : q = fp
  · exact same ▸ unlock_self s.toLocks fp
  · obtain ⟨a, b⟩ := unlock_other s.toLocks same true true
    rw [a, b]
    exact good.closed q (zero same)

lemma good_flock (good : Good s) {how : How} (has : 0 < s.refs p fp)
    (step : s.flock p fp how = some t) : Good t := by
  unfold State.flock at step
  split_ifs at step
  · cases step
    exact { good with
      sound := good.sound.unlock fp true true
      closed := fun q zero => good.unlocked fun _ => zero }
  · exact Option.some.inj step ▸ good
  · exact Option.some.inj step ▸ good
  · exact Option.some.inj step ▸ good
  · exact good_after good has step

/-- Changing the descriptors of a process that does not sleep, and `f_count` with them. -/
lemma Good.rerefs (good : Good s) {n m : ℕ} {locks : Locks}
    (awake : s.waits p = none) (sound : Exclusion locks)
    (balance : m + s.refs p fp = s.f_count fp + n) (closed : ∀ q, update s.f_count fp m q = 0 →
      locks.fshlock q = false ∧ locks.fexlock q = false) :
    Good ({ s with toLocks := locks, f_count := update s.f_count fp m }.setRefs p fp n) where
  sound := sound
  counts q := by
    have total := sum_setRefs s p fp q n
    have old := good.counts q
    change update s.f_count fp m q = ∑ r, (s.setRefs p fp n).refs r q
    by_cases same : q = fp
    · subst same
      simp only [update_self, if_true] at total ⊢
      omega
    · simp only [update_of_ne same, if_neg same] at total ⊢
      omega
  closed := closed
  sleepers q fp' cmd waits := by
    have other : q ≠ p := fun same => by
      rw [same] at waits
      exact absurd (awake.symm.trans waits) (by simp)
    simpa [State.setRefs, other] using good.sleepers q fp' cmd waits

omit [DecidableEq P] in
lemma Good.closed_of_update (good : Good s) {m : ℕ} (some : m ≠ 0) {q : File}
    (zero : update s.f_count fp m q = 0) : s.fshlock q = false ∧ s.fexlock q = false := by
  by_cases here : q = fp
  · subst here
    exact absurd ((update_self ..).symm.trans zero) some
  · exact good.closed q (by simpa [here] using zero)

lemma good_step (s : State P) (label : Label P) (t : State P) (good : Good s)
    (step : Step s label t) : Good t := by
  cases label with
  | flock p fp how =>
    simp only [Step, exec] at step
    split_ifs at step with ready
    exact good_flock good ready.2 step
  | wake p interrupted =>
    simp only [Step, exec] at step
    cases waits : s.waits p with
    | none => simp [waits] at step
    | some wait =>
      obtain ⟨fp, cmd⟩ := wait
      simp only [waits] at step
      split_ifs at step
      · cases step
        refine { good with sleepers := fun q fp' cmd' waits' => ?_ }
        by_cases same : q = p
        · simp [same] at waits'
        · exact good.sleepers q fp' cmd' (by simpa [same] using waits')
      · exact good_after good (good.sleepers p fp cmd waits) step
  | opens p fp =>
    simp only [Step, exec] at step
    split_ifs at step with ready
    cases step
    obtain ⟨unshared, free⟩ := good.closed fp ready.2
    have same : s.fresh fp = s.toLocks := fresh_eq unshared free
    refine good.rerefs ready.1 (by rw [same]; exact good.sound) (by omega) fun q zero => ?_
    rw [same]
    exact good.closed_of_update Nat.one_ne_zero zero
  | share p q fp =>
    simp only [Step, exec] at step
    split_ifs at step with ready
    cases step
    exact good.rerefs ready.2.1 good.sound (by omega) fun r =>
      good.closed_of_update (Nat.succ_ne_zero _)
  | close p fp =>
    simp only [Step, exec] at step
    split_ifs at step with ready
    cases step
    have opened := good.opened ready.2
    unfold State.closef
    split_ifs with more
    · exact good.rerefs ready.1 good.sound (by omega) fun q => good.closed_of_update (by omega)
    · rw [release_eq]
      exact good.rerefs ready.1 (good.sound.unlock fp true true) (by omega) fun q zero =>
        good.unlocked fun other => by simpa [other] using zero

omit [DecidableEq P] in
lemma good_start : Good (start : State P) where
  sound := by constructor <;> simp [start, count]
  counts := by simp [start]
  closed := by simp [start]
  sleepers := by simp [start]

/-- Whatever the requests and closes, and wherever they sleep: at most one file has an exclusive
lock, and then no other file has any; the counts of the inode are the numbers of files with a
lock, and its flags say whether these are zero. Every request comes to a return or a sleep. -/
theorem locks_exclusive (labels : List (Label P)) (s : State P)
    (run : Run Step (fun _ _ => True) start labels s) : count s.fexlock ≤ 1 ∧
      (∀ fp q, s.fexlock fp = true → q ≠ fp → s.fshlock q = false ∧ s.fexlock q = false) ∧
      s.i_shlockc = count s.fshlock ∧ s.i_exlockc = count s.fexlock ∧
      (s.ishlock = true ↔ s.i_shlockc ≠ 0) ∧ (s.iexlock = true ↔ s.i_exlockc ≠ 0) ∧
      ∀ fp cmd, ∃ result, ino_lock s.toLocks fp cmd = some result := by
  have good : Good s := run_invariant Good (fun s label t good _ => good_step s label t good) run
    good_start
  have sound := good.sound
  refine ⟨sound.one, fun fp q held other => ?_, sound.shared, sound.exclusive, sound.ishlock,
    sound.iexlock, fun fp cmd => ?_⟩
  · obtain ⟨unshared, free⟩ := sound.alone fp held q
    exact ⟨unshared, free other⟩
  · obtain ⟨locks, outcome, done, -⟩ := ino_lock_spec sound fp cmd
    exact ⟨_, done⟩

end Runs

/-- Process 1 waits for a shared lock until process 0 gives up its exclusive one. -/
theorem locks_exclusive_handover : ∃ s : State (Fin 2), Run Step (fun _ _ => True) start
    [.opens 0 0, .opens 1 1, .flock 0 0 ⟨false, false, true, false⟩,
      .flock 1 1 ⟨false, true, false, false⟩, .flock 0 0 ⟨true, false, false, false⟩,
      .wake 1 false] s ∧
    (s.fexlock 0, s.fshlock 1, s.i_shlockc) = (false, true, 1) ∧ count s.fexlock ≤ 1 := by
  exact Exists.imp (fun s ⟨run, result⟩ => ⟨run, result, (locks_exclusive _ s run).1⟩)
    (run_of_reached exec (by decide))

end AdvisoryLocks
