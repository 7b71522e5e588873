import RetroBSD.ImageLayout

/-!
# Signal dispositions and signal masks

A process keeps its handlers and masks in the `u.` area, and three sets derived
from them in its process entry. `sendsig` stores the registers of the process on
the stack that the process chose; the model keeps the kernel addresses of the
words of signal state, and a frame that falls on them changes them. The pending
set is left out: any signal that `issignal` may answer can be delivered. So are
the alternate stack (only `sigreturn` sets its flag here), `SA_RESTART`, and the
sizes of the stack.
-/

namespace Signals

open Runs
open ImageLayout (Word USER_DATA_START USER_DATA_END)
open Function (update update_of_ne update_self)

abbrev NSIG : Nat := 32
abbrev SIGILL : Nat := 4
abbrev SIGKILL : Nat := 9
abbrev SIGSTOP : Nat := 17
abbrev SIGCONT : Nat := 19

abbrev SIG_DFL : Word := 0
abbrev SIG_IGN : Word := 1

/-- Need to restore the mask from before `sigsuspend`. -/
abbrev SAS_OLDMASK : Word := 1

/-! ### Sets of signals -/

def sigmask (m : Nat) : Word := BitVec.twoPow 32 (m - 1)

abbrev sigcantmask : Word := sigmask SIGKILL ||| sigmask SIGSTOP

/-- The signal is in the set. Signals count from one. -/
def Has (set : Word) (sig : Nat) : Prop := set.getLsbD (sig - 1) = true

instance (set : Word) (sig : Nat) : Decidable (Has set sig) := by unfold Has; infer_instance

/-- The set holds neither `SIGKILL` nor `SIGSTOP`. -/
def Clean (set : Word) : Prop := ¬ Has set SIGKILL ∧ ¬ Has set SIGSTOP

instance (set : Word) : Decidable (Clean set) := by unfold Clean; infer_instance

section Sets

variable {a b : Word} {m sig : Nat}

lemma has_or : Has (a ||| b) sig ↔ Has a sig ∨ Has b sig := by
  simp [Has]

lemma has_add (low : 1 ≤ m) (known : 1 ≤ sig) (high : sig ≤ 32) :
    Has (a ||| sigmask m) sig ↔ sig = m ∨ Has a sig := by
  simp only [Has, sigmask, BitVec.getLsbD_or, BitVec.getLsbD_twoPow, Bool.or_eq_true,
    Bool.and_eq_true, decide_eq_true_eq]
  constructor
  · rintro (old | ⟨_, same⟩)
    · exact .inr old
    · exact .inl (by omega)
  · rintro (rfl | old)
    · exact .inr ⟨by omega, rfl⟩
    · exact .inl old

lemma has_remove (low : 1 ≤ m) (known : 1 ≤ sig) (high : sig ≤ 32) :
    Has (a &&& ~~~ sigmask m) sig ↔ sig ≠ m ∧ Has a sig := by
  have inside : sig - 1 < 32 := by omega
  simp only [Has, sigmask, BitVec.getLsbD_and, BitVec.getLsbD_not, BitVec.getLsbD_twoPow,
    inside, decide_true, Bool.true_and, Bool.and_eq_true, Bool.not_eq_true', Bool.and_eq_false_iff,
    decide_eq_false_iff_not]
  constructor
  · rintro ⟨old, apart⟩
    exact ⟨by omega, old⟩
  · rintro ⟨apart, old⟩
    exact ⟨old, .inr (by omega)⟩

lemma Clean.or (left : Clean a) (right : Clean b) : Clean (a ||| b) :=
  ⟨fun has => (has_or.mp has).elim left.1 right.1, fun has => (has_or.mp has).elim left.2 right.2⟩

lemma Clean.and (left : Clean a) (b : Word) : Clean (a &&& b) := by
  constructor
  · intro has
    exact left.1 (by simp [Has] at has ⊢; exact has.1)
  · intro has
    exact left.2 (by simp [Has] at has ⊢; exact has.1)

lemma clean_strip (a : Word) : Clean (a &&& ~~~ sigcantmask) := by
  constructor <;> simp [Has, sigmask]

/-- What holds neither signal is not changed by the kernel's precaution. -/
lemma Clean.strip (clean : Clean a) : a &&& ~~~ sigcantmask = a := by
  apply BitVec.eq_of_getLsbD_eq
  intro i inside
  rw [BitVec.getLsbD_and]
  cases member : a.getLsbD i with
  | false => rfl
  | true =>
    have kill : i ≠ 8 := by
      rintro rfl
      exact clean.1 member
    have stop : i ≠ 16 := by
      rintro rfl
      exact clean.2 member
    have other : sigcantmask.getLsbD i = false := by simp [sigmask, kill.symm, stop.symm]
    rw [BitVec.getLsbD_not, other, decide_eq_true inside]
    rfl

lemma clean_zero : Clean 0 := by decide

lemma clean_sigmask (low : 1 ≤ m) (kill : m ≠ SIGKILL) (stop : m ≠ SIGSTOP) :
    Clean (sigmask m) := by
  simp only [Clean, Has, sigmask, BitVec.getLsbD_twoPow, Bool.and_eq_true, decide_eq_true_eq,
    SIGKILL, SIGSTOP] at *
  omega

end Sets

/-- The lowest signal of a set, or zero. -/
def ffs (set : Word) : Nat := if set = 0 then 0 else set.ctz.toNat + 1

variable {set : Word} {f : Frame}

lemma ffs_has (some_ : set ≠ 0) : 1 ≤ ffs set ∧ Has set (ffs set) := by
  rw [ffs, if_neg some_]
  exact ⟨by omega, BitVec.getLsbD_true_ctz_of_ne_zero some_⟩

lemma Has.le {sig : Nat} (has : Has set sig) : sig ≤ 32 := by
  by_contra beyond
  rw [Has, BitVec.getLsbD_of_ge set (sig - 1) (by omega)] at has
  cases has

lemma remove_lt {sig : Nat} (low : 1 ≤ sig) (has : Has set sig) :
    (set &&& ~~~ sigmask sig).toNat < set.toNat := by
  apply Nat.lt_of_le_of_ne
  · exact Nat.and_le_left
  · intro same
    have unchanged := BitVec.eq_of_toNat_eq same
    exact ((has_remove low low has.le).mp (unchanged.symm ▸ has)).1 rfl

/-! ### The state of a process -/

abbrev SA_KILL : BitVec 8 := 0x01
abbrev SA_CORE : BitVec 8 := 0x02
abbrev SA_STOP : BitVec 8 := 0x04
abbrev SA_TTYSTOP : BitVec 8 := 0x08
abbrev SA_IGNORE : BitVec 8 := 0x10
abbrev SA_CONT : BitVec 8 := 0x20

def sigprop : List (BitVec 8) :=
  [0, SA_KILL, SA_KILL, SA_KILL ||| SA_CORE, SA_KILL ||| SA_CORE, SA_KILL ||| SA_CORE,
    SA_KILL ||| SA_CORE, SA_KILL ||| SA_CORE, SA_KILL ||| SA_CORE, SA_KILL,
    SA_KILL ||| SA_CORE, SA_KILL ||| SA_CORE, SA_KILL ||| SA_CORE, SA_KILL, SA_KILL, SA_KILL,
    SA_IGNORE, SA_STOP, SA_STOP ||| SA_TTYSTOP, SA_IGNORE ||| SA_CONT, SA_IGNORE,
    SA_STOP ||| SA_TTYSTOP, SA_STOP ||| SA_TTYSTOP, SA_IGNORE, SA_KILL, SA_KILL, SA_KILL,
    SA_KILL, SA_IGNORE, SA_IGNORE, SA_KILL, SA_KILL]

/-- `sigprop[sig] & SA_IGNORE`. -/
def IgnoredByDefault (sig : Nat) : Prop := sigprop.getD sig 0 &&& SA_IGNORE ≠ 0

instance (sig : Nat) : Decidable (IgnoredByDefault sig) := by
  unfold IgnoredByDefault; infer_instance

/-- Where a process is: in user mode, or asleep in a call that has changed its mask. -/
inductive Call where
  | user
  | sigsuspend
  | pselect
  deriving DecidableEq

structure SigState where
  p_sigmask : Word
  p_sigignore : Word
  p_sigcatch : Word
  u_signal : Nat → Word
  u_sigmask : Nat → Word
  u_oldmask : Word
  u_psflags : Word
  /-- `u_sigstk.ss_flags & SA_ONSTACK`. -/
  onstack : Bool
  /-- The end of the data, `p_daddr + u_dsize`. -/
  dataEnd : Word
  call : Call

structure Sigaction where
  sa_handler : Word
  sa_mask : Word

inductive How where
  | SIG_BLOCK
  | SIG_UNBLOCK
  | SIG_SETMASK
  | other

namespace SigState

def setsigvec (u : SigState) (signum : Nat) (sa : Sigaction) : SigState :=
  let bit := sigmask signum
  let u := { u with
    u_signal := update u.u_signal signum sa.sa_handler
    u_sigmask := update u.u_sigmask signum (sa.sa_mask &&& ~~~ sigcantmask) }
  if sa.sa_handler = SIG_IGN ∨ IgnoredByDefault signum ∧ sa.sa_handler = SIG_DFL then
    { u with
      p_sigignore := if signum ≠ SIGCONT then u.p_sigignore ||| bit else u.p_sigignore
      p_sigcatch := u.p_sigcatch &&& ~~~ bit }
  else
    { u with
      p_sigignore := u.p_sigignore &&& ~~~ bit
      p_sigcatch :=
        if sa.sa_handler = SIG_DFL then u.p_sigcatch &&& ~~~ bit else u.p_sigcatch ||| bit }

/-- `sigaction`. A call that returns an error, `fault` for a bad address of an
argument, leaves the state as it is. -/
def sigaction (u : SigState) (signum : Int) (nsa : Option Sigaction) (fault : Bool) : SigState :=
  if signum ≤ 0 ∨ (NSIG : Int) ≤ signum then u
  else if nsa.isSome ∧ (signum = SIGKILL ∨ signum = SIGSTOP) then u
  else if fault then u
  else match nsa with
    | none => u
    | some sa => u.setsigvec signum.toNat sa

def sigprocmask (u : SigState) (how : How) (set : Word) : SigState :=
  match how with
  | .SIG_BLOCK => { u with p_sigmask := u.p_sigmask ||| set &&& ~~~ sigcantmask }
  | .SIG_UNBLOCK => { u with p_sigmask := u.p_sigmask &&& ~~~ set }
  | .SIG_SETMASK => { u with p_sigmask := set &&& ~~~ sigcantmask }
  | .other => u

/-- The mask is saved and replaced until a signal is taken. -/
def suspendMask (u : SigState) (nmask : Word) : SigState :=
  { u with
    u_oldmask := u.p_sigmask
    u_psflags := u.u_psflags ||| SAS_OLDMASK
    p_sigmask := nmask &&& ~~~ sigcantmask }

def sigsuspend (u : SigState) (nmask : Word) : SigState :=
  { u.suspendMask nmask with call := .sigsuspend }

/-- `select1` with a mask goes to sleep. -/
def pselect (u : SigState) (sigmsk : Word) : SigState :=
  { u.suspendMask sigmsk with call := .pselect }

/-- `select1` wakes up; the flag stays. -/
def pselectReturn (u : SigState) : SigState :=
  { u with p_sigmask := u.u_oldmask, call := .user }

def sigreturn (u : SigState) (sc_onstack : Bool) (sc_mask : Word) : SigState :=
  { u with onstack := sc_onstack, p_sigmask := sc_mask &&& ~~~ sigcantmask }

def fatalsig (u : SigState) (signum : Nat) : SigState :=
  { u with
    u_signal := update u.u_signal signum SIG_DFL
    p_sigignore := u.p_sigignore &&& ~~~ sigmask signum
    p_sigcatch := u.p_sigcatch &&& ~~~ sigmask signum
    p_sigmask := u.p_sigmask &&& ~~~ sigmask signum }

/-- One round of the loop of `execsigs`. -/
def resetCaught (u : SigState) (nc : Nat) : SigState :=
  { u with
    p_sigcatch := u.p_sigcatch &&& ~~~ sigmask nc
    p_sigignore :=
      if IgnoredByDefault nc ∧ nc ≠ SIGCONT then u.p_sigignore ||| sigmask nc else u.p_sigignore
    u_signal := update u.u_signal nc SIG_DFL }

def resetAll (u : SigState) : SigState :=
  if u.p_sigcatch = 0 then u else (u.resetCaught (ffs u.p_sigcatch)).resetAll
termination_by u.p_sigcatch.toNat
decreasing_by
  rename_i caught
  exact remove_lt (ffs_has caught).1 (ffs_has caught).2

def execsigs (u : SigState) : SigState :=
  { u.resetAll with onstack := false, u_psflags := 0 }

def siginit (dataEnd : Word) : SigState where
  p_sigmask := 0
  p_sigignore := (List.range NSIG).foldl (fun set i =>
    if IgnoredByDefault i ∧ i ≠ SIGCONT then set ||| sigmask i else set) 0
  p_sigcatch := 0
  u_signal _ := SIG_DFL
  u_sigmask _ := 0
  u_oldmask := 0
  u_psflags := 0
  onstack := false
  dataEnd := dataEnd
  call := .user

end SigState

/-! ### Delivery -/

/-- The size of `struct sigframe`: four words of space and the context. -/
abbrev SIGFRAME : Word := 152

abbrev FRAME_SP : Nat := 26

/-- A frame that `sendsig` builds: its address and the words of its context, the
registers in the order of `struct sigcontext`. -/
structure Frame where
  sfp : Word
  sc_onstack : Bool
  sc_mask : Word
  regs : Nat → Word

namespace Frame

def word (f : Frame) : Nat → Word
  | 0 => if f.sc_onstack then 1 else 0
  | 1 => f.sc_mask
  | k + 2 => f.regs k

/-- The word of memory at an address after the context is stored. -/
def put (f : Frame) (addr old : Word) : Word :=
  let offset := addr - (f.sfp + 16)
  if offset < 136 then f.word (offset.toNat / 4) else old

/-- The frame lies in user data memory. -/
def InUserData (f : Frame) : Prop :=
  USER_DATA_START ≤ f.sfp ∧ f.sfp + SIGFRAME ≤ USER_DATA_END ∧ f.sfp ≤ f.sfp + SIGFRAME

lemma put_eq (inside : f.InUserData) {addr : Word}
    (outside : addr < USER_DATA_START ∨ USER_DATA_END ≤ addr) (old : Word) :
    f.put addr old = old := by
  apply if_neg
  unfold InUserData at inside
  bv_omega

end Frame

/-- The address of a word of the kernel: not in user data memory. -/
def Kernel (addr : Word) : Prop := addr < USER_DATA_START ∨ USER_DATA_END ≤ addr

instance (addr : Word) : Decidable (Kernel addr) := by unfold Kernel; infer_instance

/-- The addresses of the signal words, in the process entries and in the `u.` area. -/
structure Layout (P : Type) where
  p_sigmask : P → Word
  p_sigignore : P → Word
  p_sigcatch : P → Word
  u_signal : Nat → Word
  u_sigmask : Nat → Word
  u_oldmask : Word
  u_psflags : Word
  entries : ∀ p, Kernel (p_sigmask p) ∧ Kernel (p_sigignore p) ∧ Kernel (p_sigcatch p)
  handlers : ∀ i < NSIG, Kernel (u_signal i) ∧ Kernel (u_sigmask i)
  flags : Kernel u_oldmask ∧ Kernel u_psflags

variable {P : Type} [DecidableEq P]

namespace SigState

/-- What a frame does to the entry of a process. -/
def overEntry (u : SigState) (L : Layout P) (p : P) (f : Frame) : SigState :=
  { u with
    p_sigmask := f.put (L.p_sigmask p) u.p_sigmask
    p_sigignore := f.put (L.p_sigignore p) u.p_sigignore
    p_sigcatch := f.put (L.p_sigcatch p) u.p_sigcatch }

/-- What a frame does to the `u.` area of the running process. -/
def overArea (u : SigState) (L : Layout P) (f : Frame) : SigState :=
  { u with
    u_signal := fun i => if i < NSIG then f.put (L.u_signal i) (u.u_signal i) else u.u_signal i
    u_sigmask := fun i => if i < NSIG then f.put (L.u_sigmask i) (u.u_sigmask i) else u.u_sigmask i
    u_oldmask := f.put L.u_oldmask u.u_oldmask
    u_psflags := f.put L.u_psflags u.u_psflags }

/-- The mask that is in force again after the handler. -/
def returnmask (u : SigState) : Word :=
  if u.u_psflags &&& SAS_OLDMASK ≠ 0 then u.u_oldmask else u.p_sigmask

/-- `postsig` for a signal with a handler, up to the call of `sendsig`. -/
def postsig (u : SigState) (sig : Nat) : SigState :=
  { u with
    u_psflags := u.u_psflags &&& ~~~ SAS_OLDMASK
    p_sigmask := u.p_sigmask ||| (u.u_sigmask sig ||| sigmask sig)
    call := .user }

/-- The frame of a delivery, below the stack pointer of the process. -/
def frame (u : SigState) (regs : Nat → Word) : Frame where
  sfp := regs FRAME_SP - SIGFRAME
  sc_onstack := u.onstack
  sc_mask := u.returnmask
  regs := regs

/-- The test of `sendsig` for a stack that has run into the data. -/
def Trashed (u : SigState) (regs : Nat → Word) : Prop :=
  u.onstack = false ∧ (u.frame regs).sfp < u.dataEnd

instance (u : SigState) (regs : Nat → Word) : Decidable (u.Trashed regs) := by
  unfold Trashed; infer_instance

/-- A signal that `issignal` may answer, with a handler to call. -/
def Delivers (u : SigState) (sig : Nat) : Prop :=
  1 ≤ sig ∧ sig < NSIG ∧ ¬ Has u.p_sigmask sig ∧ u.u_signal sig ≠ SIG_DFL ∧
    u.u_signal sig ≠ SIG_IGN ∧ u.call ≠ .pselect

instance (u : SigState) (sig : Nat) : Decidable (u.Delivers sig) := by
  unfold Delivers; infer_instance

end SigState

/-! ### The system -/

inductive Act where
  | sigaction (signum : Int) (nsa : Option Sigaction) (fault : Bool)
  | sigprocmask (how : How) (set : Word)
  | sigsuspend (nmask : Word)
  | sigwait
  | pselect (sigmsk : Word)
  | pselectReturn
  | sigreturn (sc_onstack : Bool) (sc_mask : Word)
  | exec (dataEnd : Word)
  | fatalsig

/-- System calls are made in user mode, and `pselect` returns from its sleep. -/
def SigState.act (u : SigState) : Act → Option SigState
  | .sigaction signum nsa fault => if u.call = .user then some (u.sigaction signum nsa fault) else none
  | .sigprocmask how set => if u.call = .user then some (u.sigprocmask how set) else none
  | .sigsuspend nmask => if u.call = .user then some (u.sigsuspend nmask) else none
  | .sigwait => if u.call = .user then some u else none
  | .pselect sigmsk => if u.call = .user then some (u.pselect sigmsk) else none
  | .pselectReturn => if u.call = .pselect then some u.pselectReturn else none
  | .sigreturn onstack mask => if u.call = .user then some (u.sigreturn onstack mask) else none
  | .exec dataEnd => if u.call = .user then some { u.execsigs with dataEnd := dataEnd } else none
  | .fatalsig => if u.call = .user then some (u.fatalsig SIGILL) else none

inductive Label (P : Type) where
  | act (p : P) (a : Act)
  | deliver (p : P) (sig : Nat) (regs : Nat → Word)
  | fork (p child : P)
  | exit (p : P)

/-- The processes that have not entered `exit`. -/
abbrev System (P : Type) := P → Option SigState

/-- `sendsig` on a good stack: the frame is stored, wherever it lies. -/
def System.store (s : System P) (L : Layout P) (p : P) (u : SigState) (f : Frame) : System P :=
  fun q => if q = p then some ((u.overArea L f).overEntry L p f)
    else (s q).map fun v => v.overEntry L q f

/-- One step. A stack pointer that is not aligned traps in the kernel. -/
def exec (L : Layout P) (s : System P) : Label P → Option (System P)
  | .act p a => ((s p).bind fun u => u.act a).map fun u => update s p (some u)
  | .deliver p sig regs => (s p).bind fun u =>
      if u.Delivers sig ∧ regs FRAME_SP &&& 3 = 0 then
        some (if u.Trashed regs then
          update s p (some ((u.postsig sig).fatalsig SIGILL))
        else s.store L p (u.postsig sig) (u.frame regs))
      else none
  | .fork p child => (s p).bind fun u =>
      if s child = none ∧ u.call = .user then some (update s child (some u)) else none
  | .exit p => (s p).map fun _ => update s p none

def Step (L : Layout P) (s : System P) (a : Label P) (t : System P) : Prop := exec L s a = some t

def boot (p : P) (dataEnd : Word) : System P :=
  update (fun _ => none) p (some (SigState.siginit dataEnd))

/-- The stack pointer of a delivery leaves room for the frame in user data memory. -/
def Calm (_ : System P) : Label P → Prop
  | .deliver _ _ regs =>
    USER_DATA_START + SIGFRAME ≤ regs FRAME_SP ∧ regs FRAME_SP ≤ USER_DATA_END
  | _ => True

namespace SigState

lemma frame_inUserData {u : SigState} {regs : Nat → Word}
    (low : USER_DATA_START + SIGFRAME ≤ regs FRAME_SP) (high : regs FRAME_SP ≤ USER_DATA_END) :
    (u.frame regs).InUserData := by
  unfold Frame.InUserData
  simp only [frame]
  bv_omega

omit [DecidableEq P] in
lemma overEntry_eq (inside : f.InUserData) (u : SigState) (L : Layout P) (p : P) :
    u.overEntry L p f = u := by
  obtain ⟨mask, ignore, caught⟩ := L.entries p
  simp [overEntry, f.put_eq inside mask, f.put_eq inside ignore, f.put_eq inside caught]

omit [DecidableEq P] in
lemma overArea_eq (inside : f.InUserData) (u : SigState) (L : Layout P) : u.overArea L f = u := by
  have signals : (fun i => if i < NSIG then f.put (L.u_signal i) (u.u_signal i)
      else u.u_signal i) = u.u_signal := by
    funext i
    split_ifs with index
    · exact f.put_eq inside (L.handlers i index).1 _
    · rfl
  have masks : (fun i => if i < NSIG then f.put (L.u_sigmask i) (u.u_sigmask i)
      else u.u_sigmask i) = u.u_sigmask := by
    funext i
    split_ifs with index
    · exact f.put_eq inside (L.handlers i index).2 _
    · rfl
  simp [overArea, signals, masks, f.put_eq inside L.flags.1, f.put_eq inside L.flags.2]

end SigState

lemma System.store_eq (inside : f.InUserData) (s : System P) (L : Layout P) (p : P)
    (u : SigState) : s.store L p u f = update s p (some u) := by
  funext q
  by_cases same : q = p
  · simp [System.store, same, SigState.overArea_eq inside, SigState.overEntry_eq inside]
  · cases found : s q <;> simp [System.store, same, SigState.overEntry_eq inside]

/-- What a calm step can do to a process. -/
inductive Moves : SigState → SigState → Prop where
  | stays (u : SigState) : Moves u u
  | acts {u v : SigState} (a : Act) (done : u.act a = some v) : Moves u v
  | handles {u : SigState} {sig : Nat} (taken : u.Delivers sig) : Moves u (u.postsig sig)
  | dies {u : SigState} {sig : Nat} (taken : u.Delivers sig) :
      Moves u ((u.postsig sig).fatalsig SIGILL)

lemma update_moves {s : System P} {p q : P} {u v w : SigState} (found : s p = some u)
    (moves : Moves u w) (after : update s p (some w) q = some v) :
    ∃ r x, s r = some x ∧ Moves x v := by
  by_cases same : q = p
  · subst same
    rw [update_self] at after
    cases after
    exact ⟨q, u, found, moves⟩
  · rw [update_of_ne same] at after
    exact ⟨q, v, after, Moves.stays v⟩

/-- Every process after a calm step comes from one before it. -/
lemma step_moves {L : Layout P} {s t : System P} {a : Label P} (calm : Calm s a)
    (step : Step L s a t) {q : P} {v : SigState} (after : t q = some v) :
    ∃ r x, s r = some x ∧ Moves x v := by
  cases a with
  | act p a =>
    obtain ⟨w, done, rfl⟩ := Option.map_eq_some_iff.mp step
    obtain ⟨u, found, done⟩ := Option.bind_eq_some_iff.mp done
    exact update_moves found (Moves.acts a done) after
  | deliver p sig regs =>
    obtain ⟨u, found, done⟩ := Option.bind_eq_some_iff.mp step
    obtain ⟨⟨taken, _⟩, ⟨⟩⟩ := Option.ite_none_right_eq_some.mp done
    split_ifs at after with trashed
    · exact update_moves found (Moves.dies taken) after
    · rw [System.store_eq (SigState.frame_inUserData calm.1 calm.2)] at after
      exact update_moves found (Moves.handles taken) after
  | fork p child =>
    obtain ⟨u, found, done⟩ := Option.bind_eq_some_iff.mp step
    obtain ⟨_, ⟨⟩⟩ := Option.ite_none_right_eq_some.mp done
    by_cases same : q = child
    · subst same
      rw [update_self] at after
      cases after
      exact ⟨p, v, found, Moves.stays v⟩
    · rw [update_of_ne same] at after
      exact ⟨q, v, after, Moves.stays v⟩
  | exit p =>
    obtain ⟨-, -, rfl⟩ := Option.map_eq_some_iff.mp step
    by_cases same : q = p
    · rw [same, update_self] at after
      cases after
    · rw [update_of_ne same] at after
      exact ⟨q, v, after, Moves.stays v⟩

end Signals
