import RetroBSD.Signals

/-!
# What the signal sets hold

The sets of a process entry repeat what the handler table says, and no set or
mask holds `SIGKILL` or `SIGSTOP`. Both are kept by every step whose frame, if it
builds one, lies in user data memory.
-/

namespace Signals

open Runs Option
open ImageLayout (Word USER_DATA_START USER_DATA_END)
open Function (update update_of_ne update_self)

variable {P : Type} [DecidableEq P]

namespace SigState

/-- `p_sigcatch` and `p_sigignore` agree with the handler of the signal. -/
def Agrees (u : SigState) (sig : Nat) : Prop :=
  (Has u.p_sigcatch sig ↔ u.u_signal sig ≠ SIG_DFL ∧ u.u_signal sig ≠ SIG_IGN) ∧
  (Has u.p_sigignore sig ↔ sig ≠ SIGCONT ∧
    (u.u_signal sig = SIG_IGN ∨ u.u_signal sig = SIG_DFL ∧ IgnoredByDefault sig))

instance (u : SigState) (sig : Nat) : Decidable (u.Agrees sig) := by
  unfold Agrees; infer_instance

/-- Neither `SIGKILL` nor `SIGSTOP` is blocked, ignored or caught. -/
structure Sound (u : SigState) : Prop where
  mask : Clean u.p_sigmask
  handlers : ∀ sig < NSIG, Clean (u.u_sigmask sig)
  old : u.u_psflags &&& SAS_OLDMASK ≠ 0 → Clean u.u_oldmask
  ignore : Clean u.p_sigignore
  caught : Clean u.p_sigcatch

structure Invariant (u : SigState) : Prop extends Sound u where
  agrees : ∀ sig, 1 ≤ sig → sig < NSIG → u.Agrees sig
  bound : ¬ Has u.p_sigcatch NSIG
  kill : u.u_signal SIGKILL = SIG_DFL
  stop : u.u_signal SIGSTOP = SIG_DFL
  asleep : u.call = .pselect → u.u_psflags &&& SAS_OLDMASK ≠ 0

lemma siginit_agrees : ∀ sig < NSIG, 1 ≤ sig → (siginit 0).Agrees sig := by
  decide

lemma siginit_clean : Clean (siginit 0).p_sigignore := by
  decide

lemma siginit_invariant (dataEnd : Word) : (siginit dataEnd).Invariant where
  mask := clean_zero
  handlers _ _ := clean_zero
  old _ := clean_zero
  ignore := siginit_clean
  caught := clean_zero
  agrees sig low high := siginit_agrees sig high low
  bound := (by decide : ¬ Has 0 NSIG)
  kill := rfl
  stop := rfl
  asleep := nofun

/-! ### The handlers -/

section

variable (u : SigState) (signum : Nat) (sa : Sigaction)

lemma setsigvec_signal :
    (u.setsigvec signum sa).u_signal = update u.u_signal signum sa.sa_handler := by
  unfold setsigvec
  split_ifs <;> rfl

lemma setsigvec_catch : (u.setsigvec signum sa).p_sigcatch =
      if sa.sa_handler ≠ SIG_DFL ∧ sa.sa_handler ≠ SIG_IGN then u.p_sigcatch ||| sigmask signum
      else u.p_sigcatch &&& ~~~ sigmask signum := by
  unfold setsigvec
  split_ifs <;> first | rfl | tauto

lemma setsigvec_ignore : (u.setsigvec signum sa).p_sigignore =
      if sa.sa_handler = SIG_IGN ∨ IgnoredByDefault signum ∧ sa.sa_handler = SIG_DFL then
        if signum ≠ SIGCONT then u.p_sigignore ||| sigmask signum else u.p_sigignore
      else u.p_sigignore &&& ~~~ sigmask signum := by
  unfold setsigvec
  split_ifs <;> rfl

lemma setsigvec_rest : (u.setsigvec signum sa).p_sigmask = u.p_sigmask ∧
      (u.setsigvec signum sa).u_oldmask = u.u_oldmask ∧
      (u.setsigvec signum sa).u_psflags = u.u_psflags ∧ (u.setsigvec signum sa).call = u.call := by
  unfold setsigvec
  split_ifs <;> exact ⟨rfl, rfl, rfl, rfl⟩

end

section

variable {sig : Nat} {u : SigState} (known : 1 ≤ sig) (high : sig < NSIG) (agrees : u.Agrees sig)

include known high agrees

/-- A signal whose disposition is changed agrees; the others agree as before. -/
lemma Agrees.setsigvec {signum : Nat} (low : 1 ≤ signum) (sa : Sigaction)
    (never : ¬ Has u.p_sigignore SIGCONT) : (u.setsigvec signum sa).Agrees sig := by
  have high := Nat.le_of_lt high
  unfold Agrees
  rw [setsigvec_catch, setsigvec_ignore, setsigvec_signal]
  by_cases same : sig = signum
  · subst same
    rw [update_self]
    constructor
    · split_ifs with caught
      · simpa only [has_add low known high, true_or, true_iff] using caught
      · simpa only [has_remove low known high, ne_eq, not_true, false_and, false_iff] using caught
    · split_ifs with ignored cont
      · simp only [has_add low known high, true_or, true_iff]
        exact ⟨cont, ignored.imp_right And.symm⟩
      · rw [not_not.mp cont]
        simp [never]
      · simp only [has_remove low known high, ne_eq, not_true, false_and, false_iff]
        exact fun ⟨_, again⟩ => ignored (again.imp_right And.symm)
  · rw [update_of_ne same]
    obtain ⟨caught, ignored⟩ := agrees
    constructor
    · rw [← caught]
      split_ifs <;> simp [has_add low known high, has_remove low known high, same]
    · rw [← ignored]
      split_ifs <;> simp [has_add low known high, has_remove low known high, same]

lemma Agrees.fatalsig {signum : Nat} (low : 1 ≤ signum)
    (acted : ¬ IgnoredByDefault signum) : (u.fatalsig signum).Agrees sig := by
  have high := Nat.le_of_lt high
  unfold Agrees
  simp only [SigState.fatalsig, has_remove low known high]
  by_cases same : sig = signum
  · subst same
    simp [acted]
  · simp only [ne_eq, same, not_false_iff, true_and, update_of_ne]
    exact agrees

lemma Agrees.resetCaught {nc : Nat} (low : 1 ≤ nc) (caught : Has u.p_sigcatch nc) :
    (u.resetCaught nc).Agrees sig := by
  have high := Nat.le_of_lt high
  unfold Agrees
  simp only [SigState.resetCaught, has_remove low known high]
  by_cases same : sig = nc
  · subst same
    obtain ⟨handled, ignoring⟩ := agrees
    constructor
    · simp
    · split_ifs with ignored
      · simp [has_add low known high, ignored]
      · have before : ¬ Has u.p_sigignore sig := by tauto
        simp only [before, update_self, false_iff]
        rintro ⟨cont, wrong | ⟨_, default⟩⟩
        · cases wrong
        · exact ignored ⟨default, cont⟩
  · obtain ⟨handled, ignoring⟩ := agrees
    rw [update_of_ne same, ← handled, ← ignoring]
    constructor
    · simp [same]
    · split_ifs <;> simp [has_add low known high, same]

end

lemma oldmask_set (flags : Word) : (flags ||| SAS_OLDMASK) &&& SAS_OLDMASK ≠ 0 := by
  intro clear
  have bit : ((flags ||| SAS_OLDMASK) &&& SAS_OLDMASK).getLsbD 0 = true := by simp
  rw [clear] at bit
  cases bit

lemma sigaction_call (u : SigState) (signum : Int) (nsa : Option Sigaction) (fault : Bool) :
    (u.sigaction signum nsa fault).call = u.call := by
  unfold sigaction
  split_ifs
  · rfl
  · rfl
  · rfl
  · cases nsa with
    | none => rfl
    | some sa => exact (u.setsigvec_rest signum.toNat sa).2.2.2

namespace Invariant

variable {u : SigState}

section

variable (inv : u.Invariant)
include inv

lemma never : ¬ Has u.p_sigignore SIGCONT :=
  fun has => ((inv.agrees SIGCONT (by decide) (by decide)).2.mp has).1 rfl

lemma setsigvec {signum : Nat} (low : 1 ≤ signum) (high : signum < NSIG)
    (kill : signum ≠ SIGKILL) (stop : signum ≠ SIGSTOP) (sa : Sigaction) :
    (u.setsigvec signum sa).Invariant := by
  have bit := clean_sigmask low kill stop
  have masks : (u.setsigvec signum sa).u_sigmask =
      update u.u_sigmask signum (sa.sa_mask &&& ~~~ sigcantmask) := by
    unfold SigState.setsigvec
    split_ifs <;> rfl
  obtain ⟨mask, oldmask, psflags, call⟩ := u.setsigvec_rest signum sa
  constructor
  · constructor
    · rw [mask]
      exact inv.mask
    · intro sig index
      rw [masks]
      by_cases same : sig = signum
      · rw [same, update_self]
        exact clean_strip _
      · rw [update_of_ne same]
        exact inv.handlers sig index
    · rw [oldmask, psflags]
      exact inv.old
    · rw [setsigvec_ignore]
      split_ifs
      · exact inv.ignore.or bit
      · exact inv.ignore
      · exact inv.ignore.and _
    · rw [setsigvec_catch]
      split_ifs
      · exact inv.caught.or bit
      · exact inv.caught.and _
  · intro sig known index
    exact (inv.agrees sig known index).setsigvec known index low sa inv.never
  · have apart : NSIG ≠ signum := by omega
    rw [setsigvec_catch]
    split_ifs
    · rw [has_add low (by decide) (by decide)]
      exact not_or.mpr ⟨apart, inv.bound⟩
    · rw [has_remove low (by decide) (by decide)]
      exact fun both => inv.bound both.2
  · rw [setsigvec_signal, update_of_ne kill.symm]
    exact inv.kill
  · rw [setsigvec_signal, update_of_ne stop.symm]
    exact inv.stop
  · rw [call, psflags]
    exact inv.asleep

lemma sigaction (signum : Int) (nsa : Option Sigaction) (fault : Bool) :
    (u.sigaction signum nsa fault).Invariant := by
  unfold SigState.sigaction
  split_ifs with range reserved faulted
  · exact inv
  · exact inv
  · exact inv
  · cases nsa with
    | none => exact inv
    | some sa =>
      simp only [isSome_some, true_and, NSIG, SIGKILL, SIGSTOP] at range reserved
      exact inv.setsigvec (by omega) (by rw [NSIG]; omega) (by rw [SIGKILL]; omega)
        (by rw [SIGSTOP]; omega) sa

lemma fatalsig : (u.fatalsig SIGILL).Invariant where
  mask := inv.mask.and _
  handlers := inv.handlers
  old := inv.old
  ignore := inv.ignore.and _
  caught := inv.caught.and _
  agrees sig known high := (inv.agrees sig known high).fatalsig known high (by decide) (by decide)
  bound has := inv.bound ((has_remove (by decide) (by decide) (by decide)).mp has).2
  kill := inv.kill
  stop := inv.stop
  asleep := inv.asleep

lemma resetCaught {nc : Nat} (low : 1 ≤ nc) (caught : Has u.p_sigcatch nc) :
    (u.resetCaught nc).Invariant := by
  have kill : nc ≠ SIGKILL := fun same => inv.caught.1 (same ▸ caught)
  have stop : nc ≠ SIGSTOP := fun same => inv.caught.2 (same ▸ caught)
  constructor
  · constructor
    · exact inv.mask
    · exact inv.handlers
    · exact inv.old
    · simp only [SigState.resetCaught]
      split_ifs
      · exact inv.ignore.or (clean_sigmask low kill stop)
      · exact inv.ignore
    · exact inv.caught.and _
  · intro sig known index
    exact (inv.agrees sig known index).resetCaught known index low caught
  · exact fun has => inv.bound ((has_remove low (by decide) (by decide)).mp has).2
  · exact (update_of_ne kill.symm _ _).trans inv.kill
  · exact (update_of_ne stop.symm _ _).trans inv.stop
  · exact inv.asleep

lemma resetAll : u.resetAll.Invariant ∧ u.resetAll.call = u.call := by
  fun_induction SigState.resetAll u with
  | case1 u done => exact ⟨inv, rfl⟩
  | case2 u caught ih =>
    obtain ⟨low, has⟩ := ffs_has caught
    exact ih (inv.resetCaught low has)

lemma exec (user : u.call = .user) (dataEnd : Word) : { u.execsigs with dataEnd }.Invariant := by
  obtain ⟨after, call⟩ := inv.resetAll
  have clear : 0 &&& SAS_OLDMASK = 0 := by decide
  exact { after with
    old := fun set => absurd clear set
    asleep := fun asleep => nomatch (call.trans user).symm.trans asleep }

lemma sigprocmask (how : How) (set : Word) : (u.sigprocmask how set).Invariant := by
  cases how with
  | SIG_BLOCK => exact { inv with mask := inv.mask.or (clean_strip _) }
  | SIG_UNBLOCK => exact { inv with mask := inv.mask.and _ }
  | SIG_SETMASK => exact { inv with mask := clean_strip _ }
  | other => exact inv

lemma suspendMask (nmask : Word) (call : Call) : { u.suspendMask nmask with call }.Invariant :=
  { inv with
    mask := clean_strip _
    old := fun _ => inv.mask
    asleep := fun _ => oldmask_set u.u_psflags }

lemma pselectReturn (asleep : u.call = .pselect) : u.pselectReturn.Invariant :=
  { inv with mask := inv.old (inv.asleep asleep), asleep := nofun }

lemma sigreturn (onstack : Bool) (mask : Word) : (u.sigreturn onstack mask).Invariant :=
  { inv with mask := clean_strip _ }

lemma postsig {sig : Nat} (taken : u.Delivers sig) : (u.postsig sig).Invariant := by
  obtain ⟨low, high, _, handled, _⟩ := taken
  have kill : sig ≠ SIGKILL := fun same => handled (same ▸ inv.kill)
  have stop : sig ≠ SIGSTOP := fun same => handled (same ▸ inv.stop)
  have clear : (u.u_psflags &&& ~~~ SAS_OLDMASK) &&& SAS_OLDMASK = 0 := by
    rw [BitVec.and_assoc]
    exact BitVec.and_zero
  exact { inv with
    mask := inv.mask.or ((inv.handlers sig high).or (clean_sigmask low kill stop))
    old := fun set => absurd clear set
    asleep := nofun }

lemma act {v : SigState} (a : Act) (done : u.act a = some v) : v.Invariant := by
  cases a <;> obtain ⟨call, ⟨⟩⟩ := ite_none_right_eq_some.mp done
  case sigaction signum nsa fault => exact inv.sigaction signum nsa fault
  case sigprocmask how set => exact inv.sigprocmask how set
  case sigsuspend nmask => exact inv.suspendMask nmask _
  case sigwait => exact inv
  case pselect sigmsk => exact inv.suspendMask sigmsk _
  case pselectReturn => exact inv.pselectReturn call
  case sigreturn onstack mask => exact inv.sigreturn onstack mask
  case exec dataEnd => exact inv.exec call dataEnd
  case fatalsig => exact inv.fatalsig

lemma moves {v : SigState} (moves : Moves u v) : v.Invariant := by
  cases moves with
  | stays => exact inv
  | acts a done => exact inv.act a done
  | handles taken => exact inv.postsig taken
  | dies taken => exact (inv.postsig taken).fatalsig

end

end Invariant

end SigState

def Invariant (s : System P) : Prop := ∀ p u, s p = some u → u.Invariant

lemma boot_invariant (p : P) (dataEnd : Word) : Invariant (boot p dataEnd) := by
  intro q u found
  by_cases same : q = p
  · rw [boot, same, update_self] at found
    cases found
    exact SigState.siginit_invariant dataEnd
  · rw [boot, update_of_ne same] at found
    cases found

variable {s : System P}

lemma step_invariant {L : Layout P} {t : System P} {a : Label P} (inv : Invariant s)
    (calm : Calm s a) (step : Step L s a t) : Invariant t := by
  intro q v after
  obtain ⟨r, x, before, moves⟩ := step_moves calm step after
  exact (inv r x before).moves moves

def Disposing (_ : System P) : Label P → Prop
  | .act _ (.sigaction _ _ _) => True
  | .act _ (.exec _) => True
  | .act _ .fatalsig => True
  | .fork _ _ => True
  | .exit _ => True
  | _ => False

instance (s : System P) (a : Label P) : Decidable (Disposing s a) := by
  unfold Disposing; split <;> infer_instance

instance (s : System P) (a : Label P) : Decidable (Calm s a) := by
  unfold Calm; split <;> infer_instance

omit [DecidableEq P] in
lemma Disposing.calm {a : Label P} (disposing : Disposing s a) : Calm s a := by
  cases a with
  | deliver => cases disposing
  | _ => trivial

lemma reached_invariant {L : Layout P} {first : P} {dataEnd : Word} {as : List (Label P)}
    (run : Run (Step L) Calm (boot first dataEnd) as s) : Invariant s :=
  run_invariant Invariant (fun _ _ _ inv calm step => step_invariant inv calm step) run
    (boot_invariant first dataEnd)

/-- In every state reached from `siginit` by `sigaction`, `exec`, `fork` and
`fatalsig`, the sets of each process agree with its handlers. -/
theorem dispositions_agree (L : Layout P) (first : P) (dataEnd : Word) (as : List (Label P))
    (s : System P) (run : Run (Step L) Disposing (boot first dataEnd) as s) (p : P) (u : SigState)
    (alive : s p = some u) (sig : Nat) (low : 1 ≤ sig) (high : sig < NSIG) :
    (Has u.p_sigcatch sig ↔ u.u_signal sig ≠ SIG_DFL ∧ u.u_signal sig ≠ SIG_IGN) ∧
    (Has u.p_sigignore sig ↔ sig ≠ SIGCONT ∧
      (u.u_signal sig = SIG_IGN ∨ u.u_signal sig = SIG_DFL ∧ IgnoredByDefault sig)) := by
  have inv := reached_invariant (run.mono fun _ _ => Disposing.calm)
  exact (inv p u alive).agrees sig low high

/-- Two processes whose entries and `u.` area lie in the RAM of the kernel. -/
def sampleLayout : Layout Bool where
  p_sigmask p := if p then 0x80001100 else 0x80001000
  p_sigignore p := if p then 0x80001104 else 0x80001004
  p_sigcatch p := if p then 0x80001108 else 0x80001008
  u_signal i := 0x80007000 + 4 * BitVec.ofNat 32 i
  u_sigmask i := 0x80007080 + 4 * BitVec.ofNat 32 i
  u_oldmask := 0x80007100
  u_psflags := 0x80007104
  entries := by decide
  handlers := by decide
  flags := by decide

/-- A child that has inherited a handler for `SIGCHLD` and executes a file ignores
the signal by default. -/
theorem dispositions_agree_child : ∃ s u, Run (Step sampleLayout) Disposing (boot false 0x7f009000)
      [.act false (.sigaction 20 (some ⟨0x7f008100, 0⟩) false), .fork false true,
        .act true (.exec 0x7f00a000)] s ∧
    s true = some u ∧ Has u.p_sigignore 20 ∧ ¬ Has u.p_sigcatch 20 ∧ u.u_signal 20 = SIG_DFL := by
  exact Exists.imp (fun s ⟨run, result⟩ => (map_eq_some_iff.mp result).imp fun u ⟨alive, handler⟩ =>
      have agrees := dispositions_agree sampleLayout false _ _ s run true u alive 20 (by decide)
        (by decide)
      ⟨run, alive, agrees.2.mpr ⟨by decide, .inr ⟨handler, by decide⟩⟩,
        fun has => (agrees.1.mp has).1 handler, handler⟩)
    (run_of_reached _
      (by decide +kernel))

/-- In every state reached from `siginit`, as long as every frame is built in user
data memory, neither `SIGKILL` nor `SIGSTOP` is blocked, ignored or caught. -/
theorem kill_and_stop_clean (L : Layout P) (first : P) (dataEnd : Word) (as : List (Label P))
    (s : System P) (run : Run (Step L) Calm (boot first dataEnd) as s) (p : P) (u : SigState)
    (alive : s p = some u) :
    u.Sound ∧ u.u_signal SIGKILL = SIG_DFL ∧ u.u_signal SIGSTOP = SIG_DFL := by
  have inv := reached_invariant run p u alive
  exact ⟨inv.toSound, inv.kill, inv.stop⟩

/-- A process waits for a signal with all others blocked and takes it. -/
theorem kill_and_stop_clean_suspended : ∃ s u, Run (Step sampleLayout) Calm (boot false 0x7f009000)
      [.act false (.sigaction 30 (some ⟨0x7f008100, 0xffffffff⟩) false),
        .act false (.sigsuspend 0xdfffffff), .deliver false 30 (fun _ => 0x7f01ff00)] s ∧
    s false = some u ∧ u.p_sigmask = ~~~ sigcantmask ∧ u.Sound := by
  exact Exists.imp (fun s ⟨run, result⟩ => (map_eq_some_iff.mp result).imp fun u ⟨alive, mask⟩ =>
      ⟨run, alive, mask, (kill_and_stop_clean sampleLayout false _ _ s run false u alive).1⟩)
    (run_of_reached _
      (by decide))

/-- With its stack pointer in the RAM of the kernel, a process has its first
register stored over its own mask, and blocks `SIGKILL`. -/
theorem mask_overwritten : ∃ s u, Run (Step sampleLayout) (fun _ _ => True) (boot false 0x7f009000)
      [.act false (.sigaction 30 (some ⟨0x7f008100, 0⟩) false),
        .deliver false 30 (fun r => if r = FRAME_SP then 0x80001080 else 0xffffffff)] s ∧
    s false = some u ∧ Has u.p_sigmask SIGKILL := by
  exact Exists.imp (fun s ⟨run, result⟩ => (map_eq_some_iff.mp result).imp fun u ⟨alive, mask⟩ =>
      ⟨run, alive, by rw [mask]; decide⟩)
    (run_of_reached _ (P := fun s => (s false).map (·.p_sigmask) = some 0xffffffff)
      (by decide))

end Signals
