import RetroBSD.SignalDispositions

/-!
# The mask after a handler

A process takes signals, and its handlers return through `sigreturn` with the
context that `sendsig` built. The state is extended by that stack of contexts and
by the mask in force before the system call in progress, a history that no step
reads. `sigsuspend` and `pselect` hand the mask to restore over in `u_oldmask`;
only a delivery clears the flag, so that a `pselect` that ends without one leaves
its mask to a later delivery. Handlers that leave by another way are left out.
-/

namespace Signals

open Runs Option
open ImageLayout (Word USER_DATA_START USER_DATA_END)

/-- A context that a handler will return through, and the mask that was in force
before the system call or instant of the delivery. -/
structure Context where
  sc_onstack : Bool
  sc_mask : Word
  before : Word

structure Handling where
  u : SigState
  contexts : List Context
  before : Word

/-- The calls that change the mask, and `sigaction`. -/
inductive Turn where
  | sigaction (signum : Int) (nsa : Option Sigaction) (fault : Bool)
  | sigprocmask (how : How) (set : Word)
  | sigsuspend (nmask : Word)
  | pselect (sigmsk : Word)
  | pselectReturn
  | deliver (sig : Nat) (regs : Nat → Word)
  | sigreturn

variable {P : Type}

namespace Handling

/-- A step that ends in user mode: the mask now in force is the one before what follows. -/
def settle (h : Handling) (u : SigState) : Handling := { h with u := u, before := u.p_sigmask }

/-- A step that starts or ends a call which has changed the mask. -/
def during (h : Handling) (u : SigState) : Handling := { h with u := u }

/-- `postsig` and `sendsig`, with the frame stored wherever it lies. -/
def handle (h : Handling) (L : Layout P) (p : P) (sig : Nat) (regs : Nat → Word) : Handling :=
  let f := h.u.frame regs
  let u := ((h.u.postsig sig).overArea L f).overEntry L p f
  { u := u
    contexts := ⟨f.sc_onstack, f.sc_mask, h.before⟩ :: h.contexts
    before := u.p_sigmask }

/-- `sigreturn` with the context on top. -/
def handlerReturn (h : Handling) : Option Handling :=
  match h.contexts with
  | [] => none
  | c :: rest =>
    (h.u.act (.sigreturn c.sc_onstack c.sc_mask)).map fun u =>
      { u := u, contexts := rest, before := u.p_sigmask }

/-- One step. A process whose stack is trashed is killed and takes no more steps. -/
def exec (L : Layout P) (p : P) (h : Handling) : Turn → Option Handling
  | .sigaction signum nsa fault => (h.u.act (.sigaction signum nsa fault)).map h.settle
  | .sigprocmask how set => (h.u.act (.sigprocmask how set)).map h.settle
  | .sigsuspend nmask => (h.u.act (.sigsuspend nmask)).map h.during
  | .pselect sigmsk => (h.u.act (.pselect sigmsk)).map h.during
  | .pselectReturn => (h.u.act .pselectReturn).map h.during
  | .deliver sig regs =>
    if h.u.Delivers sig ∧ regs FRAME_SP &&& 3 = 0 ∧ ¬ h.u.Trashed regs then
      some (h.handle L p sig regs)
    else none
  | .sigreturn => h.handlerReturn

def Step (L : Layout P) (p : P) (h : Handling) (a : Turn) (k : Handling) : Prop :=
  exec L p h a = some k

/-- A delivery outside `sigsuspend` finds no mask of an earlier call, and its frame
lies in user data memory. -/
def Fresh (h : Handling) : Turn → Prop
  | .deliver _ regs =>
    (h.u.call = .sigsuspend ∨ h.u.u_psflags &&& SAS_OLDMASK = 0 ∨ h.u.u_oldmask = h.u.p_sigmask) ∧
    USER_DATA_START + SIGFRAME ≤ regs FRAME_SP ∧ regs FRAME_SP ≤ USER_DATA_END
  | _ => True

instance (h : Handling) (a : Turn) : Decidable (Fresh h a) := by
  unfold Fresh; split <;> infer_instance

def start (u : SigState) : Handling := { u := u, contexts := [], before := u.p_sigmask }

structure Invariant (h : Handling) : Prop where
  state : h.u.Invariant
  contexts : ∀ c ∈ h.contexts, c.sc_mask = c.before ∧ Clean c.sc_mask
  user : h.u.call = .user → h.before = h.u.p_sigmask
  suspended : h.u.call = .sigsuspend → h.u.u_psflags &&& SAS_OLDMASK ≠ 0
  saved : h.u.call ≠ .user → h.u.u_oldmask = h.before

variable {u : SigState}

lemma start_invariant (inv : u.Invariant) (user : u.call = .user) : (start u).Invariant where
  state := inv
  contexts := nofun
  user _ := rfl
  suspended asleep := nomatch user.symm.trans asleep
  saved away := absurd user away

namespace Invariant

variable {h k : Handling}

/-- A call that ends in user mode keeps the contexts and starts a new history. -/
lemma settle (inv : h.Invariant) {a : Act} (done : h.u.act a = some u)
    (user : u.call = .user) : (h.settle u).Invariant where
  state := inv.state.act a done
  contexts := inv.contexts
  user _ := rfl
  suspended asleep := nomatch user.symm.trans asleep
  saved away := absurd user away

/-- A call that saves the mask and goes to sleep. -/
lemma sleep (inv : h.Invariant) (user : h.u.call = .user) {a : Act}
    (done : h.u.act a = some u) (saved : u.u_oldmask = h.u.p_sigmask) (asleep : u.call ≠ .user)
    (flag : u.u_psflags &&& SAS_OLDMASK ≠ 0) : (h.during u).Invariant where
  state := inv.state.act a done
  contexts := inv.contexts
  user awake := absurd awake asleep
  suspended _ := flag
  saved _ := saved.trans (inv.user user).symm

lemma wake (inv : h.Invariant) (done : h.u.act .pselectReturn = some u) :
    (h.during u).Invariant := by
  have after := inv.state.act _ done
  obtain ⟨asleep, ⟨⟩⟩ := ite_none_right_eq_some.mp done
  have away : h.u.call ≠ .user := fun user => nomatch asleep.symm.trans user
  exact {
    state := after
    contexts := inv.contexts
    user := fun _ => (inv.saved away).symm
    suspended := nofun
    saved := fun away => absurd rfl away }

/-- The mask that a delivery saves is the one before the call in progress. -/
lemma returnmask_eq (inv : h.Invariant) {sig : Nat} {regs : Nat → Word}
    (taken : h.u.Delivers sig) (fresh : Fresh h (.deliver sig regs)) :
    h.u.returnmask = h.before := by
  obtain ⟨_, _, _, _, _, awake⟩ := taken
  unfold SigState.returnmask
  cases place : h.u.call with
  | user =>
    rw [inv.user place]
    split_ifs with flag
    · rcases fresh.1 with suspended | clear | same
      · cases place.symm.trans suspended
      · exact absurd clear flag
      · exact same
    · rfl
  | sigsuspend =>
    rw [if_pos (inv.suspended place)]
    exact inv.saved (fun user => nomatch place.symm.trans user)
  | pselect => exact absurd place awake

lemma returnmask_clean (inv : u.Invariant) : Clean u.returnmask := by
  unfold SigState.returnmask
  split_ifs with flag
  · exact inv.old flag
  · exact inv.mask

lemma deliver (inv : h.Invariant) {L : Layout P} {p : P} {sig : Nat} {regs : Nat → Word}
    (fresh : Fresh h (.deliver sig regs)) (taken : h.u.Delivers sig) :
    (h.handle L p sig regs).Invariant := by
  have inside := h.u.frame_inUserData fresh.2.1 fresh.2.2
  simp only [handle, SigState.overArea_eq inside, SigState.overEntry_eq inside]
  constructor
  · exact inv.state.postsig taken
  · rintro c (_ | ⟨_, member⟩)
    · exact ⟨inv.returnmask_eq taken fresh, returnmask_clean inv.state⟩
    · exact inv.contexts c member
  · exact fun _ => rfl
  · exact nofun
  · exact fun away => absurd rfl away

lemma handlerReturn (inv : h.Invariant) (done : h.handlerReturn = some k) :
    k.Invariant ∧ ∃ c, h.contexts.head? = some c ∧ k.u.p_sigmask = c.before := by
  unfold Handling.handlerReturn at done
  cases stack : h.contexts with
  | nil =>
    rw [stack] at done
    cases done
  | cons c rest =>
    rw [stack] at done
    obtain ⟨u, acted, rfl⟩ := map_eq_some_iff.mp done
    have after := inv.state.act _ acted
    obtain ⟨user, ⟨⟩⟩ := ite_none_right_eq_some.mp acted
    have contexts := inv.contexts
    rw [stack] at contexts
    obtain ⟨same, clean⟩ := contexts c List.mem_cons_self
    constructor
    · exact {
        state := after
        contexts := fun d member => contexts d (List.mem_cons_of_mem c member)
        user := fun _ => rfl
        suspended := fun asleep => nomatch user.symm.trans asleep
        saved := fun away => absurd user away }
    · exact ⟨c, rfl, clean.strip.trans same⟩

lemma step (inv : h.Invariant) {L : Layout P} {p : P} {a : Turn} (fresh : Fresh h a)
    (step : Step L p h a k) : k.Invariant := by
  cases a with
  | deliver sig regs =>
    obtain ⟨⟨taken, _⟩, ⟨⟩⟩ := ite_none_right_eq_some.mp step
    exact inv.deliver fresh taken
  | sigreturn => exact (inv.handlerReturn step).1
  | pselectReturn =>
    obtain ⟨u, done, rfl⟩ := map_eq_some_iff.mp step
    exact inv.wake done
  | sigsuspend | pselect =>
    obtain ⟨u, done, rfl⟩ := map_eq_some_iff.mp step
    obtain ⟨user, same⟩ := ite_none_right_eq_some.mp done
    cases same
    exact inv.sleep user done rfl nofun (SigState.oldmask_set _)
  | sigprocmask how set =>
    obtain ⟨u, done, rfl⟩ := map_eq_some_iff.mp step
    obtain ⟨user, same⟩ := ite_none_right_eq_some.mp done
    apply inv.settle done
    rw [← some.inj same, ← user]
    cases how <;> rfl
  | sigaction signum nsa fault =>
    obtain ⟨u, done, rfl⟩ := map_eq_some_iff.mp step
    obtain ⟨user, same⟩ := ite_none_right_eq_some.mp done
    apply inv.settle done
    rw [← some.inj same, ← user]
    exact h.u.sigaction_call signum nsa fault

end Invariant

end Handling

variable [DecidableEq P]

end Signals
