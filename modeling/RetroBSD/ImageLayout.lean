import RetroBSD.Runs

/-!
# The image of a process in memory

Data grow up from `USER_DATA_START`, the stack grows down from `USER_DATA_END`.
Four places set the sizes: `getxfile`, `brk`, the system call entry of
`exception`, and `sendsig` on the normal stack. Their numbers are 32-bit words
and wrap. The contents of memory, the test for a busy text file and the limits
of `setrlimit` are left out.
-/

namespace ImageLayout

open Runs

abbrev Word := BitVec 32

abbrev USER_DATA_START : Word := 0x7f008000
abbrev USER_DATA_END : Word := 0x7f020000
abbrev MAXMEM : Word := 98304
abbrev SSIZE : Word := 2048

/-- The size of the frame that `sendsig` builds. -/
abbrev SIGFRAME : Word := 152

inductive Errno where
  | ENOMEM

inductive Signal where
  | SIGSEGV
  | SIGILL

structure Image where
  p_daddr : Word
  p_saddr : Word
  p_dsize : Word
  p_ssize : Word
  u_tsize : Word
  u_dsize : Word
  u_ssize : Word
  deriving DecidableEq

inductive Magic where
  | OMAGIC
  | NMAGIC
  deriving DecidableEq

structure Exec where
  a_magic : Magic
  a_text : Word
  a_data : Word
  a_bss : Word

/-- The text of an impure image is loaded with its data. -/
def Exec.pure (ep : Exec) : Exec :=
  match ep.a_magic with
  | .OMAGIC => { ep with a_data := ep.a_data + ep.a_text, a_text := 0 }
  | .NMAGIC => ep

namespace Image

def getxfile (m : Image) (ep : Exec) (nargc : Word) : Except Errno Image :=
  let ts := ep.pure.a_text
  let ds := ep.pure.a_data + ep.pure.a_bss
  let ss := SSIZE + nargc
  if ts + ds + ss > MAXMEM then .error .ENOMEM
  else .ok
    { m with
      p_dsize := ds, p_daddr := USER_DATA_START, p_ssize := ss, p_saddr := USER_DATA_END - ss
      u_tsize := ts, u_dsize := ds, u_ssize := ss }

/-- The new data size of `brk`, a signed number that is cut off at zero. -/
def newsize (m : Image) (naddr : Word) : Word :=
  if (naddr - m.p_daddr).slt 0 then 0 else naddr - m.p_daddr

def brk (m : Image) (naddr : Word) : Except Errno Image :=
  if m.u_tsize + m.newsize naddr + m.u_ssize > MAXMEM then .error .ENOMEM
  else .ok { m with p_dsize := m.newsize naddr, u_dsize := m.newsize naddr }

/-- Expand the stack to `sp`. -/
def expand (m : Image) (sp : Word) : Image :=
  if m.p_ssize < USER_DATA_END - sp then
    { m with p_ssize := USER_DATA_END - sp, p_saddr := sp, u_ssize := USER_DATA_END - sp }
  else m

/-- The stack check at the entry of a system call. -/
def exception (m : Image) (sp : Word) : Except Signal Image :=
  if sp < m.p_daddr + m.u_dsize then .error .SIGSEGV else .ok (m.expand sp)

/-- The stack check of `sendsig` for the user's stack pointer `sp`. -/
def sendsig (m : Image) (sp : Word) : Except Signal Image :=
  let sfp := sp - SIGFRAME
  if sfp < m.p_daddr + m.u_dsize then .error .SIGILL else .ok (m.expand sfp)

end Image

inductive Label where
  | getxfile (ep : Exec) (nargc : Word)
  | brk (naddr : Word)
  | exception (sp : Word)
  | sendsig (sp : Word)

/-- What a call or a signal makes of the image; nothing, if it fails. -/
def exec (m : Image) : Label → Image
  | .getxfile ep nargc => (m.getxfile ep nargc).toOption.getD m
  | .brk naddr => (m.brk naddr).toOption.getD m
  | .exception sp => (m.exception sp).toOption.getD m
  | .sendsig sp => (m.sendsig sp).toOption.getD m

def Step (m : Image) (a : Label) (m' : Image) : Prop := some (exec m a) = some m'

/-- The sizes of a header and of the arguments do not wrap when they are added. -/
def Exec.Bounded (ep : Exec) (nargc : Word) : Prop :=
  ep.a_text.toNat + ep.a_data.toNat + ep.a_bss.toNat + SSIZE.toNat + nargc.toNat < 2 ^ 32

/-- Sizes do not wrap, and no stack pointer is above user memory or so low that the frame of a
signal wraps. -/
def Calm (_ : Image) : Label → Prop
  | .getxfile ep nargc => ep.Bounded nargc
  | .brk _ => True
  | .exception sp => sp ≤ USER_DATA_END
  | .sendsig sp => SIGFRAME ≤ sp ∧ sp - SIGFRAME ≤ USER_DATA_END

/-- Data and stack lie where they should, the two copies of the sizes agree, and the stack begins
behind the data. The text is counted too. -/
structure Laid (m : Image) : Prop where
  data : m.p_daddr = USER_DATA_START
  stack : m.p_saddr = USER_DATA_END - m.p_ssize
  dsize : m.p_dsize = m.u_dsize
  ssize : m.p_ssize = m.u_ssize
  apart : USER_DATA_START.toNat + m.p_dsize.toNat ≤ m.p_saddr.toNat
  inside : m.p_saddr ≤ USER_DATA_END
  text : m.u_tsize ≤ MAXMEM

variable {m m' : Image} {sp : Word}

lemma getxfile_laid {ep : Exec} {nargc : Word} (small : ep.Bounded nargc)
    (done : m.getxfile ep nargc = .ok m') : Laid m' := by
  unfold Image.getxfile at done
  dsimp only at done
  split_ifs at done with fits
  cases done
  unfold Exec.Bounded at small
  obtain ⟨magic, text, data, bss⟩ := ep
  constructor <;> dsimp only
  case apart | inside | text => cases magic <;> simp only [Exec.pure] at * <;> bv_omega

lemma brk_laid {naddr : Word} (laid : Laid m) (done : m.brk naddr = .ok m') : Laid m' := by
  have size : (m.newsize naddr).toNat < 2 ^ 31 := by
    unfold Image.newsize
    split_ifs with negative
    · decide
    · simp only [BitVec.slt, decide_eq_true_eq, BitVec.toInt_eq_toNat_cond] at negative
      bv_omega
  obtain ⟨data, stack, -, ssize, -, inside, text⟩ := laid
  unfold Image.brk at done
  split_ifs at done with fits
  cases done
  refine ⟨data, stack, rfl, ssize, ?_, inside, text⟩
  bv_omega

/-- The stack is expanded to a place between data and the end of user memory. -/
lemma expand_laid (laid : Laid m) (above : ¬ sp < m.p_daddr + m.u_dsize)
    (below : sp ≤ USER_DATA_END) : Laid (m.expand sp) := by
  obtain ⟨data, stack, dsize, ssize, apart, inside, text⟩ := laid
  unfold Image.expand
  split_ifs with grows
  · refine ⟨data, ?_, dsize, rfl, ?_, below, text⟩
    · bv_omega
    · bv_omega
  · exact ⟨data, stack, dsize, ssize, apart, inside, text⟩

/-- A call that fails changes nothing. -/
lemma laid_of_result {ε : Type} {result : Except ε Image} (laid : Laid m)
    (success : ∀ m', result = .ok m' → Laid m') : Laid (result.toOption.getD m) := by
  cases result with
  | error e => exact laid
  | ok m' => exact success m' rfl

lemma exception_laid (laid : Laid m) (below : sp ≤ USER_DATA_END)
    (done : m.exception sp = .ok m') : Laid m' := by
  unfold Image.exception at done
  split_ifs at done with low
  rw [← Except.ok.inj done]
  exact expand_laid laid low below

lemma sendsig_laid (laid : Laid m) (below : sp - SIGFRAME ≤ USER_DATA_END)
    (done : m.sendsig sp = .ok m') : Laid m' := by
  unfold Image.sendsig at done
  dsimp only at done
  split_ifs at done with low
  rw [← Except.ok.inj done]
  exact expand_laid laid low below

lemma step_laid {a : Label} (laid : Laid m) (calm : Calm m a) (step : Step m a m') : Laid m' := by
  cases step
  cases a with
  | getxfile ep nargc => exact laid_of_result laid fun _ => getxfile_laid calm
  | brk naddr => exact laid_of_result laid fun _ => brk_laid laid
  | exception sp => exact laid_of_result laid fun _ => exception_laid laid calm
  | sendsig sp => exact laid_of_result laid fun _ => sendsig_laid laid calm.2

/-- After an `exec` whose sizes do not wrap, in every state that is reached by further calls and
signals, data and stack lie at their places, the sizes in the process table and in the user area
agree, and the stack lies between the data and the end of user memory. -/
theorem image_layout (before start : Image) (ep : Exec) (nargc : Word) (small : ep.Bounded nargc)
    (loaded : before.getxfile ep nargc = .ok start) (as : List Label) (m : Image)
    (run : Run Step Calm start as m) :
    m.p_daddr = USER_DATA_START ∧ m.p_saddr = USER_DATA_END - m.p_ssize ∧ m.p_dsize = m.u_dsize ∧
      m.p_ssize = m.u_ssize ∧ USER_DATA_START.toNat + m.p_dsize.toNat ≤ m.p_saddr.toNat ∧
      m.p_saddr.toNat ≤ USER_DATA_END.toNat := by
  have laid := run_invariant Laid (fun _ _ _ laid calm step => step_laid laid calm step) run
    (getxfile_laid small loaded)
  exact ⟨laid.data, laid.stack, laid.dsize, laid.ssize, laid.apart, laid.inside⟩

/-- An image of four kilobytes, on top of nothing. -/
def sampleImage : Image := ⟨0, 0, 0, 0, 0, 0, 0⟩

def sampleExec : Exec := ⟨.OMAGIC, 2048, 1024, 1024⟩

def sampleStart : Image := exec sampleImage (.getxfile sampleExec 64)

instance (ep : Exec) (nargc : Word) : Decidable (ep.Bounded nargc) :=
  inferInstanceAs (Decidable (_ < _))

instance (m : Image) (a : Label) : Decidable (Calm m a) := by
  cases a <;> unfold Calm <;> infer_instance

def sampleCalls : List Label :=
  [.brk 0x7f00a000, .exception 0x7f01e000, .sendsig 0x7f01e000, .brk 0, .exception 0]

theorem image_layout_sample : ∃ m, Run Step Calm sampleStart sampleCalls m ∧ m.p_ssize = 0x2098 ∧
      USER_DATA_START.toNat + m.p_dsize.toNat ≤ m.p_saddr.toNat := by
  exact Exists.imp (fun m ⟨run, size⟩ => ⟨run, size,
      (image_layout sampleImage sampleStart sampleExec 64 (by decide) rfl sampleCalls m run).2.2.2.2.1⟩)
    (run_of_reached _ (by decide))

/-- A system call with a stack pointer above user memory: the size of the stack wraps, and the
stack lies in the memory of the kernel. -/
theorem stack_above_user_memory :
    ∃ m, Run Step (fun _ _ => True) sampleStart [.exception 0x80000000] m ∧
      m.p_ssize = 0xff020000 ∧ m.p_saddr = 0x80000000 ∧ ¬ m.p_saddr ≤ USER_DATA_END :=
  ⟨_, .cons trivial rfl (.nil _), by decide, by decide, by decide⟩

end ImageLayout
