import Mathlib.Tactic

/-!
# Errors of pipe writes

`writep` of `sys/kernel/sys_pipe.c` against every behaviour of `rwip`. A pass is
what the loop meets each time round: the other end is closed, the pipe is full
and the writer sleeps, or there is room and `rwip` stores the chunk, or stores a
part of it and fails.
-/

namespace PipeErrors

abbrev MAXPIPSIZ : ℕ := 4096
abbrev EWOULDBLOCK : ℕ := 35
abbrev EPIPE : ℕ := 32

inductive Pass where
  | closed
  | full
  | stores
  /-- An error number is not zero. -/
  | fails (stored error : ℕ)

/-- The loop with `c` bytes to go: the value returned and the bytes stored. When the passes are
over the writer still sleeps. -/
def loop (passes : List Pass) (c error sent : ℕ) : Option (ℕ × ℕ) :=
  if c = 0 then some (error, sent)
  else
    match passes with
    | [] => none
    | .closed :: _ => some (EPIPE, sent)
    | .full :: passes => loop passes c error sent
    | .stores :: passes => loop passes (c - min c MAXPIPSIZ) 0 (sent + min c MAXPIPSIZ)
    | .fails stored e :: passes =>
      loop passes (c - min c MAXPIPSIZ) (e + 1) (sent + min stored (min c MAXPIPSIZ))

def writep (uio_resid i_size : BitVec 32) (nonblock : Bool) (passes : List Pass) : Option (ℕ × ℕ) :=
  if nonblock ∧ MAXPIPSIZ ≤ (i_size + uio_resid).toInt then some (EWOULDBLOCK, 0)
  else loop passes uio_resid.toNat 0 0

lemma loop_done (passes : List Pass) (error sent : ℕ) :
    loop passes 0 error sent = some (error, sent) := by
  unfold loop
  rfl

/-- Enough chunks that are stored whole end the loop without an error. -/
lemma loop_stores (k c error sent : ℕ) (some_ : 0 < c) (enough : c ≤ k * 4096) :
    loop (List.replicate k .stores) c error sent = some (0, sent + c) := by
  induction k generalizing c error sent with
  | zero => omega
  | succ k ih =>
    simp only [List.replicate_succ, loop, if_neg some_.ne']
    by_cases last : c ≤ MAXPIPSIZ
    · rw [min_eq_left last, Nat.sub_self, loop_done]
    · simp only [MAXPIPSIZ] at last
      rw [ih (c - min c 4096) 0 (sent + min c 4096) (by omega) (by omega)]
      exact congrArg (fun n => some _) (by omega)

lemma loop_chunk {passes : List Pass} {c sent : ℕ} (one : c ≤ MAXPIPSIZ)
    (done : loop passes c 0 0 = some (0, sent)) : sent = c := by
  obtain rfl | some_ := c.eq_zero_or_pos
  · rw [loop_done] at done
    cases done
    rfl
  induction passes with
  | nil => simp [loop, some_.ne'] at done
  | cons pass passes ih =>
    unfold loop at done
    rw [if_neg some_.ne'] at done
    cases pass with
    | closed => cases done
    | full => exact ih done
    | stores =>
      simp only [min_eq_left one, Nat.sub_self, loop_done, zero_add] at done
      cases done
      rfl
    | fails stored e => simp [min_eq_left one, loop_done] at done

end PipeErrors
