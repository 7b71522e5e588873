import Mathlib.Tactic

/-!
# The usage decay of sleeping processes

Once a second `schedcpu` lets the usage of every process decay, but it passes over
those that have slept for more than one second; `updatepri` is to make up for that
when such a process is woken. `SCHMAG` is the text `8/10`: after `*` it takes eight
tenths, before `*` it is zero. Priorities are left out.
-/

namespace UsageDecay

/-- A process that sleeps. -/
structure Proc where
  p_cpu : ℕ
  p_slptime : ℕ
  p_nice : Int
  deriving DecidableEq

def clamp (a : Int) : ℕ := if a < 0 then 0 else if a > 255 then 255 else a.toNat

namespace Proc

def schedcpu (p : Proc) : Proc :=
  let p := if p.p_slptime ≠ 127 then { p with p_slptime := p.p_slptime + 1 } else p
  if p.p_slptime > 1 then p
  else { p with p_cpu := clamp ((p.p_cpu % 256 * 8 / 10 : ℕ) + p.p_nice) }

/-- The loop of `updatepri`, which is called for `p_slptime > 1` only. -/
def replay : ℕ → ℕ → ℕ
  | 0, a => a
  | p_slptime + 1, a => if a ≠ 0 ∧ p_slptime ≠ 0 then replay p_slptime (8 / 10 * a) else a

def updatepri (p : Proc) : Proc :=
  { p with p_cpu := clamp (replay (p.p_slptime - 1) (p.p_cpu % 256)) }

def wakeup (p : Proc) : Proc :=
  { if p.p_slptime > 1 then p.updatepri else p with p_slptime := 0 }

end Proc

open Proc

/-- One decay of a process with `p_nice = 0`. -/
def decay (a : ℕ) : ℕ := a * 8 / 10

lemma clamp_byte {a : ℕ} (byte : a ≤ 255) : clamp a = a := by
  simp only [clamp]
  split_ifs <;> omega

/-- Only the first pass counts. -/
lemma schedcpu_iterate {cpu : ℕ} (byte : cpu ≤ 255) (k : ℕ) :
    schedcpu^[k + 1] ⟨cpu, 0, 0⟩ = ⟨decay cpu, min (k + 1) 127, 0⟩ := by
  induction k with
  | zero =>
    have kept : clamp (cpu * 8 / 10 : ℕ) = decay cpu := clamp_byte (by omega)
    change mk (clamp ((cpu % 256 * 8 / 10 : ℕ) + 0)) 1 0 = _
    rw [Nat.mod_eq_of_lt (by omega), Int.add_zero, kept]
    rfl
  | succ k ih =>
    rw [Function.iterate_succ_apply', ih]
    simp only [schedcpu]
    split_ifs with more slept slept
    · simp only [mk.injEq, true_and, and_true]
      omega
    · simp only at slept
      omega
    · simp only [mk.injEq, true_and, and_true]
      omega
    · simp only at slept
      omega

lemma replay_zero (n : ℕ) : replay n 0 = 0 := by
  cases n <;> simp [replay]

/-- The first round of the loop already gives zero. -/
lemma replay_add_two (n a : ℕ) : replay (n + 2) a = 0 := by
  by_cases zero : a = 0
  · rw [zero, replay_zero]
  · simp [replay]

lemma woken_p_cpu {cpu k : ℕ} (byte : cpu ≤ 255) (slept : 2 ≤ k) :
    (schedcpu^[k] ⟨cpu, 0, 0⟩).wakeup.p_cpu = if k = 2 then decay cpu else 0 := by
  have small : decay cpu ≤ 255 := by
    unfold decay
    omega
  obtain ⟨k, rfl⟩ := Nat.exists_eq_add_of_le' slept
  rw [schedcpu_iterate byte]
  have sleeps : min (k + 1 + 1) 127 > 1 := by omega
  simp only [wakeup, updatepri, Nat.mod_eq_of_lt (Nat.lt_succ_of_le small)]
  split_ifs with two
  · obtain rfl : k = 0 := by omega
    simp [replay, clamp_byte small]
  · obtain ⟨n, rounds⟩ := Nat.exists_eq_add_of_le' (by omega : 2 ≤ min (k + 1 + 1) 127 - 1)
    rw [rounds, replay_add_two]
    rfl

/-- A woken process has the usage of an idle one only where nothing is left of it, or
where nothing was to be replayed. -/
theorem woken_usage_iff {cpu k : ℕ} (byte : cpu ≤ 255) (slept : 2 ≤ k) :
    (schedcpu^[k] ⟨cpu, 0, 0⟩).wakeup.p_cpu = decay^[k] cpu ↔
      if k = 2 then cpu ≤ 1 else decay^[k] cpu = 0 := by
  rw [woken_p_cpu byte slept]
  split_ifs with two
  · subst two
    simp only [Function.iterate_succ_apply, Function.iterate_zero, id, decay]
    omega
  · exact eq_comm

theorem woken_usage_iff_long :
    (schedcpu^[21] ⟨255, 0, 0⟩).wakeup.p_cpu = decay^[21] 255 ↔ decay^[21] 255 = 0 :=
  woken_usage_iff (by decide) (by decide)

theorem woken_usage_lost : (schedcpu^[3] ⟨255, 0, 0⟩).wakeup.p_cpu = 0 ∧ decay^[3] 255 = 130 := by
  decide

end UsageDecay
