import RetroBSD.Runs

/-!
# The time of day

The seconds are in `time`, the ticks of the current second in `lbolt`. `hardclock`
advances both and works off what `adjtime` has left in `adjdelta`. System calls
here are made by the superuser with good addresses; what `adjtime` stores in
`olddelta` is left out, and no number overflows.
-/

namespace TimeOfDay

open Runs

abbrev hz : Int := 200
abbrev usechz : Int := (1000000 + hz - 1) / hz

structure Timeval where
  tv_sec : Int
  tv_usec : Int
  deriving DecidableEq

structure Clock where
  time : Timeval
  lbolt : Int
  adjdelta : Int
  deriving DecidableEq

namespace Clock

/-- The clock in ticks. -/
def ticks (c : Clock) : Int := c.time.tv_sec * hz + c.lbolt

/-- The part of `hardclock` that slews the clock. -/
def slew (c : Clock) : Clock :=
  if c.adjdelta = 0 then c
  else if c.adjdelta > 0 then { c with lbolt := c.lbolt + 1, adjdelta := c.adjdelta - 1 }
  else { c with lbolt := c.lbolt - 1, adjdelta := c.adjdelta + 1 }

def hardclock (c : Clock) : Clock :=
  let c := { c.slew with lbolt := c.slew.lbolt + 1 }
  if c.lbolt ≥ hz then { c with lbolt := c.lbolt - hz, time.tv_sec := c.time.tv_sec + 1 } else c

def settimeofday (c : Clock) (tv : Timeval) : Clock :=
  { c with time := tv, lbolt := tv.tv_usec.tdiv usechz }

/-- The loop of `adjtime`. -/
def carry (c : Clock) : Clock :=
  if c.lbolt ≥ hz then
    carry { c with lbolt := c.lbolt - hz, time.tv_sec := c.time.tv_sec + 1 }
  else c
termination_by c.lbolt.toNat
decreasing_by
  simp only [hz] at *
  omega

/-- `0x8000` is a positive number. -/
def adjtime (c : Clock) (delta : Timeval) : Clock :=
  let adjust := delta.tv_sec * hz + delta.tv_usec.tdiv usechz
  if adjust > 0x7fff ∨ adjust < 0x8000 then
    carry { c with
      time.tv_sec := c.time.tv_sec + delta.tv_sec
      lbolt := c.lbolt + delta.tv_usec.tdiv usechz }
  else { c with adjdelta := adjust }

end Clock

inductive Label where
  | tick
  | settimeofday (tv : Timeval)
  | adjtime (delta : Timeval)

def Step (c : Clock) (a : Label) (d : Clock) : Prop :=
  match a with
  | .tick => d = c.hardclock
  | .settimeofday tv => d = c.settimeofday tv
  | .adjtime delta => d = c.adjtime delta

def Normalised (_ : Clock) : Label → Prop
  | .tick => True
  | .settimeofday tv => 0 ≤ tv.tv_usec ∧ tv.tv_usec < 1000000
  | .adjtime delta => -1000000 < delta.tv_usec ∧ delta.tv_usec < 1000000

/-- No call adjusts by a negative number of microseconds. -/
def Forward (c : Clock) (a : Label) : Prop :=
  Normalised c a ∧ ∀ delta, a = .adjtime delta → 0 ≤ delta.tv_usec

def InRange (c : Clock) : Prop := 0 ≤ c.lbolt ∧ c.lbolt < hz

lemma carry_spec (c : Clock) : c.carry.ticks = c.ticks ∧ (0 ≤ c.lbolt → InRange c.carry) := by
  fun_induction Clock.carry c with
  | case1 c more ih =>
    refine ⟨ih.1.trans ?_, fun _ => ih.2 (Int.sub_nonneg_of_le more)⟩
    simp only [Clock.ticks, hz]
    omega
  | case2 c fits => exact ⟨rfl, fun low => ⟨low, Int.not_le.mp fits⟩⟩

/-- The test for values that cannot be stored always holds. -/
lemma adjtime_eq (c : Clock) (delta : Timeval) : c.adjtime delta = Clock.carry { c with
      time.tv_sec := c.time.tv_sec + delta.tv_sec
      lbolt := c.lbolt + delta.tv_usec.tdiv usechz } :=
  if_pos (by omega)

lemma adjtime_ticks (c : Clock) (delta : Timeval) : (c.adjtime delta).ticks =
    c.ticks + (delta.tv_sec * hz + delta.tv_usec.tdiv usechz) := by
  rw [adjtime_eq, (carry_spec _).1]
  simp only [Clock.ticks, hz]
  omega

lemma hardclock_ticks (c : Clock) : c.hardclock.ticks = c.slew.ticks + 1 := by
  simp only [Clock.hardclock, Clock.ticks, hz]
  split_ifs
  · simp only
    omega
  · simp only
    omega

lemma step_inRange {c d : Clock} {a : Label} (inRange : InRange c) (ok : Forward c a)
    (step : Step c a d) : InRange d := by
  obtain ⟨low, high⟩ := inRange
  cases a with
  | tick =>
    subst step
    simp only [InRange, Clock.hardclock, Clock.slew, hz] at *
    split_ifs <;> simp only at * <;> omega
  | settimeofday tv =>
    subst step
    obtain ⟨first, last⟩ := ok.1
    simp only [InRange, Clock.settimeofday, Int.tdiv_eq_ediv_of_nonneg first, usechz, hz]
    omega
  | adjtime delta =>
    subst step
    rw [adjtime_eq]
    apply (carry_spec _).2
    exact Int.add_nonneg low (Int.tdiv_nonneg (ok.2 delta rfl) (by decide))

/-- Where no adjustment is negative the ticks stay within a second. The clock slews by
at most one tick at a time; `adjtime` leaves it alone exactly if it asks for no tick. -/
theorem clock_in_range {start c : Clock} (labels : List Label) (inRange : InRange start)
    (run : Run Step Forward start labels c) :
    InRange c ∧ (∀ delta, (c.adjtime delta).ticks = c.ticks ↔
      delta.tv_sec * hz + delta.tv_usec.tdiv usechz = 0) ∧
    (c.hardclock.ticks = c.ticks ∨ c.hardclock.ticks = c.ticks + 1 ∨
      c.hardclock.ticks = c.ticks + 2) := by
  refine ⟨run_invariant InRange (fun _ _ _ => step_inRange) run inRange, fun delta => ?_, ?_⟩
  · rw [adjtime_ticks]
    omega
  · rw [hardclock_ticks]
    simp only [Clock.ticks, Clock.slew]
    split_ifs
    · exact .inr (.inl rfl)
    · refine .inr (.inr ?_)
      simp only
      omega
    · refine .inl ?_
      simp only
      omega

theorem clock_in_range_second : InRange (Clock.mk ⟨0, 0⟩ 0 0).hardclock :=
  (clock_in_range [.tick] ⟨by decide, by decide⟩
    (.cons ⟨trivial, nofun⟩ rfl (.nil (Clock.mk ⟨0, 0⟩ 0 0).hardclock))).1

/-- An adjustment by minus one tick is made at once, and `lbolt` is negative then. -/
theorem negative_lbolt : Run Step Normalised ⟨⟨9, 0⟩, 0, 0⟩ [.adjtime ⟨0, -5000⟩] ⟨⟨9, 0⟩, -1, 0⟩ := by
  refine .cons ⟨by decide, by decide⟩ ?_ (.nil _)
  rw [Step, adjtime_eq, Clock.carry]
  rfl

end TimeOfDay
