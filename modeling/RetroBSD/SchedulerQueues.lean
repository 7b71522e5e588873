import RetroBSD.Scheduler

/-!
# The queues of the scheduler

In every state between two steps, a process that waits for a channel is on the
sleep queue of that channel and on no other queue, and the run queue holds
processes that are loaded and can run. Inside of `tsleep` one process is on a
sleep queue although it still runs; `wakeup` must not meet it there.
-/

namespace Scheduler

open LinkedLists Runs Finset
open Processes (Stat Slot NPROC)
open Function (update update_of_ne update_self)

/-- What holds of the queues, with `cur` the process that runs and `x` the one that is inside of
`tsleep`. -/
structure Queued (s : Sched) (cur x : Option Slot) (L : Queue → List Slot) : Prop where
  lists : Lists s.p_link L
  chains : ∀ p h, p ∈ L (.slpque h) ↔
    alive (s.p_stat p) = true ∧ s.p_wchan p ≠ 0 ∧ HASH (s.p_wchan p) = h
  asleep : ∀ p, alive (s.p_stat p) = true → s.p_wchan p ≠ 0 →
    s.p_stat p = .ssleep ∨ s.p_stat p = .sstop ∨ x = some p
  runs : ∀ p ∈ L .qs, s.p_stat p = .srun ∧ s.sload p = true ∧ cur ≠ some p
  ready : ∀ p, s.p_stat p = .srun → s.sload p = true → p ∈ L .qs ∨ cur = some p
  current : ∀ p, cur = some p → s.sload p = true ∧ (s.p_stat p = .srun ∨ s.p_stat p = .szomb)
  idle : ∀ p, s.p_stat p = .sidl → s.sload p = true
  fine : s.panicked = none

def sleepers (s : Sched) : ℕ :=
  (Finset.univ.filter fun p => alive (s.p_stat p) = true ∧ s.p_wchan p ≠ 0).card

/-- What `wakeup` leaves alone: processes become runnable, or lose their channel, and that is
all. -/
structure Woke (s t : Sched) : Prop where
  stat : ∀ p, t.p_stat p = s.p_stat p ∨ s.p_stat p = .ssleep ∧ t.p_stat p = .srun
  wchan : ∀ p, t.p_wchan p = s.p_wchan p ∨
    t.p_wchan p = 0 ∧ (s.p_stat p = .ssleep ∨ s.p_stat p = .sstop)
  runout : t.runout ≠ 0 → s.runout ≠ 0
  fewer : sleepers t ≤ sleepers s

lemma Woke.refl (s : Sched) : Woke s s := ⟨fun _ => .inl rfl, fun _ => .inl rfl, id, le_rfl⟩

lemma Woke.trans {s t r : Sched} (first : Woke s t) (second : Woke t r) : Woke s r where
  stat p := by
    rcases first.stat p with same | ⟨asleep, runs⟩
    · exact same ▸ second.stat p
    · rcases second.stat p with same | ⟨asleep', -⟩
      · exact .inr ⟨asleep, same.trans runs⟩
      · rw [runs] at asleep'
        cases asleep'
  wchan p := by
    rcases second.wchan p with same | ⟨zero, asleep⟩
    · rw [same]
      exact first.wchan p
    · refine .inr ⟨zero, ?_⟩
      rcases first.stat p with same | ⟨before, -⟩
      · exact same ▸ asleep
      · exact .inl before
  runout := first.runout ∘ second.runout
  fewer := second.fewer.trans first.fewer

section Queues

variable {A : Layout} {s t : Sched} {cur x : Option Slot} {L : Queue → List Slot} {p : Slot}
  {h : Fin SQSIZE} {a b : List Slot}

lemma Queued.short (q : Queued s cur x L) (k : Queue) : (L k).length ≤ NPROC := by
  simpa using (q.lists.nodup k).length_le_card

/-- A process on a sleep queue is on no other queue. -/
lemma Queued.only (q : Queued s cur x L) {k : Queue} (here : p ∈ L k) {k' : Queue}
    (other : k' ≠ k) : p ∉ L k' :=
  fun there => other (q.lists.apart k' k p there here)

/-- A process that runs waits for nothing. -/
lemma Queued.awake (q : Queued s cur none L) (live : alive (s.p_stat p) = true)
    (sleeps : s.p_stat p ≠ .ssleep) (stops : s.p_stat p ≠ .sstop) : s.p_wchan p = 0 := by
  by_contra waits
  rcases q.asleep p live waits with ssleep | sstop | inside
  · exact sleeps ssleep
  · exact stops sstop
  · cases inside

/-- Who is not runnable, or runs, or is not loaded, and waits for nothing, is on no queue. -/
lemma Queued.absent (q : Queued s cur x L) (waits : s.p_wchan p = 0)
    (away : s.p_stat p ≠ .srun ∨ s.sload p = false ∨ cur = some p) (k : Queue) : p ∉ L k := by
  intro inside
  cases k with
  | slpque h => exact ((q.chains p h).mp inside).2.1 waits
  | qs =>
    obtain ⟨runs, loaded, other⟩ := q.runs p inside
    rcases away with stat | load | current
    · exact stat runs
    · rw [loaded] at load
      cases load
    · exact other current

/-- What `Queued` says of one process. -/
structure Fits (s : Sched) (cur x : Option Slot) (L : Queue → List Slot) (p : Slot) : Prop where
  chains : ∀ h, p ∈ L (.slpque h) ↔
    alive (s.p_stat p) = true ∧ s.p_wchan p ≠ 0 ∧ HASH (s.p_wchan p) = h
  asleep : alive (s.p_stat p) = true → s.p_wchan p ≠ 0 →
    s.p_stat p = .ssleep ∨ s.p_stat p = .sstop ∨ x = some p
  runs : p ∈ L .qs ↔ s.p_stat p = .srun ∧ s.sload p = true ∧ cur ≠ some p
  current : cur = some p → s.sload p = true ∧ (s.p_stat p = .srun ∨ s.p_stat p = .szomb)
  idle : s.p_stat p = .sidl → s.sload p = true

lemma Queued.fits (q : Queued s cur x L) (p : Slot) : Fits s cur x L p where
  chains := q.chains p
  asleep := q.asleep p
  runs := ⟨q.runs p, fun ⟨runs, load, other⟩ => (q.ready p runs load).resolve_right other⟩
  current := q.current p
  idle := q.idle p

/-- A step that concerns one process: the others see what they saw before. -/
lemma Queued.change {cur' x' : Option Slot} {L' : Queue → List Slot} (q : Queued s cur x L)
    (lists : Lists t.p_link L')
    (others : ∀ r, r ≠ p → t.p_stat r = s.p_stat r ∧ t.p_wchan r = s.p_wchan r ∧
      t.sload r = s.sload r ∧ (∀ k, r ∈ L' k ↔ r ∈ L k) ∧ (cur' = some r ↔ cur = some r) ∧
      (x = some r → x' = some r))
    (here : Fits t cur' x' L' p) (fine : t.panicked = none) : Queued t cur' x' L' := by
  have all : ∀ r, Fits t cur' x' L' r := by
    intro r
    by_cases same : r = p
    · exact same ▸ here
    · obtain ⟨stat, wchan, load, on, runs, inside⟩ := others r same
      have fits := q.fits r
      constructor
      · intro h
        rw [on, stat, wchan, fits.chains]
      · rw [stat, wchan]
        exact fun live waits => (fits.asleep live waits).imp_right (.imp_right inside)
      · rw [on, stat, load, fits.runs, ne_eq, ne_eq, runs]
      · rw [stat, load, runs]
        exact fits.current
      · rw [stat, load]
        exact fits.idle
  exact ⟨lists, fun r => (all r).chains, fun r => (all r).asleep, fun r => (all r).runs.mp,
    fun r runs load => or_iff_not_imp_right.mpr fun other => (all r).runs.mpr ⟨runs, load, other⟩,
    fun r => (all r).current, fun r => (all r).idle, fine⟩

lemma Fits.quiet (zero : alive (s.p_stat p) = true → s.p_wchan p = 0) (off : ∀ h, p ∉ L (.slpque h))
    (runs : p ∈ L .qs ↔ s.p_stat p = .srun ∧ s.sload p = true ∧ cur ≠ some p)
    (current : cur = some p → s.sload p = true ∧ (s.p_stat p = .srun ∨ s.p_stat p = .szomb))
    (idle : s.p_stat p = .sidl → s.sload p = true) : Fits s cur x L p :=
  ⟨fun h => iff_of_false (off h) fun waits => waits.2.1 (zero waits.1),
    fun live waits => absurd (zero live) waits, runs, current, idle⟩

lemma Fits.resting (rests : s.p_stat p = .ssleep ∨ s.p_stat p = .sstop)
    (chains : ∀ h, p ∈ L (.slpque h) ↔
      alive (s.p_stat p) = true ∧ s.p_wchan p ≠ 0 ∧ HASH (s.p_wchan p) = h)
    (out : p ∉ L .qs) (other : cur ≠ some p) : Fits s cur x L p where
  chains := chains
  asleep _ _ := rests.imp_right .inl
  runs := iff_of_false out fun runs => by rcases rests with stat | stat <;> simp [stat] at runs
  current := fun runs => absurd runs other
  idle := fun idle => by rcases rests with stat | stat <;> simp [stat] at idle

/-- A process leaves its sleep queue, and its channel is cleared. -/
lemma Queued.leave (q : Queued s cur x L) (here : L (.slpque h) = a ++ p :: b) :
    Queued (s.leave (after (.head (.slpque h)) a) p) cur x (update L (.slpque h) (a ++ b)) := by
  have member : p ∈ L (.slpque h) := by simp [here]
  have kept := q.lists.mem_remove here
  have gone : ∀ k, p ∉ update L (.slpque h) (a ++ b) k := fun k inside =>
    ((kept p k).mp inside).2 rfl
  refine q.change (q.lists.remove here) (fun r other => ⟨rfl, update_of_ne other .., rfl,
    fun k => (kept r k).trans (and_iff_left other), .rfl, id⟩) ?_ q.fine
  refine .quiet (fun _ => update_self ..) (fun k => gone _) ?_ (q.current p) (q.idle p)
  exact iff_of_false (gone .qs) fun runs => q.only member (by simp) ((q.fits p).runs.mpr runs)

lemma alive_update (new : Stat) (live : alive (s.p_stat p) = true) (still : alive new = true)
    (r : Slot) : alive (update s.p_stat p new r) = alive (s.p_stat r) := by
  by_cases same : r = p
  · rw [same, update_self, live, still]
  · rw [update_of_ne same]

/-- A process that is on no queue becomes runnable. -/
lemma Queued.makeReady (q : Queued s cur x L) (live : alive (s.p_stat p) = true)
    (stopped : s.p_stat p ≠ .srun) (waits : s.p_wchan p = 0) :
    ∃ L', Queued (s.ready p) cur x L' := by
  have absent := q.absent waits (.inl stopped)
  have out : cur ≠ some p := by
    intro runs
    rcases (q.current p runs).2 with srun | szomb
    · exact stopped srun
    · rw [szomb] at live
      cases live
  have idle : ∀ {load : Bool}, update s.p_stat p .srun p = .sidl → load = true := by simp
  unfold Sched.ready
  split_ifs with loaded
  · have added := mem_push L .qs p
    refine ⟨_, q.change (q.lists.push .qs absent) (fun r other => ⟨update_of_ne other ..,
      rfl, rfl, fun k => (added r k).trans (by simp [other]), .rfl, id⟩) ?_ q.fine⟩
    refine .quiet (fun _ => waits) (fun h inside => ?_) ?_ (fun runs => absurd runs out) idle
    · exact absent _ (((added p _).mp inside).resolve_right fun here => nomatch here.2)
    · exact iff_of_true ((added p .qs).mpr (.inr ⟨rfl, rfl⟩)) ⟨update_self .., loaded, out⟩
  · refine ⟨L, q.change q.lists (fun r other => ⟨update_of_ne other .., rfl, rfl,
      fun _ => .rfl, .rfl, id⟩) ?_ q.fine⟩
    exact .quiet (fun _ => waits) (fun h => absent _)
      (iff_of_false (absent .qs) fun runs => loaded runs.2.1) (fun runs => absurd runs out) idle

lemma sleepers_leave (c : Cell Queue Slot) (live : alive (s.p_stat p) = true)
    (waits : s.p_wchan p ≠ 0) : sleepers (s.leave c p) + 1 = sleepers s := by
  have erased : (univ.filter fun r => alive (s.p_stat r) = true ∧
      update s.p_wchan p 0 r ≠ 0) =
      (univ.filter fun r => alive (s.p_stat r) = true ∧ s.p_wchan r ≠ 0).erase p := by
    ext r
    by_cases same : r = p
    · subst same
      simp
    · simp [same]
  have member : p ∈ univ.filter fun r => alive (s.p_stat r) = true ∧ s.p_wchan r ≠ 0 := by
    simp [live, waits]
  have positive := card_pos.mpr ⟨p, member⟩
  change (univ.filter fun r => alive (s.p_stat r) = true ∧
    update s.p_wchan p 0 r ≠ 0).card + 1 = _
  rw [erased, card_erase_of_mem member]
  exact Nat.sub_add_cancel positive

lemma sleepers_ready (live : alive (s.p_stat p) = true) : sleepers (s.ready p) = sleepers s := by
  have lives := alive_update .srun live rfl
  unfold Sched.ready
  split_ifs
  · simp [sleepers, Sched.setrq, Sched.setStat, lives]
  · simp [sleepers, Sched.setStat, lives]

lemma leave_woke (c : Cell Queue Slot) (live : alive (s.p_stat p) = true) (waits : s.p_wchan p ≠ 0)
    (asleep : s.p_stat p = .ssleep ∨ s.p_stat p = .sstop) : Woke s (s.leave c p) where
  stat _ := .inl rfl
  wchan r := by
    by_cases same : r = p
    · subst same
      exact .inr ⟨update_self .., asleep⟩
    · exact .inl (update_of_ne same ..)
  runout := id
  fewer := by
    have := sleepers_leave c live waits
    omega

lemma ready_woke (asleep : s.p_stat p = .ssleep) : Woke s (s.ready p) := by
  have fewer := (sleepers_ready (by rw [asleep]; rfl)).le
  have stat : ∀ r, (s.ready p).p_stat r = s.p_stat r ∨
      s.p_stat r = .ssleep ∧ (s.ready p).p_stat r = .srun := by
    intro r
    have same : (s.ready p).p_stat = update s.p_stat p .srun := by
      unfold Sched.ready
      split_ifs <;> rfl
    rw [same]
    by_cases here : r = p
    · subst here
      exact .inr ⟨asleep, update_self ..⟩
    · exact .inl (update_of_ne here ..)
  refine ⟨stat, ?_, ?_, fewer⟩
  all_goals unfold Sched.ready
  · exact fun r => .inl (by split_ifs <;> rfl)
  · split_ifs <;> exact id

/-- The process inside of `tsleep` is on neither of the chains that a wakeup of `h` can walk. -/
def Clear (A : Layout) (s : Sched) (x : Option Slot) (h : Fin SQSIZE) : Prop :=
  ∀ p, x = some p → s.p_stat p = .srun ∧ HASH (s.p_wchan p) ≠ h ∧
    (s.runout ≠ 0 → HASH (s.p_wchan p) ≠ HASH A.runout)

lemma Clear.woke (clear : Clear A s x h) (woke : Woke s t) : Clear A t x h := by
  intro p inside
  obtain ⟨runs, apart, swapper⟩ := clear p inside
  have stat : t.p_stat p = .srun := by
    rcases woke.stat p with same | ⟨-, srun⟩
    · exact same.trans runs
    · exact srun
  have wchan : t.p_wchan p = s.p_wchan p := by
    rcases woke.wchan p with same | ⟨-, asleep⟩
    · exact same
    · rw [runs] at asleep
      rcases asleep with asleep | asleep <;> cases asleep
  rw [wchan]
  exact ⟨stat, apart, fun waits => swapper (woke.runout waits)⟩

lemma Queued.setRunout (q : Queued s cur x L) (n : ℕ) : Queued { s with runout := n } cur x L :=
  ⟨q.lists, q.chains, q.asleep, q.runs, q.ready, q.current, q.idle, q.fine⟩

lemma silence_woke (s : Sched) : Woke s { s with runout := 0 } :=
  ⟨fun _ => .inl rfl, fun _ => .inl rfl, fun some => absurd rfl some, le_rfl⟩

variable {r : Slot} {chan : ℕ}

/-- The loop of `wakeup` keeps the queues in order, and it ends. -/
lemma walk_queued (n : ℕ) (q : Queued s cur x L) (here : L (.slpque (HASH chan)) = a ++ b)
    (clear : Clear A s x (HASH chan)) (enough : sleepers s * (NPROC + 1) + b.length < n) :
    (∃ L', Queued (s.walk A n (after (.head (.slpque (HASH chan))) a) chan) cur x L') ∧
      Woke s (s.walk A n (after (.head (.slpque (HASH chan))) a) chan) := by
  induction n generalizing s L a b chan with
  | zero => omega
  | succ n ih =>
    have first := q.lists.at_after here
    unfold Sched.walk
    cases b with
    | nil =>
      rw [first]
      exact ⟨⟨L, q⟩, Woke.refl s⟩
    | cons p b =>
      rw [List.head?_cons] at first
      rw [first]
      have member : p ∈ L (.slpque (HASH chan)) := by simp [here]
      obtain ⟨live, waits, -⟩ := (q.chains p _).mp member
      have asleep : s.p_stat p = .ssleep ∨ s.p_stat p = .sstop := by
        rcases q.asleep p live waits with ssleep | sstop | inside
        · exact .inl ssleep
        · exact .inr sstop
        · exact absurd ((q.chains p _).mp member).2.2 (clear p inside).2.1
      have left := q.leave here
      have leaves := leave_woke (after (.head (.slpque (HASH chan))) a) live waits asleep
      have counted := sleepers_leave (after (.head (.slpque (HASH chan))) a) live waits
      rw [List.length_cons] at enough
      have spare := enough
      rw [← counted, Nat.add_mul] at spare
      -- a restart walks a whole queue, but one process fewer waits
      have restart : ∀ {t : Sched} {L' : Queue → List Slot}, Queued t cur x L' →
          Woke (s.leave (after (.head (.slpque (HASH chan))) a) p) t → ∀ k,
          sleepers t * (NPROC + 1) + (L' k).length < n := by
        intro t L' queued woke k
        have := Nat.mul_le_mul_right (NPROC + 1) woke.fewer
        have := queued.short k
        omega
      have stat : (s.leave (after (.head (.slpque (HASH chan))) a) p).p_stat = s.p_stat := rfl
      have cleared : (s.leave (after (.head (.slpque (HASH chan))) a) p).p_wchan p = 0 :=
        update_self ..
      dsimp only
      generalize s.leave _ p = r at *
      rw [if_neg (by rcases asleep with stat | stat <;> simp [stat])]
      split_ifs with mine sleeps swapped
      · obtain ⟨L₁, ready⟩ := left.makeReady (stat ▸ live) (by simp [stat, sleeps]) cleared
        have tells := (ready_woke (stat ▸ sleeps)).trans (silence_woke _)
        have beside : Clear A s x (HASH A.runout) := fun r inside =>
          ⟨(clear r inside).1, (clear r inside).2.2 swapped.2, (clear r inside).2.2⟩
        obtain ⟨⟨L₂, inner⟩, woke⟩ := ih (a := []) (ready.setRunout 0) rfl
          (beside.woke (leaves.trans tells))
          (restart (ready.setRunout 0) tells _)
        have sofar := tells.trans woke
        obtain ⟨done, last⟩ := ih (a := []) inner rfl (clear.woke (leaves.trans sofar))
          (restart inner sofar _)
        exact ⟨done, (leaves.trans sofar).trans last⟩
      · obtain ⟨L₁, ready⟩ := left.makeReady (stat ▸ live) (by simp [stat, sleeps]) cleared
        have readies := ready_woke (stat ▸ sleeps)
        obtain ⟨done, last⟩ := ih (a := []) ready rfl (clear.woke (leaves.trans readies))
          (restart ready readies _)
        exact ⟨done, (leaves.trans readies).trans last⟩
      · obtain ⟨done, woke⟩ := ih left (update_self ..) (clear.woke leaves)
          (by have := restart left (Woke.refl _) .qs; omega)
        exact ⟨done, leaves.trans woke⟩
      · have next : L (.slpque (HASH chan)) = (a ++ [p]) ++ b := by simp [here]
        have moved := ih q next clear (by omega)
        rw [after_append] at moved
        exact moved

lemma sleepers_le (s : Sched) : sleepers s ≤ NPROC := by
  have := card_le_univ
    (univ.filter fun p => alive (s.p_stat p) = true ∧ s.p_wchan p ≠ 0)
  rwa [Fintype.card_fin] at this

lemma wakeup_queued (q : Queued s cur x L) (clear : Clear A s x (HASH chan)) :
    (∃ L', Queued (s.wakeup A chan) cur x L') ∧ Woke s (s.wakeup A chan) := by
  apply walk_queued (a := []) Sched.rounds q rfl clear
  have := Nat.mul_le_mul_right (NPROC + 1) (sleepers_le s)
  have := q.short (.slpque (HASH chan))
  simp only [Sched.rounds, NPROC] at *
  omega

/-- The queues are in order, and only who was asleep or stopped is in another state. -/
def Keeps (s t : Sched) (cur x : Option Slot) : Prop :=
  (∃ L, Queued t cur x L) ∧ ∀ r, s.p_stat r ≠ .ssleep → s.p_stat r ≠ .sstop →
    t.p_stat r = s.p_stat r

lemma Keeps.trans {r : Sched} (first : Keeps s t cur x) (second : Keeps t r cur x) :
    Keeps s r cur x := by
  refine ⟨second.1, fun p wakes moves => ?_⟩
  have same := first.2 p wakes moves
  exact (second.2 p (same ▸ wakes) (same ▸ moves)).trans same

lemma Queued.keeps (q : Queued s cur x L) : Keeps s s cur x := ⟨⟨L, q⟩, fun _ _ _ => rfl⟩

lemma Keeps.runs (keeps : Keeps s t cur x) (runs : s.p_stat p = .srun) : t.p_stat p = .srun :=
  (keeps.2 p (by simp [runs]) (by simp [runs])).trans runs

lemma wakeup_keeps (q : Queued s cur x L) (clear : Clear A s x (HASH chan)) :
    Keeps s (s.wakeup A chan) cur x :=
  have ⟨queued, woke⟩ := wakeup_queued q clear
  ⟨queued, fun r wakes _ => (woke.stat r).resolve_right fun asleep => wakes asleep.1⟩

/-- Between two steps nobody is inside of `tsleep`. -/
lemma clear_none (A : Layout) (s : Sched) (h : Fin SQSIZE) : Clear A s none h := nofun

lemma wakeSwapper_keeps (q : Queued s cur x L) (clear : s.runout ≠ 0 → Clear A s x (HASH A.runout)) :
    Keeps s (s.wakeSwapper A) cur x := by
  unfold Sched.wakeSwapper
  split_ifs with waits
  · exact wakeup_keeps (q.setRunout 0) ((clear waits).woke (silence_woke s))
  · exact q.keeps

lemma unsleep_spec (q : Queued s cur x L) (live : alive (s.p_stat p) = true) :
    (∃ L', Queued (s.unsleep p) cur x L') ∧ (s.unsleep p).p_wchan p = 0 ∧
      (∀ r, r ≠ p → (s.unsleep p).p_wchan r = s.p_wchan r) ∧
      (s.unsleep p).p_stat = s.p_stat ∧ (s.unsleep p).sload = s.sload ∧
      (s.unsleep p).runout = s.runout := by
  unfold Sched.unsleep
  split_ifs with waits
  · exact ⟨⟨L, q⟩, waits, fun _ _ => rfl, rfl, rfl, rfl⟩
  · have member : p ∈ L (.slpque (HASH (s.p_wchan p))) := (q.chains p _).mpr ⟨live, waits, rfl⟩
    have enough := Nat.lt_succ_of_le (q.short (.slpque (HASH (s.p_wchan p))))
    rcases seek_spec (· == p) _ (q.lists.linked _) enough with ⟨-, missed⟩ | ⟨a, y, b, here, found, same, -⟩
    · simpa using missed p member
    · cases beq_iff_eq.mp same
      rw [found]
      exact ⟨⟨_, q.leave here⟩, update_self .., fun r other => update_of_ne other .., rfl, rfl, rfl⟩

lemma setrun_keeps (q : Queued s cur x L) (asleep : s.p_stat p = .ssleep ∨ s.p_stat p = .sstop)
    (clear : s.sload p = false → s.runout ≠ 0 → Clear A s x (HASH A.runout)) :
    Keeps s (s.setrun A p) cur x := by
  have live : alive (s.p_stat p) = true := by rcases asleep with stat | stat <;> rw [stat] <;> rfl
  obtain ⟨⟨L₁, unslept⟩, zero, others, stat, -, runout⟩ := unsleep_spec q live
  have unfolded : s.setrun A p = if s.sload p then (s.unsleep p).ready p
      else ((s.unsleep p).ready p).wakeSwapper A := by
    unfold Sched.setrun
    rcases asleep with stat | stat <;> rw [stat]
  rw [unfolded]
  generalize s.unsleep p = t at *
  have stopped : t.p_stat p ≠ .srun := by
    rw [stat]
    rcases asleep with stat | stat <;> rw [stat] <;> simp
  obtain ⟨L₂, ready⟩ := unslept.makeReady (stat ▸ live) stopped zero
  have update : (t.ready p).p_stat = update s.p_stat p .srun := by
    rw [← stat]
    unfold Sched.ready
    split_ifs <;> rfl
  have readies : Keeps s (t.ready p) cur x := by
    refine ⟨⟨L₂, ready⟩, fun r wakes moves => ?_⟩
    rw [update]
    refine update_of_ne (fun same : r = p => ?_) ..
    exact asleep.elim (same ▸ wakes) (same ▸ moves)
  split_ifs with loaded
  · exact readies
  · refine readies.trans (wakeSwapper_keeps ready fun waits r inside => ?_)
    have same : (t.ready p).runout = s.runout ∧ (t.ready p).p_wchan = t.p_wchan := by
      rw [← runout]
      unfold Sched.ready
      split_ifs <;> exact ⟨rfl, rfl⟩
    obtain ⟨runs, apart, swapper⟩ := clear (by simpa using loaded) (same.1 ▸ waits) r inside
    have other : r ≠ p := by
      rintro rfl
      rcases asleep with stat | stat <;> simp [stat] at runs
    rw [same.2, others r other, same.1]
    exact ⟨readies.runs runs, apart, swapper⟩

lemma unsleep_keeps (q : Queued s cur x L) (live : alive (s.p_stat p) = true) :
    Keeps s (s.unsleep p) cur x := by
  obtain ⟨queued, -, -, stat, -⟩ := unsleep_spec q live
  exact ⟨queued, fun r _ _ => congrFun stat r⟩

/-- A sleeping process stops, or a stopped one sleeps on. -/
lemma Queued.swap {new : Stat} (q : Queued s cur none L)
    (asleep : s.p_stat p = .ssleep ∨ s.p_stat p = .sstop) (rests : new = .ssleep ∨ new = .sstop) :
    Queued (s.setStat p new) cur none L := by
  have lives := alive_update new
    (by rcases asleep with stat | stat <;> rw [stat] <;> rfl) (by rcases rests with rfl | rfl <;> rfl)
  have here : (s.setStat p new).p_stat p = new := update_self ..
  refine q.change q.lists (fun r other => ⟨update_of_ne other .., rfl, rfl, fun _ => .rfl,
    .rfl, id⟩) (.resting (rests.imp here.trans here.trans) (fun h => ?_) ?_ ?_) q.fine
  · rw [q.chains, ← lives]
    rfl
  · intro inside
    have := (q.runs p inside).1
    rcases asleep with stat | stat <;> simp [stat] at this
  · intro runs
    have := (q.current p runs).2
    rcases asleep with stat | stat <;> simp [stat] at this

lemma postStopped_keeps (q : Queued s cur none L) (halts : s.p_stat p = .sstop) (sig : ℕ) :
    Keeps s (s.postStopped A p sig) cur none := by
  have wakes : Keeps s (s.setrun A p) cur none :=
    setrun_keeps q (.inr halts) fun _ _ => clear_none A s _
  unfold Sched.postStopped
  split_ifs
  · exact q.keeps
  · exact wakes
  · exact wakes
  · exact ⟨⟨L, q.swap (.inr halts) (.inl rfl)⟩, fun r _ moves =>
      update_of_ne (fun same : r = p => moves (same ▸ halts)) ..⟩
  · exact q.keeps
  · exact unsleep_keeps q (by rw [halts]; rfl)
  · exact q.keeps

/-- What `psignal` does with `SIGCHLD`. -/
lemma psignalChild_cases (A : Layout) (s : Sched) (p : Slot) :
    s.psignalChild A p = s ∨ s.TakesChild p ∧ s.psignalChild A p = s.setrun A p ∨
      s.p_stat p = .sstop ∧ s.psignalChild A p = s.unsleep p := by
  unfold Sched.psignalChild Sched.post
  split_ifs with ignored tty held
  · exact .inl rfl
  · exact .inl rfl
  · exact .inl rfl
  have unheld : s.action p SIGCHLD ≠ .held := fun is => held ⟨is, .inl (by decide)⟩
  split
  · rename_i sleeps
    have cont : ¬ (SIGCHLD = SIGCONT ∧ s.action p SIGCHLD = .default) :=
      fun is => absurd is.1 (by decide)
    unfold Sched.postSleeping
    rw [if_neg (by decide : ¬ stops SIGCHLD = true)]
    split_ifs with deaf traced
    · exact .inl rfl
    · exact .inr (.inl ⟨⟨sleeps, by simpa using deaf, ignored, unheld⟩, rfl⟩)
    · exact .inr (.inl ⟨⟨sleeps, by simpa using deaf, ignored, unheld⟩, rfl⟩)
  · rename_i halts
    unfold Sched.postStopped
    rw [if_neg (by decide : ¬ SIGCHLD = SIGKILL), if_neg (by decide : ¬ SIGCHLD = SIGCONT),
      if_neg (by decide : ¬ stops SIGCHLD = true)]
    split_ifs with traced waits
    · exact .inl rfl
    · exact .inr (.inr ⟨halts, rfl⟩)
    · exact .inl rfl
  · exact .inl rfl

/-- `SIGCHLD` may make the parent runnable, and then tell the swapper. -/
lemma psignalChild_keeps (q : Queued s cur x L)
    (clear : s.TakesChild p → s.sload p = false → s.runout ≠ 0 → Clear A s x (HASH A.runout)) :
    Keeps s (s.psignalChild A p) cur x := by
  rcases psignalChild_cases A s p with same | ⟨takes, same⟩ | ⟨halts, same⟩
  · rw [same]
    exact q.keeps
  · rw [same]
    exact setrun_keeps q (.inl takes.1) (clear takes)
  · rw [same]
    exact unsleep_keeps q (by rw [halts]; rfl)

/-- The running process stops or falls asleep; it is on a sleep queue already, or on none. -/
lemma Queued.rest {new : Stat} (q : Queued s (some p) x L) (runs : s.p_stat p = .srun)
    (inside : x = none ∨ x = some p) (rests : new = .ssleep ∨ new = .sstop) :
    Queued (s.setStat p new) none none L := by
  have lives := alive_update new (by rw [runs]; rfl) (by rcases rests with rfl | rfl <;> rfl)
  have here : (s.setStat p new).p_stat p = new := update_self ..
  refine q.change q.lists (fun r other => ⟨update_of_ne other .., rfl, rfl, fun _ => .rfl,
    by simp [other.symm], fun is => ?_⟩) (.resting (rests.imp here.trans here.trans) (fun h => ?_) ?_ nofun) q.fine
  · rcases inside with none | some
    · rw [none] at is
      exact is
    · exact absurd (Option.some.inj (is.symm.trans some)) other
  · rw [q.chains, ← lives]
    rfl
  · exact fun inside => (q.runs p inside).2.2 rfl

/-- What wakeups and signals do to a process whether it is queued or not. -/
structure Tame (s t : Sched) : Prop where
  intr : t.sintr = s.sintr
  wchan : ∀ p, t.p_wchan p = s.p_wchan p ∨ t.p_wchan p = 0
  live : ∀ p, alive (t.p_stat p) = alive (s.p_stat p)

lemma Tame.refl (s : Sched) : Tame s s := ⟨rfl, fun _ => .inl rfl, fun _ => rfl⟩

lemma Tame.trans {r : Sched} (first : Tame s t) (second : Tame t r) : Tame s r where
  intr := second.intr.trans first.intr
  wchan p := by
    rcases second.wchan p with same | zero
    · rw [same]
      exact first.wchan p
    · exact .inr zero
  live p := (second.live p).trans (first.live p)

lemma setStat_tame (new : Stat) (live : alive (s.p_stat p) = true) (still : alive new = true) :
    Tame s (s.setStat p new) :=
  ⟨rfl, fun _ => .inl rfl, alive_update new live still⟩

lemma leave_tame (s : Sched) (c : Cell Queue Slot) (p : Slot) : Tame s (s.leave c p) where
  intr := rfl
  wchan r := by
    by_cases same : r = p
    · exact .inr (same ▸ update_self ..)
    · exact .inl (update_of_ne same ..)
  live _ := rfl

lemma ready_tame (live : alive (s.p_stat p) = true) : Tame s (s.ready p) := by
  have tame := setStat_tame .srun live rfl
  unfold Sched.ready
  split_ifs
  · exact ⟨tame.intr, tame.wchan, tame.live⟩
  · exact tame

def Spares (r : Slot) (s t : Sched) : Prop :=
  t.p_stat r = s.p_stat r ∧ t.p_wchan r = s.p_wchan r

lemma ready_spares (other : r ≠ p) (s : Sched) : Spares r s (s.ready p) := by
  unfold Sched.ready
  split_ifs
  · exact ⟨update_of_ne other .., rfl⟩
  · exact ⟨update_of_ne other .., rfl⟩

/-- A relation that the single actions of `wakeup` respect, for processes that wait for one of the
channels `W`, relates the states before and after it. -/
lemma walk_rel {P : Sched → Sched → Prop} {W : ℕ → Prop} (swapper : W A.runout)
    (refl : ∀ s, P s s) (trans : ∀ s t r, P s t → P t r → P s r)
    (panics : ∀ s why, P s (s.panic why)) (silence : ∀ s, P s { s with runout := 0 })
    (leaves : ∀ s c p, W (s.p_wchan p) → P s (s.leave c p))
    (wakes : ∀ s c p, W (s.p_wchan p) → s.p_stat p = .ssleep → P s ((s.leave c p).ready p))
    (n : ℕ) (s : Sched) (c : Cell Queue Slot) {chan : ℕ} (wanted : W chan) :
    P s (s.walk A n c chan) := by
  induction n generalizing s c chan with
  | zero => exact panics s .endless
  | succ n ih =>
    unfold Sched.walk
    split
    · exact refl s
    · rename_i p here
      split_ifs with odd mine sleeps swapped
      · exact panics s .wakeup
      · have woken := wakes s c p (mine ▸ wanted) sleeps
        have told := trans _ _ _ woken (silence _)
        exact trans _ _ _ (trans _ _ _ told (ih _ _ swapper)) (ih _ _ wanted)
      · exact trans _ _ _ (wakes s c p (mine ▸ wanted) sleeps) (ih _ _ wanted)
      · exact trans _ _ _ (leaves s c p (mine ▸ wanted)) (ih _ _ wanted)
      · exact ih _ _ wanted

lemma walk_tame (A : Layout) (n : ℕ) (s : Sched) (c : Cell Queue Slot) (chan : ℕ) :
    Tame s (s.walk A n c chan) := by
  refine walk_rel (W := fun _ => True) trivial Tame.refl (fun _ _ _ => Tame.trans)
    (fun _ _ => ⟨rfl, fun _ => .inl rfl, fun _ => rfl⟩)
    (fun _ => ⟨rfl, fun _ => .inl rfl, fun _ => rfl⟩) (fun s c p _ => leave_tame s c p) ?_
    n s c trivial
  intro s c p _ sleeps
  have live : alive ((s.leave c p).p_stat p) = true := by
    change alive (s.p_stat p) = true
    rw [sleeps]
    rfl
  exact (leave_tame s c p).trans (ready_tame live)

/-- `wakeup` does not touch a process that waits for something else, and not for the swapper's
flag either. -/
lemma walk_spares (n : ℕ) (c : Cell Queue Slot) (other : s.p_wchan r ≠ chan)
    (apart : s.p_wchan r ≠ A.runout) : Spares r s (s.walk A n c chan) := by
  have leaves : ∀ s c p, s.p_wchan p = chan ∨ s.p_wchan p = A.runout →
      ¬ (s.p_wchan r = chan ∨ s.p_wchan r = A.runout) → r ≠ p ∧ Spares r s (s.leave c p) := by
    intro s c p wanted unwanted
    have different : r ≠ p := by
      rintro rfl
      exact unwanted wanted
    exact ⟨different, rfl, update_of_ne different ..⟩
  refine walk_rel (W := fun w => w = chan ∨ w = A.runout)
    (P := fun s t => ¬ (s.p_wchan r = chan ∨ s.p_wchan r = A.runout) → Spares r s t)
    (.inr rfl) (fun _ _ => ⟨rfl, rfl⟩) ?_ (fun _ _ _ => ⟨rfl, rfl⟩) (fun _ _ => ⟨rfl, rfl⟩)
    (fun s c p wanted unwanted => (leaves s c p wanted unwanted).2) ?_ n s c (.inl rfl)
    (not_or.mpr ⟨other, apart⟩)
  · intro s t r first second unwanted
    have one := first unwanted
    have two := second (one.2 ▸ unwanted)
    exact ⟨two.1.trans one.1, two.2.trans one.2⟩
  · intro s c p wanted _ unwanted
    obtain ⟨different, left⟩ := leaves s c p wanted unwanted
    have readied := ready_spares different (s.leave c p)
    exact ⟨readied.1.trans left.1, readied.2.trans left.2⟩

lemma wakeSwapper_tame (A : Layout) (s : Sched) : Tame s (s.wakeSwapper A) := by
  unfold Sched.wakeSwapper
  split_ifs
  · have quiet : Tame s { s with runout := 0 } := ⟨rfl, fun _ => .inl rfl, fun _ => rfl⟩
    exact quiet.trans (walk_tame A Sched.rounds _ _ _)
  · exact Tame.refl s

lemma wakeSwapper_spares (apart : s.p_wchan r ≠ A.runout) : Spares r s (s.wakeSwapper A) := by
  unfold Sched.wakeSwapper
  split_ifs
  · exact walk_spares Sched.rounds _ apart apart
  · exact ⟨rfl, rfl⟩

/-- `unsleep` only clears the channel of its process. -/
lemma unsleep_frame (s : Sched) (p : Slot) :
    Tame s (s.unsleep p) ∧ (s.unsleep p).p_stat = s.p_stat ∧
      ∀ r, r ≠ p → (s.unsleep p).p_wchan r = s.p_wchan r := by
  unfold Sched.unsleep
  split
  · exact ⟨Tame.refl s, rfl, fun _ _ => rfl⟩
  · split
    · exact ⟨⟨rfl, fun _ => .inl rfl, fun _ => rfl⟩, rfl, fun _ _ => rfl⟩
    · exact ⟨leave_tame s _ p, rfl, fun r other => update_of_ne other ..⟩

lemma setrun_tame (A : Layout) (s : Sched) (p : Slot) : Tame s (s.setrun A p) := by
  have woken : ∀ t : Sched, Tame s t → alive (t.p_stat p) = true →
      Tame s (if s.sload p then t.ready p else (t.ready p).wakeSwapper A) := by
    intro t tame live
    have readied := tame.trans (ready_tame live)
    split_ifs
    · exact readied
    · exact readied.trans (wakeSwapper_tame A _)
  obtain ⟨tame, stat, -⟩ := unsleep_frame s p
  have live : alive (s.p_stat p) = true → alive ((s.unsleep p).p_stat p) = true := stat ▸ id
  unfold Sched.setrun
  split
  · rename_i is
    exact woken _ tame (live (by rw [is]; rfl))
  · rename_i is
    exact woken _ tame (live (by rw [is]; rfl))
  · rename_i is
    exact woken s (Tame.refl s) (by rw [is]; rfl)
  · exact ⟨rfl, fun _ => .inl rfl, fun _ => rfl⟩

lemma setrun_spares (other : r ≠ p) (apart : s.p_wchan r ≠ A.runout) :
    Spares r s (s.setrun A p) := by
  have woken : ∀ t, Spares r s t →
      Spares r s (if s.sload p then t.ready p else (t.ready p).wakeSwapper A) := by
    intro t spared
    have readied := ready_spares other t
    split_ifs
    · exact ⟨readied.1.trans spared.1, readied.2.trans spared.2⟩
    · have told := wakeSwapper_spares (by rw [readied.2, spared.2]; exact apart)
      exact ⟨told.1.trans (readied.1.trans spared.1), told.2.trans (readied.2.trans spared.2)⟩
  obtain ⟨-, stat, wchan⟩ := unsleep_frame s p
  have unslept : Spares r s (s.unsleep p) := ⟨congrFun stat r, wchan r other⟩
  unfold Sched.setrun
  split
  · exact woken _ unslept
  · exact woken _ unslept
  · exact woken s ⟨rfl, rfl⟩
  · exact ⟨rfl, rfl⟩

lemma stop_tame (A : Layout) (live : alive (s.p_stat p) = true) : Tame s (s.stop A p) :=
  (setStat_tame .sstop live rfl).trans (walk_tame A Sched.rounds _ _ _)

/-- `psignal` is tame if what it does for the parent is. -/
lemma post_tame (A : Layout) {notify : Sched → Sched} (notifies : ∀ s, Tame s (notify s))
    (s : Sched) (p : Slot) (sig : ℕ) : Tame s (s.post A notify p sig) := by
  unfold Sched.post
  split_ifs
  · exact Tame.refl s
  · exact Tame.refl s
  · exact Tame.refl s
  split
  · rename_i sleeps
    unfold Sched.postSleeping
    split_ifs
    · exact Tame.refl s
    · exact setrun_tame A s p
    · exact Tame.refl s
    · exact setrun_tame A s p
    · exact Tame.refl s
    · exact stop_tame A (by rw [sleeps]; rfl)
    · have told := notifies s
      exact told.trans (stop_tame A (by rw [told.live, sleeps]; rfl))
    · exact setrun_tame A s p
  · rename_i halts
    unfold Sched.postStopped
    split_ifs
    · exact Tame.refl s
    · exact setrun_tame A s p
    · exact setrun_tame A s p
    · exact setStat_tame .ssleep (by rw [halts]; rfl) rfl
    · exact Tame.refl s
    · exact (unsleep_frame s p).1
    · exact Tame.refl s
  · exact Tame.refl s

lemma psignalChild_tame (A : Layout) (s : Sched) (p : Slot) : Tame s (s.psignalChild A p) :=
  post_tame A Tame.refl s p SIGCHLD

lemma psignal_tame (A : Layout) (s : Sched) (p : Slot) (sig : ℕ) : Tame s (s.psignal A p sig) :=
  post_tame A (fun s => psignalChild_tame A s _) s p sig

lemma psignalChild_spares (other : r ≠ p) (apart : s.p_wchan r ≠ A.runout) :
    Spares r s (s.psignalChild A p) := by
  rcases psignalChild_cases A s p with same | ⟨-, same⟩ | ⟨-, same⟩
  · rw [same]
    exact ⟨rfl, rfl⟩
  · rw [same]
    exact setrun_spares other apart
  · rw [same]
    obtain ⟨-, stat, wchan⟩ := unsleep_frame s p
    exact ⟨congrFun stat r, wchan r other⟩

/-- Nobody who lets signals through waits for the swapper's flag. -/
def Reserved (A : Layout) (s : Sched) : Prop :=
  ∀ p, alive (s.p_stat p) = true → s.sintr p = true → s.p_wchan p ≠ A.runout

lemma Reserved.tame (reserved : Reserved A s) (tame : Tame s t) : Reserved A t := by
  intro p live intr
  rcases tame.wchan p with same | zero
  · rw [same]
    exact reserved p ((tame.live p).symm.trans live) (tame.intr ▸ intr)
  · rw [zero]
    exact A.runout_ne.symm

/-- A process that sleeps stops, and the parent is told. -/
lemma stop_keeps (q : Queued s cur none L) (asleep : s.p_stat p = .ssleep ∨ s.p_stat p = .sstop) :
    ∃ L', Queued (s.stop A p) cur none L' :=
  (wakeup_keeps (q.swap asleep (.inr rfl)) (clear_none A _ _)).1

lemma psignal_keeps (q : Queued s cur none L) (reserved : Reserved A s)
    (other : (s.info p).p_pptr ≠ p) (sig : ℕ) : ∃ L', Queued (s.psignal A p sig) cur none L' := by
  unfold Sched.psignal Sched.post
  split_ifs
  · exact ⟨L, q⟩
  · exact ⟨L, q⟩
  · exact ⟨L, q⟩
  split
  · rename_i sleeps
    have wakes := setrun_keeps q (.inl sleeps) fun _ _ => clear_none A s _
    unfold Sched.postSleeping
    split_ifs with deaf traced cont stop handled forks quiet
    · exact ⟨L, q⟩
    · exact wakes.1
    · exact ⟨L, q⟩
    · exact wakes.1
    · exact ⟨L, q⟩
    · exact stop_keeps q (.inl sleeps)
    · have apart := reserved p (by rw [sleeps]; rfl) (by simpa using deaf)
      have spared := psignalChild_spares other.symm apart
      obtain ⟨⟨L', told⟩, -⟩ := psignalChild_keeps q fun _ _ _ => clear_none A s _
      exact stop_keeps told (.inl (spared.1.trans sleeps))
    · exact wakes.1
  · rename_i halts
    exact (postStopped_keeps q halts sig).1
  · exact ⟨L, q⟩

end Queues

end Scheduler
