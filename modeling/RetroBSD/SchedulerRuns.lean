import RetroBSD.SchedulerQueues

/-!
# Runs of the scheduler

Each step of the kernel leaves the queues in order, if a process that stops
inside of `tsleep` does not meet the swapper's chain on the way. Without that
condition `wakeup` finds a process that still runs, and panics.
-/

namespace Scheduler

open LinkedLists Runs Option
open Processes (Stat Slot NPROC)
open Function (update_of_ne update_self update_eq_self)

section Steps

variable {A : Layout} {s t : Sched} {cur x : Option Slot} {L : Queue → List Slot} {p : Slot}

variable {child parent : Slot} {ident : ℕ}

/-- A runnable process that runs or is not loaded waits for nothing and is on no queue. -/
lemma Queued.off (q : Queued s cur none L) (runs : s.p_stat p = .srun)
    (away : s.sload p = false ∨ cur = some p) : s.p_wchan p = 0 ∧ ∀ k, p ∉ L k := by
  have quiet := q.awake (by rw [runs]; rfl) (by simp [runs]) (by simp [runs])
  exact ⟨quiet, q.absent quiet (.inr away)⟩

lemma enqueue_queued (q : Queued s (some p) none L) (runs : s.p_stat p = .srun)
    (waits : ident ≠ 0) (catches : Bool) :
    ∃ L', Queued (s.enqueue p ident catches) (some p) (some p) L' := by
  obtain ⟨-, absent⟩ := q.off runs (.inr rfl)
  have added := mem_push L (.slpque (HASH ident)) p
  have here : (s.enqueue p ident catches).p_wchan p = ident := update_self ..
  have live : alive (s.p_stat p) = true := congrArg alive runs
  refine ⟨_, q.change (q.lists.push (.slpque (HASH ident)) absent) (fun r other => ⟨rfl,
    update_of_ne other .., rfl, fun k => (added r k).trans (by simp [other]), .rfl, by simp⟩)
    ⟨fun h => ?_, fun _ _ => .inr (.inr rfl), ?_, q.current p, q.idle p⟩ q.fine⟩
  · rw [added, or_iff_right (absent _)]
    simp [live, waits, Sched.enqueue, eq_comm]
  · refine iff_of_false (fun inside => ?_) fun runs => runs.2.2 rfl
    exact absent _ (((added p .qs).mp inside).resolve_right fun here => by cases here.2)

lemma halt_queued (q : Queued s (some p) x L) (runs : s.p_stat p = .srun)
    (inside : x = none ∨ x = some p) (clear : s.notifies p = true → s.TakesChild (s.info p).p_pptr →
      s.sload (s.info p).p_pptr = false → s.runout ≠ 0 → Clear A s x (HASH A.runout)) :
    ∃ L', Queued (s.halt A p) none none L' := by
  have told : Keeps s (if s.notifies p then s.psignalChild A (s.info p).p_pptr else s)
      (some p) x := by
    split_ifs with notifies
    · exact psignalChild_keeps q (clear notifies)
    · exact q.keeps
  obtain ⟨L', queued⟩ := told.1
  have rests := queued.rest (told.runs runs) inside (.inr rfl)
  exact (wakeup_keeps rests (clear_none A _ _)).1

lemma doze_queued (q : Queued s (some p) x L) (runs : s.p_stat p = .srun)
    (inside : x = none ∨ x = some p) : ∃ L', Queued (s.doze A p) none none L' := by
  have rests := q.rest runs inside (.inl rfl)
  unfold Sched.doze
  split_ifs
  · exact ⟨L, rests⟩
  · exact (wakeup_keeps rests (clear_none A _ _)).1

/-- A process gives up the processor and is put on the run queue. -/
lemma preempt_queued (q : Queued s (some p) none L) (runs : s.p_stat p = .srun) :
    ∃ L', Queued (s.setrq p) none none L' := by
  obtain ⟨quiet, absent⟩ := q.off runs (.inr rfl)
  have added := mem_push L .qs p
  refine ⟨_, q.change (q.lists.push .qs absent) (fun r other => ⟨rfl, rfl, rfl,
    fun k => (added r k).trans (by simp [other]), by simp [other.symm], nofun⟩)
    (.quiet (fun _ => quiet) (fun h inside => ?_) ?_ nofun (q.idle p)) q.fine⟩
  · exact absent _ (((added p _).mp inside).resolve_right fun here => nomatch here.2)
  · exact iff_of_true ((added p .qs).mpr (.inr ⟨rfl, rfl⟩)) ⟨runs, (q.current p rfl).1, nofun⟩

/-- The search of `swtch` gives a process of the run queue and the cell that points at it. -/
lemma best_spec (n : ℕ) {l a b : List Slot} {pri : ℕ} {c : Cell Queue Slot}
    (here : l = a ++ b) (linked : Linked s.p_link (after c a) b)
    {found result : Option (Cell Queue Slot × Slot)}
    (before : ∀ f, found = some f → ∃ a b, l = a ++ f.2 :: b ∧ f.1 = after c a)
    (eq : s.best n (after c a) pri found = result) :
    ∀ f, result = some f → ∃ a b, l = a ++ f.2 :: b ∧ f.1 = after c a := by
  induction n generalizing a b pri found with
  | zero => exact eq ▸ before
  | succ n ih =>
    unfold Sched.best at eq
    rw [linked.first] at eq
    cases b with
    | nil => exact eq ▸ before
    | cons p b =>
      have next : l = (a ++ [p]) ++ b := by simp [here]
      have rest : Linked s.p_link (after c (a ++ [p])) b := by
        rw [after_append]
        exact (linked_cons.mp linked).2
      have moved : after c (a ++ [p]) = .link p := by
        rw [after_append]
        rfl
      simp only [List.head?_cons] at eq
      rw [← moved] at eq
      split_ifs at eq with better
      · refine ih next rest ?_ eq
        rintro f ⟨⟩
        exact ⟨a, b, here, rfl⟩
      · exact ih next rest before eq

lemma swtch_queued (q : Queued s none none L) (chosen : s.swtch = some (p, t)) :
    ∃ L', Queued t (some p) none L' := by
  obtain ⟨⟨c, r⟩, found, eq⟩ := map_eq_some_iff.mp chosen
  obtain ⟨a, b, here, cell⟩ := best_spec (a := []) NPROC rfl (q.lists.linked .qs) (by simp) found _ rfl
  cases eq
  change L .qs = a ++ r :: b at here
  subst cell
  have kept := q.lists.mem_remove here
  have member : r ∈ L .qs := by simp [here]
  obtain ⟨srun, loaded, -⟩ := q.runs r member
  refine ⟨_, q.change (q.lists.remove here) (fun p other => ⟨rfl, rfl, rfl,
    fun k => (kept p k).trans (and_iff_left other), by simp [other.symm], nofun⟩) ⟨fun h => ?_,
    q.asleep r, ?_, fun _ => ⟨loaded, .inl srun⟩, q.idle r⟩ q.fine⟩
  · exact q.chains r h
  · exact iff_of_false (fun inside => ((kept r .qs).mp inside).2 rfl) fun runs => runs.2.2 rfl

lemma newproc_queued {s : System} (q : Queued s.toSched (some parent) none L)
    (runs : s.p_stat parent = .srun) (unused : s.p_stat child = .free) (info : Info) :
    ∃ L', Queued (s.newproc parent child info).toSched (some child) none L' := by
  have apart : parent ≠ child := by
    rintro rfl
    simp [runs] at unused
  obtain ⟨quiet, absent⟩ := q.off runs (.inr rfl)
  have idle : (s.setStat parent .sidl).p_stat parent = .sidl := update_self ..
  have unborn : (s.setStat parent .sidl).p_stat child = .free :=
    (update_of_ne apart.symm ..).trans unused
  -- first the parent stops to run, and then the child does
  have waits : Queued (s.setStat parent .sidl) none none L :=
    q.change q.lists (fun r other => ⟨update_of_ne other .., rfl, rfl, fun _ => .rfl,
      by simp [other.symm], nofun⟩) (.quiet (fun _ => quiet) (fun h => absent _)
      (iff_of_false (absent .qs) (by simp [idle])) nofun fun _ => (q.current parent rfl).1) q.fine
  have born : (s.newproc parent child info).p_stat child = .srun := update_self ..
  refine ⟨L, waits.change q.lists (fun r other => ⟨update_of_ne other ..,
    update_of_ne other .., update_of_ne other .., fun _ => .rfl, by simp [other.symm], nofun⟩)
    (.quiet (fun _ => update_self ..) (fun h inside => ?_) (iff_of_false (fun inside => ?_)
      fun runs => runs.2.2 rfl) (fun _ => ⟨update_self .., .inl born⟩) fun sidl => ?_) q.fine⟩
  · simpa [unborn, alive] using ((waits.chains child h).mp inside).1
  · simpa [unborn] using (waits.runs child inside).1
  · simp [born] at sidl

/-- A process that is not on the run queue is no longer loaded. -/
lemma Queued.unload (q : Queued s cur x L) (out : p ∉ L .qs) (busy : s.p_stat p ≠ .sidl)
    (cur' : Option Slot) (only : ∀ r, cur' = some r ↔ cur = some r ∧ r ≠ p) :
    Queued (s.setLoad p false) cur' x L := by
  have gone : (s.setLoad p false).sload p = false := update_self ..
  refine q.change q.lists (fun r other => ⟨rfl, rfl, update_of_ne other .., fun _ => .rfl,
    (only r).trans (and_iff_left other), id⟩) ⟨q.chains p, q.asleep p, ?_, fun current => ?_,
    fun idle => absurd idle busy⟩ q.fine
  · exact iff_of_false out (by simp [gone])
  · exact absurd rfl ((only p).mp current).2

/-- The parent runs again. -/
lemma Queued.resume (q : Queued s none x L) (idle : s.p_stat p = .sidl) :
    Queued (s.setStat p .srun) (some p) x L := by
  have here : (s.setStat p .srun).p_stat p = .srun := update_self ..
  have lives := alive_update .srun (by rw [idle]; rfl) rfl
  refine q.change q.lists (fun r other => ⟨update_of_ne other .., rfl, rfl, fun _ => .rfl,
    by simp [other.symm], id⟩) ⟨fun h => ?_, fun live waits => ?_, iff_of_false (fun inside => ?_)
    fun runs => runs.2.2 rfl, fun _ => ⟨q.idle p idle, .inl here⟩, by simp [here]⟩ q.fine
  · rw [q.chains, ← lives]
    rfl
  · have asleep := q.asleep p ((lives p).symm.trans live) waits
    simp only [idle, reduceCtorEq, false_or] at asleep
    exact .inr (.inr asleep)
  · simpa [idle] using (q.runs p inside).1

lemma forked_queued {s : System} (q : Queued s.toSched (some child) none L)
    (runs : s.p_stat child = .srun) (idle : s.p_stat parent = .sidl) :
    ∃ L', Queued (s.forked A parent child).toSched (some parent) none L' := by
  have unloaded := q.unload (fun inside => (q.runs child inside).2.2 rfl)
    (by simp [runs]) none (by simp [eq_comm])
  have told := wakeSwapper_keeps unloaded fun _ => clear_none A _ _
  obtain ⟨L', queued⟩ := told.1
  have still : ((s.setLoad child false).wakeSwapper A).p_stat parent = .sidl :=
    (told.2 parent (by simp [Sched.setLoad, idle]) (by simp [Sched.setLoad, idle])).trans idle
  exact ⟨L', queued.resume still⟩

/-- A process that is on no queue dies, or its entry becomes free; its link and its channel may
hold anything. -/
lemma Queued.bury {new : Stat} (q : Queued s cur x L) (absent : ∀ k, p ∉ L k)
    (dead : new = .szomb ∨ new = .free ∧ cur ≠ some p)
    (same : ∀ r, r ≠ p → t.p_stat r = s.p_stat r ∧ t.p_wchan r = s.p_wchan r ∧
      t.sload r = s.sload r) (here : t.p_stat p = new) (load : cur = some p → t.sload p = true)
    (links : Lists t.p_link L) (fine : t.panicked = none) : Queued t cur x L := by
  refine q.change links (fun r other => ?_) (.quiet (fun live => ?_) (fun h => absent _)
    (iff_of_false (absent .qs) ?_) (fun current => ?_) ?_) fine
  · obtain ⟨stat, wchan, load⟩ := same r other
    exact ⟨stat, wchan, load, fun _ => .rfl, .rfl, id⟩
  · rw [here] at live
    rcases dead with rfl | ⟨rfl, -⟩ <;> cases live
  · rcases dead with rfl | ⟨rfl, -⟩ <;> simp [here]
  · rcases dead with rfl | ⟨-, other⟩
    · exact ⟨load current, .inr here⟩
    · exact absurd current other
  · rcases dead with rfl | ⟨rfl, -⟩ <;> simp [here]

lemma exit_queued {s : System} (q : Queued s.toSched (some p) none L) (runs : s.p_stat p = .srun)
    (wchan : ℕ) (link : Option Slot) : Queued (s.exit p wchan link).toSched (some p) none L := by
  obtain ⟨-, absent⟩ := q.off runs (.inr rfl)
  refine q.bury absent (.inl rfl) (fun r other => ?_) (update_self ..)
    (fun _ => (q.current p rfl).1) (q.lists.fresh absent link) q.fine
  exact ⟨update_of_ne other .., update_of_ne other .., rfl⟩

lemma reap_queued {s : System} (q : Queued s.toSched cur none L) (dead : s.p_stat p = .szomb)
    (other : cur ≠ some p) : Queued (s.reap p).toSched cur none L := by
  have absent : ∀ k, p ∉ L k := by
    intro k inside
    cases k with
    | slpque h => simpa [dead, alive] using ((q.chains p h).mp inside).1
    | qs => simpa [dead] using (q.runs p inside).1
  refine q.bury absent (.inr ⟨rfl, other⟩) (fun r other => ?_) (update_self ..)
    (fun current => absurd current other) q.lists q.fine
  exact ⟨update_of_ne other .., update_of_ne other .., update_of_ne other ..⟩

/-- A process that dies gives up the processor. -/
lemma Queued.release (q : Queued s (some p) none L) (dead : s.p_stat p = .szomb) :
    Queued s none none L := by
  refine q.change q.lists (fun r other => ⟨rfl, rfl, rfl, fun _ => .rfl,
    by simp [other.symm], id⟩) ⟨q.chains p, q.asleep p, ?_, nofun, q.idle p⟩ q.fine
  exact iff_of_false (fun inside => (q.runs p inside).2.2 rfl) (by simp [dead])

/-- The swapper takes a runnable process from the run queue. -/
lemma remrq_queued (q : Queued s cur x L) (runs : s.p_stat p = .srun) (loaded : s.sload p = true)
    (other : cur ≠ some p) : ∃ L', Queued ((s.setLoad p false).remrq p) cur x L' := by
  have member := (q.ready p runs loaded).resolve_right other
  have enough := Nat.lt_succ_of_le (q.short .qs)
  rcases seek_spec (· == p) _ (q.lists.linked .qs) enough with
    ⟨-, missed⟩ | ⟨a, y, b, here, found, same, -⟩
  · simpa using missed p member
  cases beq_iff_eq.mp same
  have kept := q.lists.mem_remove here
  have found' : seek (s.setLoad p false).p_link _ _ _ = _ := found
  rw [Sched.remrq, found']
  refine ⟨_, q.change (q.lists.remove here) (fun r other => ⟨rfl, rfl,
    update_of_ne other .., fun k => (kept r k).trans (and_iff_left other), .rfl, id⟩) ⟨fun h => ?_,
    q.asleep p, iff_of_false (fun inside => ((kept p .qs).mp inside).2 rfl) ?_,
    fun current => absurd current other, fun idle => ?_⟩ q.fine⟩
  · exact q.chains p h
  · simp [Sched.unlink, Sched.setLoad]
  · cases runs.symm.trans idle

lemma swapin_queued (q : Queued s cur none L) (runs : s.p_stat p = .srun)
    (out : s.sload p = false) : ∃ L', Queued ((s.setrq p).setLoad p true) cur none L' := by
  obtain ⟨quiet, absent⟩ := q.off runs (.inl out)
  have added := mem_push L .qs p
  have here : ((s.setrq p).setLoad p true).sload p = true := update_self ..
  refine ⟨_, q.change (q.lists.push .qs absent) (fun r other => ⟨rfl, rfl,
    update_of_ne other .., fun k => (added r k).trans (by simp [other]), .rfl, id⟩)
    (.quiet (fun _ => quiet) (fun h inside => ?_) (iff_of_true ((added p .qs).mpr (.inr ⟨rfl, rfl⟩))
      ⟨runs, here, fun current => ?_⟩) (fun current => ⟨here, (q.current p current).2⟩) fun _ => here)
    q.fine⟩
  · exact absent _ (((added p _).mp inside).resolve_right fun here => nomatch here.2)
  · cases out.symm.trans (q.current p current).1

def Orderly (A : Layout) (s : System) : Prop :=
  (∃ L, Queued s.toSched s.cur none L) ∧ Reserved A s.toSched

/-- A step that takes no process to another channel. -/
lemma Reserved.mono (reserved : Reserved A s)
    (same : ∀ p, alive (t.p_stat p) = true → t.sintr p = true →
      alive (s.p_stat p) = true ∧ s.sintr p = true ∧ t.p_wchan p = s.p_wchan p) :
    Reserved A t := by
  intro p live intr
  obtain ⟨live', intr', wchan⟩ := same p live intr
  rw [wchan]
  exact reserved p live' intr'

lemma Reserved.setIntr (reserved : Reserved A s) (p : Slot) : Reserved A (s.setIntr p false) := by
  refine reserved.mono fun r live intr => ⟨live, ?_, rfl⟩
  by_cases same : r = p
  · subst same
    simp [Sched.setIntr] at intr
  · simpa [Sched.setIntr, same] using intr

lemma enqueue_reserved (reserved : Reserved A s) {catches : Bool}
    (free : catches = true → ident ≠ A.runout) : Reserved A (s.enqueue p ident catches) := by
  intro r live intr
  by_cases same : r = p
  · subst same
    simp only [Sched.enqueue, update_self] at intr ⊢
    exact free intr
  · simp only [Sched.enqueue, update_of_ne same] at intr ⊢
    exact reserved r live intr

lemma halt_tame (A : Layout) (live : alive (s.p_stat p) = true) : Tame s (s.halt A p) := by
  have told : Tame s (if s.notifies p then s.psignalChild A (s.info p).p_pptr else s) := by
    split_ifs
    · exact psignalChild_tame A s _
    · exact Tame.refl s
  exact told.trans (stop_tame A ((told.live p).trans live))

lemma doze_tame (A : Layout) (live : alive (s.p_stat p) = true) : Tame s (s.doze A p) := by
  have sleeps := setStat_tame .ssleep live rfl
  unfold Sched.doze
  split_ifs
  · exact sleeps
  · exact sleeps.trans (walk_tame A Sched.rounds _ _ _)

lemma setStat_self {stat : Stat} (is : s.p_stat p = stat) : s.setStat p stat = s := by
  rw [Sched.setStat, ← is, update_eq_self]

/-- `unsleep` inside of `tsleep`: the process still runs. -/
lemma Queued.inside (q : Queued s cur (some p) L) (zero : s.p_wchan p = 0) :
    Queued s cur none L := by
  refine ⟨q.lists, q.chains, fun r live waits => ?_, q.runs, q.ready, q.current, q.idle, q.fine⟩
  rcases q.asleep r live waits with ssleep | sstop | inside
  · exact .inl ssleep
  · exact .inr (.inl sstop)
  · cases inside
    exact absurd zero waits

lemma tsleep_orderly {s : System} (orderly : Orderly A s) (running : s.cur = some p)
    (runs : s.p_stat p = .srun) (waits : ident ≠ 0) {catches : Bool}
    (free : catches = true → ident ≠ A.runout) {cursig : Cursig}
    (calm : Calm A s (.tsleep ident catches cursig)) :
    Orderly A (s.tsleep A p ident catches cursig) := by
  obtain ⟨⟨L, q⟩, reserved⟩ := orderly
  rw [running] at q
  obtain ⟨L', entered⟩ := enqueue_queued q runs waits catches
  have reserved' := enqueue_reserved (p := p) reserved free
  have runs' : (s.enqueue p ident catches).p_stat p = .srun := runs
  have live : alive ((s.enqueue p ident catches).p_stat p) = true := congrArg alive runs'
  unfold System.tsleep
  dsimp only
  split
  · obtain ⟨⟨L', left⟩, zero, -, stat, -⟩ := unsleep_spec entered live
    rw [setStat_self ((congrFun stat p).trans runs')]
    constructor
    · have settled := left.inside zero
      exact ⟨L', settled.lists, settled.chains, settled.asleep, running ▸ settled.runs,
        running ▸ settled.ready, running ▸ settled.current, settled.idle, settled.fine⟩
    · exact (reserved'.tame (unsleep_frame _ p).1).setIntr p
  · constructor
    · refine halt_queued entered runs' (.inr rfl) fun notifies takes unloaded out => ?_
      rintro r ⟨⟩
      have other : (s.info p).p_pptr ≠ p := by
        intro same
        have sleeps : s.p_stat (s.info p).p_pptr = .ssleep := takes.1
        rw [same, runs] at sleeps
        cases sleeps
      have intr : s.sintr (s.info p).p_pptr = true := (update_of_ne other ..).symm.trans takes.2.1
      have apart := calm p running notifies ⟨takes.1, intr, takes.2.2⟩ unloaded out
      have here : (s.enqueue p ident true).p_wchan p = ident := update_self ..
      rw [here]
      exact ⟨runs, apart, fun _ => apart⟩
    · exact reserved'.tame (halt_tame A live)
  · exact ⟨doze_queued entered runs' (.inr rfl), reserved'.tame (doze_tame A live)⟩

/-- The steps that the running process takes. -/
lemma stopSelf_orderly {s : System} (orderly : Orderly A s) (running : s.cur = some p)
    (runs : s.p_stat p = .srun) (again : Bool) :
    Orderly A (System.switch (if again then s.stop A p else s.halt A p)) := by
  obtain ⟨⟨L, q⟩, reserved⟩ := orderly
  rw [running] at q
  have live : alive (s.p_stat p) = true := congrArg alive runs
  split_ifs
  · have rests := q.rest runs (.inl rfl) (.inr rfl)
    exact ⟨(wakeup_keeps rests (clear_none A _ _)).1, reserved.tame (stop_tame A live)⟩
  · exact ⟨halt_queued q runs (.inl rfl) fun _ _ _ _ => clear_none A _ _,
      reserved.tame (halt_tame A live)⟩

/-- The steps that can come at any time. -/
lemma keep_orderly {s : System} {t : Sched} (queued : ∃ L, Queued t s.cur none L)
    (reserved : Reserved A s.toSched) (tame : Tame s.toSched t) : Orderly A (s.keep t) :=
  ⟨queued, reserved.tame tame⟩

section

variable {s : System} (orderly : Orderly A s)
include orderly

lemma endtsleep_orderly (live : alive (s.p_stat p) = true) :
    Orderly A (s.keep (s.toSched.endtsleep A p)) := by
  obtain ⟨⟨L, q⟩, reserved⟩ := orderly
  unfold Sched.endtsleep
  split_ifs with quiet sleeps
  · exact ⟨⟨L, q⟩, reserved⟩
  · exact keep_orderly (setrun_keeps q (.inl sleeps) fun _ _ => clear_none A _ _).1 reserved
      (setrun_tame A _ p)
  · exact keep_orderly (unsleep_keeps q live).1 reserved (unsleep_frame _ p).1

lemma newproc_orderly (running : s.cur = some parent) (runs : s.p_stat parent = .srun)
    (unused : s.p_stat child = .free) (info : Info) : Orderly A (s.newproc parent child info) := by
  obtain ⟨⟨L, q⟩, reserved⟩ := orderly
  rw [running] at q
  refine ⟨newproc_queued q runs unused info, reserved.mono fun r live intr => ?_⟩
  have other : r ≠ child := by
    rintro rfl
    simp [System.newproc] at intr
  simp only [System.newproc, update_of_ne other] at live intr ⊢
  refine ⟨?_, intr, trivial⟩
  by_cases same : r = parent
  · rw [same, runs]
    rfl
  · rwa [update_of_ne same] at live

lemma forked_orderly (running : s.cur = some child) (runs : s.p_stat child = .srun)
    (idle : s.p_stat parent = .sidl) : Orderly A (s.forked A parent child) := by
  obtain ⟨⟨L, q⟩, reserved⟩ := orderly
  rw [running] at q
  have told := wakeSwapper_tame A (s.setLoad child false)
  have live : alive (((s.setLoad child false).wakeSwapper A).p_stat parent) = true := by
    rw [told.live]
    change alive (s.p_stat parent) = true
    rw [idle]
    rfl
  have unloads : Tame s.toSched (s.setLoad child false) := ⟨rfl, fun _ => .inl rfl, fun _ => rfl⟩
  exact ⟨forked_queued q runs idle,
    reserved.tame ((unloads.trans told).trans (setStat_tame .srun live rfl))⟩

lemma exit_orderly (running : s.cur = some p)
    (runs : s.p_stat p = .srun) (wchan : ℕ) (link : Option Slot) :
    Orderly A (s.exit p wchan link) := by
  obtain ⟨⟨L, q⟩, reserved⟩ := orderly
  rw [running] at q
  constructor
  · have queued := exit_queued q runs wchan link
    rw [← running] at queued
    exact ⟨L, queued⟩
  · refine reserved.mono fun r live intr => ?_
    have other : r ≠ p := by
      rintro rfl
      simp [System.exit, System.keep, Sched.setStat, alive] at live
    simp only [System.exit, System.keep, Sched.setStat, update_of_ne other] at live ⊢
    exact ⟨live, intr, trivial⟩

lemma reap_orderly (dead : s.p_stat p = .szomb)
    (other : s.cur ≠ some p) : Orderly A (s.reap p) := by
  obtain ⟨⟨L, q⟩, reserved⟩ := orderly
  refine ⟨⟨L, reap_queued q dead other⟩, reserved.mono fun r live intr => ?_⟩
  have differs : r ≠ p := by
    rintro rfl
    simp [System.reap, System.keep] at intr
  simp only [System.reap, System.keep, Sched.setLoad, Sched.setStat,
    update_of_ne differs] at live intr ⊢
  exact ⟨live, intr, trivial⟩

lemma swapout_orderly (loaded : s.sload p = true)
    (other : s.cur ≠ some p) (busy : s.p_stat p ≠ .sidl) : Orderly A (s.swapout p) := by
  obtain ⟨⟨L, q⟩, reserved⟩ := orderly
  unfold System.swapout
  split_ifs with runs
  · refine keep_orderly (remrq_queued q runs loaded other) reserved ?_
    unfold Sched.remrq
    split
    · exact ⟨rfl, fun _ => .inl rfl, fun _ => rfl⟩
    · exact ⟨rfl, fun _ => .inl rfl, fun _ => rfl⟩
  · refine ⟨⟨L, q.unload (fun inside => runs (q.runs p inside).1) busy s.cur fun r => ?_⟩, reserved⟩
    exact ⟨fun current => ⟨current, fun same => other (same ▸ current)⟩, And.left⟩

end

lemma swtch_orderly {s : System} {r : Sched} (orderly : Orderly A s) (idle : s.cur = none)
    (chosen : s.toSched.swtch = some (p, r)) : Orderly A ⟨r.setIntr p false, some p⟩ := by
  obtain ⟨⟨L, q⟩, reserved⟩ := orderly
  rw [idle] at q
  obtain ⟨L', queued⟩ := swtch_queued q chosen
  obtain ⟨found, -, eq⟩ := map_eq_some_iff.mp chosen
  cases eq
  constructor
  · exact ⟨L', queued.lists, queued.chains, queued.asleep, queued.runs, queued.ready, queued.current,
      queued.idle, queued.fine⟩
  · exact (reserved.mono fun _ live intr => ⟨live, intr, rfl⟩).setIntr _

/-- Every step that meets the condition leaves the queues in order. -/
lemma step_orderly {s t : System} {a : Label} (orderly : Orderly A s) (calm : Calm A s a)
    (step : Step A s a t) : Orderly A t := by
  obtain ⟨⟨L, q⟩, reserved⟩ := id orderly
  have clear := fun h => clear_none A s.toSched h
  unfold Step System.exec at step
  split at step
  · cases step
  split at step
  case h_1 ident catches cursig p running =>
    obtain ⟨may, ⟨⟩⟩ := ite_none_right_eq_some.mp step
    exact tsleep_orderly orderly running may.2.1 may.1 may.2.2 calm
  case h_2 again p running =>
    obtain ⟨runs, ⟨⟩⟩ := ite_none_right_eq_some.mp step
    exact stopSelf_orderly orderly running runs again
  case h_3 p running =>
    obtain ⟨runs, ⟨⟩⟩ := ite_none_right_eq_some.mp step
    rw [running] at q
    exact ⟨preempt_queued q runs, reserved.mono fun _ live intr => ⟨live, intr, rfl⟩⟩
  case h_4 running =>
    obtain ⟨⟨p, r⟩, chosen, rfl⟩ := map_eq_some_iff.mp step
    exact swtch_orderly orderly running chosen
  case h_5 chan =>
    cases step
    exact keep_orderly (wakeup_keeps q (clear _)).1 reserved (walk_tame A Sched.rounds _ _ _)
  case h_6 p sig =>
    obtain ⟨other, ⟨⟩⟩ := ite_none_right_eq_some.mp step
    exact keep_orderly (psignal_keeps q reserved other sig) reserved (psignal_tame A _ p sig)
  case h_7 p =>
    obtain ⟨live, ⟨⟩⟩ := ite_none_right_eq_some.mp step
    exact endtsleep_orderly orderly live
  case h_8 p =>
    obtain ⟨live, ⟨⟩⟩ := ite_none_right_eq_some.mp step
    unfold Sched.selwakeup
    split_ifs
    · exact endtsleep_orderly orderly live
    · exact orderly
  case h_9 p =>
    obtain ⟨halts, ⟨⟩⟩ := ite_none_right_eq_some.mp step
    exact keep_orderly (setrun_keeps q (.inr halts) fun _ _ => clear _).1 reserved
      (setrun_tame A _ p)
  case h_10 child info parent running =>
    obtain ⟨⟨runs, unused⟩, ⟨⟩⟩ := ite_none_right_eq_some.mp step
    exact newproc_orderly orderly running runs unused info
  case h_11 child running =>
    obtain ⟨⟨runs, idle⟩, ⟨⟩⟩ := ite_none_right_eq_some.mp step
    exact forked_orderly orderly running runs idle
  case h_12 wchan link p running =>
    obtain ⟨⟨runs, -⟩, ⟨⟩⟩ := ite_none_right_eq_some.mp step
    exact exit_orderly orderly running runs wchan link
  case h_13 p running =>
    obtain ⟨dead, ⟨⟩⟩ := ite_none_right_eq_some.mp step
    rw [running] at q
    exact ⟨⟨L, q.release dead⟩, reserved⟩
  case h_14 p =>
    obtain ⟨⟨dead, other⟩, ⟨⟩⟩ := ite_none_right_eq_some.mp step
    exact reap_orderly orderly dead other
  case h_15 p c running =>
    obtain ⟨⟨rfl, other, loaded, stat⟩, ⟨⟩⟩ := ite_none_right_eq_some.mp step
    refine swapout_orderly orderly loaded ?_ ?_
    · rw [running]
      exact fun same => other (some.inj same).symm
    · rcases stat with stat | stat | stat <;> simp [stat]
  case h_16 c running =>
    obtain ⟨-, ⟨⟩⟩ := ite_none_right_eq_some.mp step
    exact keep_orderly (wakeSwapper_keeps q fun _ => clear _).1 reserved (wakeSwapper_tame A _)
  case h_17 p c running =>
    obtain ⟨⟨-, runs, out⟩, ⟨⟩⟩ := ite_none_right_eq_some.mp step
    exact keep_orderly (swapin_queued q runs out) reserved ⟨rfl, fun _ => .inl rfl, fun _ => rfl⟩
  case h_18 c running =>
    obtain ⟨⟨-, runs⟩, ⟨⟩⟩ := ite_none_right_eq_some.mp step
    exact tsleep_orderly (s := { s with runout := s.runout + 1 }) ⟨⟨L, q.setRunout _⟩, reserved⟩
      running runs A.runout_ne (fun catches => absurd catches (by decide)) trivial
  case h_19 p info =>
    cases step
    exact ⟨⟨L, q.lists, q.chains, q.asleep, q.runs, q.ready, q.current, q.idle, q.fine⟩, reserved⟩
  case h_20 => cases step

end Steps

lemma boot_orderly (A : Layout) (info : Slot → Info) : Orderly A (boot info) := by
  refine ⟨⟨fun _ => [], ⟨⟨fun k => linked_nil.mpr rfl, fun _ => List.nodup_nil, nofun⟩, ?_, ?_,
    nofun, ?_, ?_, ?_, rfl⟩⟩, nofun⟩
  · intro p h
    simp [boot]
  · exact fun p _ waits => absurd rfl waits
  · intro p _ loaded
    by_cases same : p = 0
    · exact .inr (same ▸ rfl)
    · simp [boot, same] at loaded
  · rintro p ⟨⟩
    exact ⟨rfl, .inl rfl⟩
  · intro p sidl
    by_cases same : p = 0
    · rw [same]
      rfl
    · simp [boot, same] at sidl

/-- In every state that is reached, a process that waits for a channel is once on the sleep queue
of that channel and on no other queue, and one that waits for nothing is on no sleep queue. The run
queue holds a process at most once, and only if it is runnable and loaded. No two queues share a
process, and there was no panic. -/
theorem scheduler_queues (A : Layout) (info : Slot → Info) (as : List Label) (s : System)
    (run : Run (Step A) (Calm A) (boot info) as s) :
    s.panicked = none ∧ ∃ L : Queue → List Slot, (∀ k, Linked s.p_link (.head k) (L k)) ∧
      (∀ p, alive (s.p_stat p) = true → s.p_wchan p ≠ 0 → ∀ k,
        (L k).count p = if k = .slpque (HASH (s.p_wchan p)) then 1 else 0) ∧
      (∀ p, s.p_wchan p = 0 ∨ alive (s.p_stat p) = false → ∀ h, p ∉ L (.slpque h)) ∧
      (∀ p, (L .qs).count p ≤ 1 ∧ (p ∈ L .qs → s.p_stat p = .srun ∧ s.sload p = true)) ∧
      ∀ k k' p, p ∈ L k → p ∈ L k' → k = k' := by
  obtain ⟨⟨L, q⟩, -⟩ := run_invariant (Orderly A)
    (fun _ _ _ orderly calm step => step_orderly orderly calm step) run (boot_orderly A info)
  refine ⟨q.fine, L, q.lists.linked, fun p live waits k => ?_, fun p out h inside => ?_,
    fun p => ?_, q.lists.apart⟩
  · have member : p ∈ L (.slpque (HASH (s.p_wchan p))) := (q.chains p _).mpr ⟨live, waits, rfl⟩
    split_ifs with same
    · rw [same]
      exact List.count_eq_one_of_mem (q.lists.nodup _) member
    · exact List.count_eq_zero_of_not_mem (q.only member same)
  · obtain ⟨live, waits, -⟩ := (q.chains p h).mp inside
    rcases out with zero | dead
    · exact waits zero
    · rw [live] at dead
      cases dead
  · exact ⟨List.nodup_iff_count_le_one.mp (q.lists.nodup .qs) p,
      fun inside => ⟨(q.runs p inside).1, (q.runs p inside).2.1⟩⟩

/-- A kernel whose variables lie one hash chain apart, and processes that catch all signals. -/
def sampleLayout : Layout := ⟨32, 64, 96, fun p => 128 + 32 * p.val, by decide⟩

def sampleInfo : Info := ⟨0, 20, false, false, false, fun _ => .caught⟩

/-- Process 1 forks process 2, sleeps, and is swapped out; the swapper waits for work and process 2
runs. -/
def sampleCalls : List Label :=
  [.newproc 1 sampleInfo, .forked, .swapin 1, .waitRunout, .swtch, .newproc 2 sampleInfo, .forked,
    .tsleep 480 true .quiet, .swtch, .swapout 1, .swapin 2, .waitRunout, .swtch]

instance (A : Layout) (s : System) (a : Label) : Decidable (Calm A s a) := by
  cases a with
  | tsleep ident catches cursig =>
    cases catches <;> cases cursig <;> unfold Calm <;> infer_instance
  | _ => exact isTrue trivial

/-- Process 2 stops while it goes to sleep on a channel of another hash chain than `runout`. -/
theorem scheduler_queues_stop :
    ∃ s : System, Run (Step sampleLayout) (Calm sampleLayout) (boot fun _ => sampleInfo)
        (sampleCalls ++ [.tsleep 512 true .stops]) s ∧
      s.p_wchan 2 = 512 ∧ s.p_stat 2 = .sstop ∧ s.p_stat 1 = .srun ∧ s.panicked = none := by
  exact Exists.imp (fun s ⟨run, channel, stopped, ready⟩ =>
      ⟨run, channel, stopped, ready, (scheduler_queues sampleLayout _ _ s run).1⟩)
    (run_of_reached _
      (P := fun s => s.p_wchan 2 = 512 ∧ s.p_stat 2 = .sstop ∧ s.p_stat 1 = .srun) (by decide))

/-- The same with a channel of the chain of `runout`: the parent is made runnable, `wakeup` looks
for the swapper and finds process 2, which runs. -/
theorem wakeup_panics :
    ∃ s : System, Run (Step sampleLayout) (fun _ _ => True) (boot fun _ => sampleInfo)
        (sampleCalls ++ [.tsleep 544 true .stops]) s ∧ s.panicked = some .wakeup := by
  exact run_of_reached _ (by decide)

end Scheduler
