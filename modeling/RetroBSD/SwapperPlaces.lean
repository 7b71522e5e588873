import RetroBSD.Swapper

/-!
# Who is resident

The swapper and the user processes exclude each other: while the swapper moves
an image nobody is resident, and while a child is copied the swapper finds it
first on `allproc` and locked. Nothing is said here about the bytes.
-/

namespace Swapper

open Function (update update_of_ne update_self update_eq_self)
open List Option

/-- The lists of processes, the run queue, and the process that runs. -/
structure Orderly (s : State) : Prop where
  nodup : (s.allproc ++ s.zombproc ++ s.freeproc).Nodup
  swapper : 0 ∈ s.allproc ∧ s.sload 0 = true
  system : ∀ p ∈ s.allproc, s.ssys p = true ↔ p = 0
  living : ∀ p ∈ s.allproc, s.p_stat p ≠ .szomb
  once : s.qs.Nodup
  active : ∀ p, p ∈ s.qs ∨ s.cur = some p → p ∈ s.allproc ∧ s.p_stat p = .srun ∧ s.sload p = true
  apart : ∀ p ∈ s.qs, s.cur ≠ some p

/-- A child keeps the processor until it is locked. -/
def Held (s : State) (child : ℕ) : OutPc → Prop
  | .start => s.cur = some child
  | _ => s.slock child = true

/-- The four situations of the region. -/
inductive Mode (s : State) : Prop where
  | shared (search : s.thread 0 = .search) (users : ∀ p, p ≠ 0 → s.thread p = .user)
      (alone : ∀ p q, Resident s p → Resident s q → p = q)
  | copying (parent child : ℕ) (pc : OutPc) (search : s.thread 0 = .search)
      (copies : s.thread child = .newproc parent pc)
      (users : ∀ p, p ≠ 0 → p ≠ child → s.thread p = .user)
      (first : s.allproc.head? = some child)
      (pair : ∀ p, Resident s p ↔ p = parent ∨ p = child) (apart : parent ≠ child)
      (waits : s.p_stat parent = .sidl) (held : Held s child pc)
  | leaving (v q : ℕ) (pc : OutPc) (swaps : s.thread 0 = .swapout v q pc)
      (users : ∀ p, p ≠ 0 → s.thread p = .user) (empty : ∀ p, ¬ Resident s p)
      (victim : v ∈ s.allproc ∧ v ≠ 0) (next : q ∈ s.allproc ∧ q ≠ 0) (other : v ≠ q)
  | entering (q : ℕ) (pc : InPc) (swaps : s.thread 0 = .swapin q pc)
      (users : ∀ p, p ≠ 0 → s.thread p = .user) (empty : ∀ p, ¬ Resident s p)
      (next : q ∈ s.allproc ∧ q ≠ 0)

structure Place (s : State) : Prop where
  orderly : Orderly s
  mode : Mode s

variable {s t : State} {p q u0 : ℕ}

lemma goto_self (s : State) (p : ℕ) (next : Thread) : (s.goto p next).thread p = next :=
  update_self ..

lemma goto_other (s : State) (next : Thread) (other : q ≠ p) :
    (s.goto p next).thread q = s.thread q :=
  update_of_ne other ..

lemma users_goto (users : ∀ p, p ≠ 0 → s.thread p = .user) {next : Thread} (p : ℕ) (user : p ≠ 0) :
    (s.goto 0 next).thread p = .user :=
  (goto_other s next user).trans (users p user)

/-- What the lists and queues do not depend on. -/
lemma Orderly.carry (o : Orderly s) {slock sintr svfprnt : ℕ → Bool} {p_time p_nice : ℕ → ℤ}
    {seg : ℕ → Seg} {thread : ℕ → Thread} {swapmap : ResourceMap.Map} {core swapdev : ℕ → UInt8}
    {image : ℕ → Image} : Orderly { s with
      slock, sintr, svfprnt, p_time, p_nice, seg, thread, swapmap, core, swapdev, image } :=
  ⟨o.nodup, o.swapper, o.system, o.living, o.once, o.active, o.apart⟩

lemma Orderly.current (o : Orderly s) (p : ℕ) (runs : s.cur = some p) :
    p ∈ s.allproc ∧ s.p_stat p = .srun ∧ s.sload p = true :=
  o.active p (.inr runs)

lemma Orderly.ssys_false (o : Orderly s) (here : p ∈ s.allproc) : s.ssys p = false ↔ p ≠ 0 := by
  rw [← Bool.not_eq_true, o.system p here]

lemma Orderly.resident (o : Orderly s) (here : p ∈ s.allproc) (user : p ≠ 0)
    (loaded : s.sload p = true) : Resident s p :=
  ⟨here, (o.ssys_false here).mpr user, loaded⟩

lemma Orderly.resident_ne (o : Orderly s) (resident : Resident s p) : p ≠ 0 :=
  (o.ssys_false resident.1).mp resident.2.1

/-- The swapper is never in code of its own. -/
lemma Mode.swapper (mode : Mode s) :
    s.thread 0 ≠ .user ∧ ∀ parent pc, s.thread 0 ≠ .newproc parent pc := by
  cases mode with
  | shared search | copying _ _ _ search =>
    rw [search]
    exact ⟨nofun, nofun⟩
  | leaving _ _ _ swaps | entering _ _ swaps =>
    rw [swaps]
    exact ⟨nofun, nofun⟩

/-- Only the swapper is in the calls of `sched`. -/
lemma Mode.swapper_of_ne (mode : Mode s) (other : s.thread p ≠ .user)
    (apart : ∀ parent pc, s.thread p ≠ .newproc parent pc) : p = 0 := by
  by_contra user
  cases mode with
  | copying parent child pc _ copies users =>
    by_cases own : p = child
    · subst own
      exact apart parent pc copies
    · exact other (users p user own)
  | shared _ users | leaving _ _ _ _ users | entering _ _ _ users => exact other (users p user)

variable {a : Fin 3 → ℕ} {pc' : OutPc} {new : Processes.Stat} {child parent v : ℕ}

/-- The situation of a child that is copied. -/
lemma Mode.of_newproc (mode : Mode s) {pc : OutPc} (at_ : s.thread child = .newproc parent pc) :
    child ≠ 0 ∧ s.thread 0 = .search ∧ (∀ p, p ≠ 0 → p ≠ child → s.thread p = .user) ∧
      s.allproc.head? = some child ∧ (∀ p, Resident s p ↔ p = parent ∨ p = child) ∧
      parent ≠ child ∧ s.p_stat parent = .sidl ∧ Held s child pc := by
  have user : child ≠ 0 := by
    rintro rfl
    exact mode.swapper.2 parent pc at_
  have notUser : s.thread child ≠ .user := by rw [at_]; nofun
  cases mode with
  | copying parent' child' pc' search copies users first pair apart waits held =>
    obtain rfl : child = child' := by_contra fun other => notUser (users child user other)
    cases copies.symm.trans at_
    exact ⟨user, search, users, first, pair, apart, waits, held⟩
  | shared _ users | leaving _ _ _ _ users | entering _ _ _ users =>
    exact absurd (users child user) notUser

lemma Mode.of_swapout (mode : Mode s) {pc : OutPc} (at_ : s.thread p = .swapout v q pc) :
    p = 0 ∧ (∀ p, p ≠ 0 → s.thread p = .user) ∧ (∀ p, ¬ Resident s p) ∧
      (v ∈ s.allproc ∧ v ≠ 0) ∧ (q ∈ s.allproc ∧ q ≠ 0) ∧ v ≠ q := by
  obtain rfl := mode.swapper_of_ne (by rw [at_]; nofun) (by rw [at_]; nofun)
  cases mode with
  | shared search | copying _ _ _ search => exact nomatch search.symm.trans at_
  | leaving _ _ _ swaps users empty victim next other =>
    cases swaps.symm.trans at_
    exact ⟨rfl, users, empty, victim, next, other⟩
  | entering _ _ swaps => exact nomatch swaps.symm.trans at_

lemma Mode.of_swapin (mode : Mode s) {pc : InPc} (at_ : s.thread p = .swapin q pc) :
    p = 0 ∧ (∀ p, p ≠ 0 → s.thread p = .user) ∧ (∀ p, ¬ Resident s p) ∧ q ∈ s.allproc ∧ q ≠ 0 := by
  obtain rfl := mode.swapper_of_ne (by rw [at_]; nofun) (by rw [at_]; nofun)
  cases mode with
  | shared search | copying _ _ _ search => exact nomatch search.symm.trans at_
  | leaving _ _ _ swaps => exact nomatch swaps.symm.trans at_
  | entering _ _ swaps users empty next =>
    cases swaps.symm.trans at_
    exact ⟨rfl, users, empty, next⟩

lemma Mode.held_start (mode : Mode s)
    (copies : s.thread child = .newproc parent .start) : s.cur = some child := by
  obtain ⟨-, -, -, -, -, -, -, held⟩ := mode.of_newproc copies
  exact held

lemma Mode.of_only {r : ℕ} (search : s.thread 0 = .search)
    (users : ∀ p, p ≠ 0 → s.thread p = .user) (only : ∀ p, Resident s p → p = r) : Mode s :=
  .shared search users fun p q resident resident' => (only p resident).trans (only q resident').symm

/-- A process that runs in code of its own has the region to itself. -/
lemma Place.user_alone (place : Place s) (runs : s.cur = some p) (own : s.thread p = .user) :
    p ≠ 0 ∧ s.thread 0 = .search ∧ (∀ q, q ≠ 0 → s.thread q = .user) ∧
      ∀ q, Resident s q ↔ q = p := by
  have user : p ≠ 0 := by
    rintro rfl
    exact place.mode.swapper.1 own
  have current := place.orderly.current p runs
  have resident := place.orderly.resident current.1 user current.2.2
  cases place.mode with
  | shared search users alone =>
    exact ⟨user, search, users, fun q => ⟨fun other => alone q p other resident,
      fun same => same ▸ resident⟩⟩
  | copying parent child pc _ copies _ _ pair _ waits =>
    rcases (pair p).mp resident with rfl | rfl
    · exact nomatch waits.symm.trans (place.orderly.current p runs).2.1
    · exact nomatch copies.symm.trans own
  | leaving _ _ _ _ _ empty => exact absurd resident (empty p)
  | entering _ _ _ _ empty => exact absurd resident (empty p)

/-! ## What keeps the lists in order -/

section

variable (o : Orderly s)
include o

lemma Orderly.not_queued (other : s.p_stat p ≠ .srun) : p ∉ s.qs ∧ s.cur ≠ some p :=
  not_or.mp fun busy => other (o.active p busy).2.1

lemma Orderly.idle : Orderly { s with cur := none } :=
  ⟨o.nodup, o.swapper, o.system, o.living, o.once,
    fun p busy => o.active p (.inl (busy.resolve_right nofun)), fun _ _ => nofun⟩

/-- Who ran is neither queued nor running once it has given up the processor. -/
lemma Orderly.unqueued (runs : s.cur = some p) : p ∉ s.qs ∧ none ≠ some p :=
  ⟨fun queued => o.apart p queued runs, nofun⟩

lemma Orderly.dispatch (here : p ∈ s.allproc) (ready : s.p_stat p = .srun)
    (loaded : s.sload p = true) (out : p ∉ s.qs) : Orderly { s with cur := some p } := by
  refine ⟨o.nodup, o.swapper, o.system, o.living, o.once, ?_, ?_⟩
  · rintro q (queued | runs)
    · exact o.active q (.inl queued)
    · cases runs
      exact ⟨here, ready, loaded⟩
  · rintro q queued ⟨⟩
    exact out queued

lemma Orderly.enqueue (here : p ∈ s.allproc) (ready : s.p_stat p = .srun)
    (loaded : s.sload p = true) (out : p ∉ s.qs ∧ s.cur ≠ some p) :
    Orderly { s with qs := p :: s.qs } := by
  refine ⟨o.nodup, o.swapper, o.system, o.living, nodup_cons.mpr ⟨out.1, o.once⟩, ?_,
    forall_mem_cons.mpr ⟨out.2, o.apart⟩⟩
  rintro q (queued | runs)
  · rcases mem_cons.mp queued with rfl | queued
    · exact ⟨here, ready, loaded⟩
    · exact o.active q (.inl queued)
  · exact o.current q runs

lemma Orderly.dequeue (p : ℕ) : Orderly { s with qs := s.qs.erase p } :=
  ⟨o.nodup, o.swapper, o.system, o.living, o.once.erase p,
    fun q busy => o.active q (busy.imp_left mem_of_mem_erase),
    fun q queued => o.apart q (mem_of_mem_erase queued)⟩

/-- The state and the flag of a process that does not run change. -/
lemma Orderly.change (out : p ∉ s.qs ∧ s.cur ≠ some p) (alive : new ≠ .szomb)
    (load : Bool) (user : p ≠ 0 ∨ load = s.sload p) :
    Orderly { s with p_stat := update s.p_stat p new, sload := update s.sload p load } := by
  refine ⟨o.nodup, ⟨o.swapper.1, ?_⟩, o.system, ?_, o.once, ?_, o.apart⟩
  · rcases user with user | rfl
    · exact (update_of_ne user.symm ..).trans o.swapper.2
    · rw [update_eq_self]
      exact o.swapper.2
  · intro q here
    by_cases same : q = p
    · exact same ▸ (update_self ..).trans_ne alive
    · exact (update_of_ne same ..).trans_ne (o.living q here)
  · intro q busy
    obtain ⟨here, ready, loaded⟩ := o.active q busy
    have other : q ≠ p := by
      rintro rfl
      exact busy.elim out.1 out.2
    exact ⟨here, (update_of_ne other ..).trans ready, (update_of_ne other ..).trans loaded⟩

lemma Orderly.restat (out : p ∉ s.qs ∧ s.cur ≠ some p) (new : Processes.Stat)
    (alive : new ≠ .szomb) : Orderly { s with p_stat := update s.p_stat p new } := by
  have changed := o.change out alive (s.sload p) (.inr rfl)
  rwa [update_eq_self] at changed

lemma Orderly.reload (here : p ∈ s.allproc) (out : p ∉ s.qs ∧ s.cur ≠ some p)
    (user : p ≠ 0) (load : Bool) : Orderly { s with sload := update s.sload p load } := by
  have changed := o.change out (o.living p here) load (.inl user)
  rwa [update_eq_self] at changed

end

/-! ## Steps of the queues -/

/-- A process that waits for its child goes on waiting, and a child that is not
locked yet goes on running. -/
lemma Mode.resched (mode : Mode s) {p_stat : ℕ → Processes.Stat} {qs : List ℕ} {cur : Option ℕ}
    {sintr : ℕ → Bool} {p_time p_nice : ℕ → ℤ} (idle : ∀ p, s.p_stat p = .sidl → p_stat p = .sidl)
    (busy : ∀ child parent, s.thread child = .newproc parent .start → cur = some child) :
    Mode { s with p_stat, qs, cur, sintr, p_time, p_nice } := by
  cases mode with
  | shared search users alone => exact .shared search users alone
  | copying parent child pc search copies users first pair apart waits held =>
    refine .copying parent child pc search copies users first pair apart (idle parent waits) ?_
    cases pc with
    | start => exact busy child parent copies
    | data _ | stack _ | area _ | finish _ => exact held
  | leaving v q pc swaps users empty victim next other =>
    exact .leaving v q pc swaps users empty victim next other
  | entering q pc swaps users empty next => exact .entering q pc swaps users empty next

lemma asUser_eq_some {act : ℕ → Option State} :
    s.asUser act = some t ↔ ∃ p, s.cur = some p ∧ s.thread p = .user ∧ act p = some t := by
  unfold State.asUser
  split
  · rename_i none
    simp [none]
  · rename_i p runs
    split
    · rename_i own
      simp [runs, own]
    · rename_i other
      simp only [runs, some.injEq, reduceCtorEq, false_iff, not_exists]
      rintro _ ⟨rfl, own, -⟩
      exact other own

/-- Who sleeps is not about to lock itself. -/
lemma sleep_cases {sintr : Bool} (step : s.sleep sintr = some t) :
    ∃ p b, s.cur = some p ∧ (∀ parent, s.thread p ≠ .newproc parent .start) ∧ t = s.tsleep p b := by
  unfold State.sleep at step
  split at step
  · cases step
  rename_i p runs
  split at step
  · rename_i own
    cases step
    exact ⟨p, sintr, runs, by rw [own]; nofun, rfl⟩
  · cases step
  · rename_i parent pc own
    obtain ⟨waits, ⟨⟩⟩ := ite_none_right_eq_some.mp step
    refine ⟨p, false, runs, fun parent start => ?_, rfl⟩
    cases own.symm.trans start
    cases waits
  · rename_i own
    obtain ⟨waits, ⟨⟩⟩ := ite_none_right_eq_some.mp step
    exact ⟨p, false, runs, by rw [own]; nofun, rfl⟩
  · rename_i own
    obtain ⟨-, ⟨⟩⟩ := ite_none_right_eq_some.mp step
    exact ⟨p, false, runs, by rw [own]; nofun, rfl⟩

lemma idle_update (busy : s.p_stat p ≠ .sidl) :
    ∀ q, s.p_stat q = .sidl → update s.p_stat p new q = .sidl := by
  intro q waits
  have other : q ≠ p := by
    rintro rfl
    exact busy waits
  exact (update_of_ne other ..).trans waits

/-- The current process gives up the processor, not to run for a while. -/
lemma Place.rest (place : Place s) (runs : s.cur = some p)
    (free : ∀ parent, s.thread p ≠ .newproc parent .start) (new : Processes.Stat)
    (alive : new ≠ .szomb) (sintr : ℕ → Bool) :
    Place { s with p_stat := update s.p_stat p new, sintr, cur := none } := by
  have o := place.orderly
  constructor
  · exact (o.idle.restat (o.unqueued runs) new alive).carry
  · apply place.mode.resched
    · apply idle_update
      rw [(o.current p runs).2.1]
      nofun
    · intro child parent copies
      cases runs.symm.trans (place.mode.held_start copies)
      exact absurd copies (free parent)

lemma preempt_place (place : Place s) (runs : s.cur = some p) (own : s.thread p = .user) :
    Place { s with qs := p :: s.qs, cur := none } := by
  have o := place.orderly
  constructor
  · obtain ⟨here, ready, loaded⟩ := o.current p runs
    exact o.idle.enqueue here ready loaded (o.unqueued runs)
  · apply place.mode.resched (fun _ => id)
    intro child parent copies
    cases runs.symm.trans (place.mode.held_start copies)
    exact nomatch own.symm.trans copies

lemma swtch_place (place : Place s) (idle : s.cur = none) (queued : p ∈ s.qs) :
    Place { s with qs := s.qs.erase p, cur := some p } := by
  have o := place.orderly
  constructor
  · obtain ⟨here, ready, loaded⟩ := o.active p (.inl queued)
    exact (o.dequeue p).dispatch here ready loaded o.once.not_mem_erase
  · apply place.mode.resched (fun _ => id)
    intro child parent copies
    exact nomatch idle.symm.trans (place.mode.held_start copies)

lemma ne_of_asleep (asleep : s.p_stat p = .ssleep ∨ s.p_stat p = .sstop)
    (other : new ≠ .ssleep ∧ new ≠ .sstop) : s.p_stat p ≠ new := by
  rintro rfl
  exact asleep.elim other.1 other.2

lemma restat_place (place : Place s)
    (asleep : s.p_stat p = .ssleep ∨ s.p_stat p = .sstop) (alive : new ≠ .szomb) :
    Place { s with p_stat := update s.p_stat p new } := by
  constructor
  · exact place.orderly.restat (place.orderly.not_queued (ne_of_asleep asleep ⟨nofun, nofun⟩)) new alive
  · apply place.mode.resched
    · exact idle_update (ne_of_asleep asleep ⟨nofun, nofun⟩)
    · intro child parent copies
      exact place.mode.held_start copies

lemma setrun_place (place : Place s) (here : p ∈ s.allproc)
    (asleep : s.p_stat p = .ssleep ∨ s.p_stat p = .sstop) : Place (s.setrun p) := by
  have o := place.orderly
  have out := o.not_queued (ne_of_asleep asleep ⟨nofun, nofun⟩)
  have ready : Orderly { s with p_stat := update s.p_stat p .srun } := o.restat out .srun nofun
  constructor
  · unfold State.setrun
    split_ifs with loaded
    · exact ready.enqueue here (update_self ..) loaded out
    · exact ready
  · apply place.mode.resched
    · exact idle_update (ne_of_asleep asleep ⟨nofun, nofun⟩)
    · intro child parent copies
      exact place.mode.held_start copies

/-! ## The searches of the swapper -/

lemma outLongest_spec {l : List ℕ} {found : Option ℕ} {time out_time : ℤ}
    (result : s.outLongest l found time = (some q, out_time)) :
    found = some q ∨ q ∈ l ∧ s.sload q = false := by
  induction l generalizing found time with
  | nil =>
    cases result
    exact .inl rfl
  | cons rp rest ih =>
    have later : ∀ {found' : Option ℕ} {time' : ℤ},
        s.outLongest rest found' time' = (some q, out_time) →
        found' = found ∨ found' = some rp ∧ s.sload rp = false →
        found = some q ∨ q ∈ rp :: rest ∧ s.sload q = false := by
      intro found' time' result from'
      rcases ih result with same | ⟨here, out⟩
      · rcases from' with rfl | ⟨rfl, out⟩
        · exact .inl same
        · cases same
          exact .inr ⟨mem_cons_self, out⟩
      · exact .inr ⟨mem_cons_of_mem rp here, out⟩
    simp only [State.outLongest] at result
    split_ifs at result with skip longer vfork
    · exact later result (.inl rfl)
    · have out : s.sload rp = false := by simpa using (not_or.mp skip).2
      cases result
      exact .inr ⟨mem_cons_self, out⟩
    · exact later result (.inr ⟨rfl, by simpa using (not_or.mp skip).2⟩)
    · exact later result (.inl rfl)

lemma inCore_none (o : Orderly s) (none : s.inCore = none) : ∀ p, ¬ Resident s p := by
  intro p resident
  have found := find?_eq_none.mp none p resident.1
  simp [o.living p resident.1, resident.2.1, resident.2.2] at found

lemma inCore_some (found : s.inCore = some p) : Resident s p := by
  have holds := find?_some found
  simp only [Bool.and_eq_true, Bool.not_eq_true'] at holds
  exact ⟨mem_of_find?_eq_some found, holds.1.2, holds.2⟩

lemma inCore_first (o : Orderly s) (first : s.allproc.head? = some p) (resident : Resident s p) :
    s.inCore = some p := by
  obtain ⟨rest, list⟩ := head?_eq_some_iff.mp first
  unfold State.inCore
  rw [list]
  simp [o.living p resident.1, resident.2.1, resident.2.2]

/-- The swapper sleeps, or it swaps in, or it takes the flag of the process in
core first. -/
lemma sched_cases (o : Orderly s) (step : s.sched = some t) : t = s.tsleep 0 false ∨
    (∃ q, q ∈ s.allproc ∧ s.sload q = false ∧ s.inCore = none ∧ t = s.goto 0 (.swapin q .data)) ∨
    ∃ v q, q ∈ s.allproc ∧ s.sload q = false ∧ s.inCore = some v ∧ s.slock v = false ∧
      t = State.goto { s with sload := update s.sload v false, qs := s.qs.erase v } 0
        (.swapout v q .start) := by
  unfold State.sched at step
  split at step
  · cases step
    exact .inl rfl
  rename_i q out_time found
  rcases outLongest_spec found with none | ⟨here, out⟩
  · cases none
  split at step
  · rename_i none
    cases step
    exact .inr (.inl ⟨q, here, out, none, rfl⟩)
  rename_i v inCore
  split_ifs at step with leaves ready
  · obtain ⟨r, removed, rfl⟩ := map_eq_some_iff.mp step
    obtain ⟨-, ⟨⟩⟩ := ite_none_right_eq_some.mp removed
    simp only [State.mayLeave, Bool.and_eq_true, Bool.not_eq_true'] at leaves
    exact .inr (.inr ⟨v, q, here, out, inCore, leaves.1, rfl⟩)
  · cases step
    simp only [State.mayLeave, Bool.and_eq_true, Bool.not_eq_true'] at leaves
    refine .inr (.inr ⟨v, q, here, out, inCore, leaves.1, ?_⟩)
    rw [erase_of_not_mem (o.not_queued ready).1]
  · cases step
    exact .inl rfl

/-- What the searches find they find while no child is copied. -/
lemma Place.search_shared (place : Place s) (runs : s.cur = some 0) (search : s.thread 0 = .search)
    (found : s.inCore = none ∨ ∃ v, s.inCore = some v ∧ s.slock v = false) :
    (∀ p, p ≠ 0 → s.thread p = .user) ∧ ∀ p q, Resident s p → Resident s q → p = q := by
  cases place.mode with
  | shared _ users alone => exact ⟨users, alone⟩
  | copying parent child pc _ copies _ first pair _ _ held =>
    have resident := (pair child).mpr (.inr rfl)
    have locked : s.slock child = true := by
      cases pc with
      | start =>
        cases runs.symm.trans held
        exact absurd rfl (place.orderly.resident_ne resident)
      | data _ | stack _ | area _ | finish _ => exact held
    rw [inCore_first place.orderly first resident] at found
    rcases found with none | ⟨v, ⟨⟩, unlocked⟩
    · cases none
    · exact nomatch locked.symm.trans unlocked
  | leaving _ _ _ swaps => exact nomatch swaps.symm.trans search
  | entering _ _ swaps => exact nomatch swaps.symm.trans search

/-- A process that is on `allproc` without the flag is a user process. -/
lemma Orderly.out_ne (o : Orderly s) (out : s.sload q = false) : q ≠ 0 := by
  rintro rfl
  exact nomatch o.swapper.2.symm.trans out

lemma sched_place (place : Place s) (runs : s.cur = some 0) (search : s.thread 0 = .search)
    (step : s.sched = some t) : Place t := by
  have o := place.orderly
  obtain rfl | ⟨q, here, out, none, rfl⟩ | ⟨v, q, here, out, inCore, unlocked, rfl⟩ :=
    sched_cases o step
  · exact place.rest runs (fun parent => by rw [search]; nofun) .ssleep nofun _
  · obtain ⟨users, -⟩ := place.search_shared runs search (.inl none)
    have empty := inCore_none o none
    exact ⟨o.carry, .entering q .data (goto_self ..) (users_goto users) empty ⟨here, o.out_ne out⟩⟩
  · obtain ⟨users, alone⟩ := place.search_shared runs search (.inr ⟨v, inCore, unlocked⟩)
    have resident := inCore_some inCore
    have user := o.resident_ne resident
    have still : ∀ {p}, p ≠ v → update s.sload v false p = s.sload p :=
      fun other => update_of_ne other ..
    constructor
    · refine ((o.dequeue v).reload resident.1 ⟨o.once.not_mem_erase, fun current => ?_⟩ user
        false).carry
      exact user (some.inj (current.symm.trans runs))
    · refine .leaving v q .start (goto_self ..) (users_goto users) ?_ ⟨resident.1, user⟩
        ⟨here, o.out_ne out⟩ ?_
      · rintro p ⟨here, system, loaded⟩
        by_cases same : p = v
        · subst same
          exact nomatch loaded.symm.trans (update_self ..)
        · exact same (alone p v ⟨here, system, (still same).symm.trans loaded⟩ resident)
      · rintro rfl
        exact nomatch resident.2.2.symm.trans out

/-! ## Processes come and go -/

lemma Orderly.fresh (o : Orderly s) {rest : List ℕ} (free : s.freeproc = child :: rest) :
    child ∉ s.allproc ∧ (child :: s.allproc ++ s.zombproc ++ rest).Nodup := by
  have nodup := o.nodup
  rw [free] at nodup
  have moved := perm_middle.nodup_iff.mp nodup
  refine ⟨fun here => (nodup_cons.mp moved).1 ?_, moved⟩
  exact mem_append_left _ (mem_append_left _ here)

lemma Orderly.erase_nodup (o : Orderly s) (here : p ∈ s.allproc) :
    (s.allproc.erase p ++ (p :: s.zombproc) ++ s.freeproc).Nodup := by
  have moved : (s.allproc.erase p ++ (p :: s.zombproc) ++ s.freeproc).Perm
      (s.allproc ++ s.zombproc ++ s.freeproc) :=
    (perm_middle.trans ((perm_cons_erase here).symm.append_right _)).append_right _
  exact moved.nodup_iff.mpr o.nodup

section

variable (place : Place s) (runs : s.cur = some p) (own : s.thread p = .user)
include place runs own

lemma newproc_place (step : s.newproc p = some t) : Place t := by
  have o := place.orderly
  obtain ⟨user, search, users, only⟩ := place.user_alone runs own
  unfold State.newproc at step
  split at step
  · cases step
  rename_i child rest free
  cases step
  obtain ⟨fresh, nodup⟩ := o.fresh free
  have apart : p ≠ child := ne_of_mem_of_not_mem (o.current p runs).1 fresh
  have childNe : child ≠ 0 := (ne_of_mem_of_not_mem o.swapper.1 fresh).symm
  have old : ∀ {q}, q ∈ s.allproc → q ≠ child := fun here => ne_of_mem_of_not_mem here fresh
  have o' := o.idle.restat (o.unqueued runs) .sidl nofun
  constructor
  · refine ⟨nodup, ⟨mem_cons_of_mem _ o.swapper.1, ?_⟩, ?_, ?_, o.once, ?_, ?_⟩
    · exact (update_of_ne childNe.symm ..).trans o.swapper.2
    · intro q either
      rcases mem_cons.mp either with rfl | here
      · simp [childNe]
      · simp [update_of_ne (old here), o.system q here]
    · intro q either
      rcases mem_cons.mp either with rfl | here
      · simp
      · exact (update_of_ne (old here) ..).trans_ne (o'.living q here)
    · rintro q (queued | runs')
      · obtain ⟨here, ready, loaded⟩ := o'.active q (.inl queued)
        exact ⟨mem_cons_of_mem _ here, (update_of_ne (old here) ..).trans ready,
          (update_of_ne (old here) ..).trans loaded⟩
      · cases runs'
        exact ⟨mem_cons_self, update_self .., update_self ..⟩
    · exact fun q queued same => old (o.active q (.inl queued)).1 (some.inj same).symm
  · refine .copying p child .start ?_ (update_self ..) ?_ rfl ?_ apart ?_ rfl
    · exact (update_of_ne childNe.symm ..).trans search
    · intro q user other
      exact (update_of_ne other ..).trans (users q user)
    · intro q
      by_cases same : q = child
      · subst same
        simp [Resident]
      · simp only [Resident, mem_cons, same, false_or, or_false, update_of_ne same]
        exact only q
    · simp [update_of_ne apart]

lemma exit_place (seg : Seg) : Place (s.exit p seg) := by
  have o := place.orderly
  obtain ⟨user, search, users, only⟩ := place.user_alone runs own
  obtain ⟨here, -⟩ := o.current p runs
  have once : s.allproc.Nodup := o.nodup.of_append_left.of_append_left
  have left : ∀ {q}, q ∈ s.allproc.erase p → q ≠ p ∧ q ∈ s.allproc := once.mem_erase_iff.mp
  constructor
  · refine ⟨o.erase_nodup here, ⟨?_, o.swapper.2⟩, ?_, ?_, o.once, ?_, fun _ _ => nofun⟩
    · exact once.mem_erase_iff.mpr ⟨user.symm, o.swapper.1⟩
    · intro q still
      exact o.system q (left still).2
    · intro q still
      exact (update_of_ne (left still).1 ..).trans_ne (o.living q (left still).2)
    · intro q busy
      obtain ⟨there, ready, loaded⟩ := o.idle.active q busy
      have other : q ≠ p := fun same => busy.elim (same ▸ (o.unqueued runs).1) nofun
      exact ⟨once.mem_erase_iff.mpr ⟨other, there⟩, (update_of_ne other ..).trans ready, loaded⟩
  · refine .shared search users ?_
    rintro q r ⟨still, rest⟩ -
    exact absurd ((only q).mp ⟨(left still).2, rest⟩) (left still).1

/-- The fields of an entry that is not on `allproc` do not matter. -/
lemma wait_place (dead : q ∈ s.zombproc) : Place (s.reap q) := by
  have o := place.orderly
  obtain ⟨-, search, users, only⟩ := place.user_alone runs own
  have apart : List.Disjoint s.allproc s.zombproc := disjoint_of_nodup_append o.nodup.of_append_left
  have other : ∀ {r}, r ∈ s.allproc → r ≠ q := fun here same => apart here (same ▸ dead)
  have nodup : (s.allproc ++ s.zombproc.erase q ++ (q :: s.freeproc)).Nodup := by
    have moved : (s.allproc ++ s.zombproc.erase q ++ (q :: s.freeproc)).Perm
        (s.allproc ++ s.zombproc ++ s.freeproc) := by
      rw [append_assoc, append_assoc]
      refine List.Perm.append_left _ (perm_middle.trans ?_)
      exact (perm_cons_erase dead).symm.append_right _
    exact moved.nodup_iff.mpr o.nodup
  constructor
  · refine ⟨nodup, ⟨o.swapper.1, ?_⟩, ?_, ?_, o.once, ?_, o.apart⟩
    · exact (update_of_ne (other o.swapper.1) ..).trans o.swapper.2
    · intro r here
      simp only [State.reap, update_of_ne (other here)]
      exact o.system r here
    · intro r here
      exact (update_of_ne (other here) ..).trans_ne (o.living r here)
    · intro r busy
      obtain ⟨here, ready, loaded⟩ := o.active r busy
      exact ⟨here, (update_of_ne (other here) ..).trans ready,
        (update_of_ne (other here) ..).trans loaded⟩
  · refine .of_only (r := p) search users ?_
    rintro r ⟨here, system, loaded⟩
    simp only [State.reap, update_of_ne (other here)] at system loaded
    exact (only r).mp ⟨here, system, loaded⟩

end

/-! ## Images on their way -/

/-- A part of `swapout` before the last one. -/
lemma swapout_next {pc : OutPc} (part : s.swapout p a pc = some (t, some pc')) :
    ∃ mp lock dev, t = { s with swapmap := mp, slock := lock, swapdev := dev } ∧
      (pc = .start ∨ s.slock p = true → Held t p pc') := by
  cases pc with
  | start =>
    obtain ⟨-, result⟩ := ite_none_left_eq_some.mp part
    cases result
    exact ⟨_, _, _, rfl, fun _ => update_self ..⟩
  | data f =>
    cases part
    refine ⟨s.swapmap, s.slock, (if f.odata ≠ 0 then
      s.swapWrite (f.a 0) (s.seg p).p_daddr f.odata else s).swapdev, ?_, ?_⟩
    · split_ifs <;> rfl
    · rintro (start | locked)
      · cases start
      · split_ifs <;> exact locked
  | stack f =>
    cases part
    refine ⟨s.swapmap, s.slock, (if f.ostack ≠ 0 then
      s.swapWrite (f.a 1) (s.seg p).p_saddr f.ostack else s).swapdev, ?_, ?_⟩
    · split_ifs <;> rfl
    · rintro (start | locked)
      · cases start
      · split_ifs <;> exact locked
  | area f =>
    cases part
    exact ⟨_, _, _, rfl, fun | .inr locked => locked⟩
  | finish f => cases part

/-- A part of `swapin`: a read, or the return. -/
lemma swapin_cases {pc : InPc} {next : Option InPc} (part : s.swapin u0 p pc = some (t, next)) :
    (∃ mp core pc', next = some pc' ∧ t = { s with swapmap := mp, core }) ∨
      ∃ saddr, next = none ∧ pc = .finish saddr ∧ t = State.enter u0 s p saddr := by
  cases pc with
  | finish saddr =>
    cases part
    exact .inr ⟨saddr, rfl, rfl, rfl⟩
  | area saddr =>
    obtain ⟨-, -, ⟨⟩⟩ := map_eq_some_iff.mp part
    exact .inl ⟨_, _, _, rfl, rfl⟩
  | data | stack saddr =>
    simp only [State.swapin] at part
    split_ifs at part
    · obtain ⟨-, -, ⟨⟩⟩ := map_eq_some_iff.mp part
      exact .inl ⟨_, _, _, rfl, rfl⟩
    · cases part
      exact .inl ⟨_, _, _, rfl, rfl⟩

lemma swapin_next {pc pc' : InPc} (part : s.swapin u0 p pc = some (t, some pc')) :
    ∃ mp core, t = { s with swapmap := mp, core } := by
  obtain ⟨mp, core, _, -, same⟩ | ⟨_, ⟨⟩, -⟩ := swapin_cases part
  exact ⟨mp, core, same⟩

lemma swapout_return {pc : OutPc} (part : s.swapout p a pc = some (t, none)) :
    ∃ f, pc = .finish f ∧ t = s.leave p f := by
  cases pc with
  | start => obtain ⟨-, ⟨⟩⟩ := ite_none_left_eq_some.mp part
  | data f | stack f | area f => cases part
  | finish f =>
    cases part
    exact ⟨f, rfl, rfl⟩

/-- What the current process can do in `swapout` and `swapin`. -/
inductive Moves (u0 : ℕ) (s : State) (a : Fin 3 → ℕ) : State → Prop where
  | copies {child parent : ℕ} {pc pc' : OutPc} {r : State} (runs : s.cur = some child)
      (at_ : s.thread child = .newproc parent pc) (part : s.swapout child a pc = some (r, some pc')) :
      Moves u0 s a (r.goto child (.newproc parent pc'))
  | copied {child parent : ℕ} {f : Frame} (runs : s.cur = some child)
      (at_ : s.thread child = .newproc parent (.finish f)) :
      Moves u0 s a { (s.leave child f).goto child .user with
        p_stat := update s.p_stat parent .srun, cur := some parent }
  | leaves {p v q : ℕ} {pc pc' : OutPc} {r : State} (runs : s.cur = some p)
      (at_ : s.thread p = .swapout v q pc)
      (part : (s.called v pc).swapout v a pc = some (r, some pc')) :
      Moves u0 s a (r.goto p (.swapout v q pc'))
  | left {p v q : ℕ} {f : Frame} (runs : s.cur = some p)
      (at_ : s.thread p = .swapout v q (.finish f)) :
      Moves u0 s a ((s.leave v f).goto p (.swapin q .data))
  | enters {p q : ℕ} {pc pc' : InPc} {r : State} (runs : s.cur = some p)
      (at_ : s.thread p = .swapin q pc) (part : s.swapin u0 q pc = some (r, some pc')) :
      Moves u0 s a (r.goto p (.swapin q pc'))
  | entered {p q saddr : ℕ} (runs : s.cur = some p)
      (at_ : s.thread p = .swapin q (.finish saddr)) :
      Moves u0 s a ((State.enter u0 s q saddr).goto p .search)

lemma moveOn_cases (step : s.moveOn u0 a = some t) : Moves u0 s a t := by
  unfold State.moveOn at step
  split at step
  · cases step
  rename_i p runs
  split at step
  · cases step
  · cases step
  · rename_i parent pc at_
    obtain ⟨⟨r, next⟩, part, rfl⟩ := map_eq_some_iff.mp step
    cases next with
    | some pc' => exact .copies runs at_ part
    | none =>
      obtain ⟨f, rfl, rfl⟩ := swapout_return part
      exact .copied runs at_
  · rename_i v q pc at_
    obtain ⟨⟨r, next⟩, part, rfl⟩ := map_eq_some_iff.mp step
    cases next with
    | some pc' => exact .leaves runs at_ part
    | none =>
      obtain ⟨f, rfl, rfl⟩ := swapout_return part
      exact .left runs at_
  · rename_i q pc at_
    obtain ⟨⟨r, next⟩, part, rfl⟩ := map_eq_some_iff.mp step
    cases next with
    | some pc' => exact .enters runs at_ part
    | none =>
      obtain ⟨_, _, _, ⟨⟩, -⟩ | ⟨saddr, -, rfl, rfl⟩ := swapin_cases part
      exact .entered runs at_

lemma called_eq (s : State) (v : ℕ) (pc : OutPc) : ∃ image, s.called v pc = { s with image } := by
  cases pc with
  | start => exact ⟨_, rfl⟩
  | data _ | stack _ | area _ | finish _ => exact ⟨s.image, rfl⟩

section

variable (place : Place s)
include place

lemma copies_place {pc : OutPc}
    (at_ : s.thread child = .newproc parent pc) (part : s.swapout child a pc = some (t, some pc')) :
    Place (t.goto child (.newproc parent pc')) := by
  have o := place.orderly
  obtain ⟨user, search, users, first, pair, apart, waits, held⟩ := place.mode.of_newproc at_
  obtain ⟨mp, lock, dev, rfl, locks⟩ := swapout_next part
  have locked : pc = .start ∨ s.slock child = true := by
    cases pc with
    | start => exact .inl rfl
    | data _ | stack _ | area _ | finish _ => exact .inr held
  refine ⟨o.carry, .copying parent child pc' ?_ (goto_self ..) ?_ first pair apart waits ?_⟩
  · exact (goto_other _ _ user.symm).trans search
  · intro p user other
    exact (goto_other _ _ other).trans (users p user other)
  · have held' := locks locked
    cases pc' <;> exact held'

lemma copied_place {f : Frame} (runs : s.cur = some child)
    (at_ : s.thread child = .newproc parent (.finish f)) :
    Place { (s.leave child f).goto child .user with
      p_stat := update s.p_stat parent .srun, cur := some parent } := by
  have o := place.orderly
  obtain ⟨user, search, users, -, pair, apart, waits, -⟩ := place.mode.of_newproc at_
  have resident := (pair parent).mpr (.inl rfl)
  have out := (o.not_queued (waits.trans_ne nofun)).1
  have still : ∀ {p}, p ≠ child → update s.sload child false p = s.sload p :=
    fun other => update_of_ne other ..
  constructor
  · have unloaded := o.idle.reload (o.current child runs).1 (o.unqueued runs) user false
    have ready := unloaded.restat ⟨out, nofun⟩ .srun nofun
    exact (ready.dispatch resident.1 (update_self ..) ((still apart).trans resident.2.2) out).carry
  · refine .of_only ((goto_other _ _ user.symm).trans search) ?_ ?_ (r := parent)
    · intro p user
      by_cases own : p = child
      · exact own ▸ goto_self ..
      · exact (goto_other _ _ own).trans (users p user own)
    · rintro p ⟨here, system, loaded⟩
      have other : p ≠ child := by
        rintro rfl
        exact nomatch loaded.symm.trans (update_self ..)
      exact ((pair p).mp ⟨here, system, (still other).symm.trans loaded⟩).resolve_right other

lemma leaves_place {pc : OutPc} (at_ : s.thread p = .swapout v q pc)
    (part : (s.called v pc).swapout v a pc = some (t, some pc')) :
    Place (t.goto p (.swapout v q pc')) := by
  have o := place.orderly
  obtain ⟨rfl, users, empty, victim, next, other⟩ := place.mode.of_swapout at_
  obtain ⟨image, called⟩ := called_eq s v pc
  rw [called] at part
  obtain ⟨-, -, -, rfl, -⟩ := swapout_next part
  exact ⟨o.carry, .leaving v q pc' (goto_self ..) (users_goto users) empty victim next other⟩

lemma left_place {f : Frame} (at_ : s.thread p = .swapout v q (.finish f)) :
    Place ((s.leave v f).goto p (.swapin q .data)) := by
  have o := place.orderly
  obtain ⟨rfl, users, empty, victim, next, -⟩ := place.mode.of_swapout at_
  have out : s.sload v = false := by
    by_contra loaded
    exact empty v (o.resident victim.1 victim.2 (Bool.not_eq_false _ ▸ loaded))
  have kept : s.leave v f = { s with
      seg := (s.leave v f).seg, slock := (s.leave v f).slock, p_time := (s.leave v f).p_time } := by
    simp [State.leave, ← out]
  rw [kept]
  exact ⟨o.carry, .entering q .data (goto_self ..) (users_goto users) empty next⟩

lemma enters_place {pc pc' : InPc} (at_ : s.thread p = .swapin q pc)
    (part : s.swapin u0 q pc = some (t, some pc')) : Place (t.goto p (.swapin q pc')) := by
  have o := place.orderly
  obtain ⟨rfl, users, empty, next⟩ := place.mode.of_swapin at_
  obtain ⟨-, -, rfl⟩ := swapin_next part
  exact ⟨o.carry, .entering q pc' (goto_self ..) (users_goto users) empty next⟩

/-- The process swapped in is the only one. -/
lemma entered_place {saddr : ℕ} (runs : s.cur = some p)
    (at_ : s.thread p = .swapin q (.finish saddr)) :
    Place ((State.enter u0 s q saddr).goto p .search) := by
  have o := place.orderly
  obtain ⟨rfl, users, empty, here, user⟩ := place.mode.of_swapin at_
  have out : s.sload q ≠ true := fun loaded => empty q (o.resident here user loaded)
  have idle : q ∉ s.qs ∧ s.cur ≠ some q := not_or.mp fun busy => out (o.active q busy).2.2
  have loaded := o.reload here idle user true
  constructor
  · by_cases ready : s.p_stat q = .srun
    · have queued := loaded.enqueue here ready (update_self ..) idle
      simp only [State.enter, if_pos ready]
      exact queued.carry
    · simp only [State.enter, if_neg ready]
      exact loaded.carry
  · refine .of_only (goto_self ..) (users_goto users) (r := q) ?_
    rintro r ⟨there, system, loaded⟩
    by_contra other
    exact empty r ⟨there, system, (update_of_ne other ..).symm.trans loaded⟩

lemma moves_place (moves : Moves u0 s a t) : Place t := by
  cases moves with
  | copies _ at_ part => exact copies_place place at_ part
  | copied runs at_ => exact copied_place place runs at_
  | leaves _ at_ part => exact leaves_place place at_ part
  | left _ at_ => exact left_place place at_
  | enters _ at_ part => exact enters_place place at_ part
  | entered runs at_ => exact entered_place place runs at_

end

/-! ## Steps -/

/-- What a step does, as far as the region and the swap area are concerned. The
steps of the queues leave everybody where they are. -/
inductive Act (u0 : ℕ) (s : State) : State → Prop where
  | queues {p_stat : ℕ → Processes.Stat} {qs : List ℕ} {cur : Option ℕ} {sintr : ℕ → Bool}
      {p_time p_nice : ℕ → ℤ}
      (place : Place { s with
        p_stat := p_stat, qs := qs, cur := cur, sintr := sintr, p_time := p_time,
        p_nice := p_nice }) :
      Act u0 s { s with
        p_stat := p_stat, qs := qs, cur := cur, sintr := sintr, p_time := p_time,
        p_nice := p_nice }
  | compute {p : ℕ} (runs : s.cur = some p) (own : s.thread p = .user) (core : ℕ → UInt8)
      (p_dsize p_ssize : ℕ) :
      Act u0 s { s with
        core := core
        seg := update s.seg p ⟨p_dsize, p_ssize, SwapSpace.USER_DATA_START,
          SwapSpace.USER_DATA_END - p_ssize, (s.seg p).p_addr⟩ }
  | newproc {p : ℕ} {t : State} (runs : s.cur = some p) (own : s.thread p = .user)
      (step : s.newproc p = some t) : Act u0 s t
  | moves {a : Fin 3 → ℕ} {t : State} (moves : Moves u0 s a t) : Act u0 s t
  | sched {t : State} (runs : s.cur = some 0) (search : s.thread 0 = .search)
      (step : s.sched = some t) : Act u0 s t
  | exit {p : ℕ} (runs : s.cur = some p) (own : s.thread p = .user) (seg : Seg) :
      Act u0 s (s.exit p seg)
  | wait {p q : ℕ} (runs : s.cur = some p) (own : s.thread p = .user) (dead : q ∈ s.zombproc) :
      Act u0 s (s.reap q)

lemma act_place (place : Place s) (act : Act u0 s t) : Place t := by
  have o := place.orderly
  cases act with
  | queues place' => exact place'
  | compute runs own =>
    obtain ⟨-, search, users, only⟩ := place.user_alone runs own
    exact ⟨o.carry, .of_only search users fun q => (only q).mp⟩
  | newproc runs own step => exact newproc_place place runs own step
  | moves moves => exact moves_place place moves
  | sched runs search step => exact sched_place place runs search step
  | exit runs own seg => exact exit_place place runs own seg
  | wait runs own dead => exact wait_place place runs own dead

lemma step_act {a : Label} (place : Place s) (step : Step u0 s a t) : Act u0 s t := by
  have o := place.orderly
  cases a with
  | swtch p =>
    obtain ⟨⟨idle, queued, -⟩, ⟨⟩⟩ := ite_none_right_eq_some.mp step
    exact .queues (swtch_place place idle queued)
  | preempt =>
    obtain ⟨p, runs, own, ⟨⟩⟩ := asUser_eq_some.mp step
    exact .queues (preempt_place place runs own)
  | sleep sintr =>
    obtain ⟨p, -, runs, free, rfl⟩ := sleep_cases step
    exact .queues (place.rest runs free .ssleep nofun _)
  | stop =>
    obtain ⟨p, runs, own, ⟨⟩⟩ := asUser_eq_some.mp step
    exact .queues (place.rest runs (by rw [own]; nofun) .sstop nofun s.sintr)
  | compute core p_dsize p_ssize =>
    obtain ⟨p, runs, own, result⟩ := asUser_eq_some.mp step
    obtain ⟨-, ⟨⟩⟩ := ite_none_right_eq_some.mp result
    exact .compute runs own core p_dsize p_ssize
  | newproc =>
    obtain ⟨p, runs, own, result⟩ := asUser_eq_some.mp step
    exact .newproc runs own result
  | transfer a => exact .moves (moveOn_cases step)
  | sched =>
    simp only [Step, State.exec] at step
    split at step
    · cases step
    rename_i p runs
    split at step
    · rename_i search
      obtain rfl := place.mode.swapper_of_ne (by rw [search]; nofun) (by rw [search]; nofun)
      exact .sched runs search step
    · cases step
  | exit seg =>
    obtain ⟨p, runs, own, ⟨⟩⟩ := asUser_eq_some.mp step
    exact .exit runs own seg
  | wait q =>
    obtain ⟨p, runs, own, result⟩ := asUser_eq_some.mp step
    obtain ⟨dead, ⟨⟩⟩ := ite_none_right_eq_some.mp result
    exact .wait runs own dead
  | setrun p =>
    obtain ⟨⟨here, asleep⟩, ⟨⟩⟩ := ite_none_right_eq_some.mp step
    exact .queues (setrun_place place here asleep)
  | suspend p =>
    obtain ⟨⟨-, asleep, -⟩, ⟨⟩⟩ := ite_none_right_eq_some.mp step
    exact .queues (restat_place place (.inl asleep) nofun)
  | proceed p =>
    obtain ⟨⟨-, stopped⟩, ⟨⟩⟩ := ite_none_right_eq_some.mp step
    exact .queues (restat_place place (.inr stopped) nofun)
  | tick | nice =>
    cases step
    exact .queues ⟨o.carry, place.mode.resched (fun _ => id) fun _ _ => place.mode.held_start⟩

end Swapper
