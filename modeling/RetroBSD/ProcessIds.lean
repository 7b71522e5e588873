import RetroBSD.ProcessTable

/-!
# Process ids in use

`newproc` looks at the table only when it has used up the ids that it knows to
be unused, those between `mpid` and `pidchecked`. The interval stays unused if
no process group is set to a number inside of it, and a look at the table finds
an unused id if no process has an id and a group that follow each other.
-/

namespace Processes

open LinkedLists Runs List
open Function (update_of_ne update_self)

def System.inUse (s : System) : List Slot := s.entries .allproc ++ s.entries .zombproc

/-- The condition on a step: no group is set to an id that needs no check, and when `newproc`
checks, no process has a group next to its id, both at or above the first candidate. -/
def Apart (s : System) : Label → Prop
  | .newproc _ => s.pidchecked ≤ s.mpid + 1 →
      ∀ p ∈ s.inUse, (s.proc p).Spread (min (s.mpid + 1) 100)
  | .setpgrp _ _ pgrp => ¬ (s.mpid < pgrp.bmod 65536 ∧ pgrp.bmod 65536 < s.pidchecked)
  | _ => True

instance (s : System) : ∀ label, Decidable (Apart s label)
  | .newproc _ => inferInstanceAs (Decidable (_ → _))
  | .setpgrp _ _ _ => inferInstanceAs (Decidable (¬ (_ ∧ _)))
  | .exit _ _ | .wait1 _ _ | .other _ _ _ _ _ _ => isTrue trivial

/-- No id or group in use lies between `mpid` and `pidchecked`, and the ids are distinct. -/
structure Ids (s : System) (all zomb : List Slot) : Prop where
  clear : ∀ p ∈ all ++ zomb, (s.proc p).Clear (s.mpid + 1) s.pidchecked
  nodup : ((all ++ zomb).map fun p => (s.proc p).p_pid).Nodup

variable {s t : System} {all zomb free : List Slot} {chains : Fin PIDHSZ → List Slot}

lemma Good.inUse (good : Good s all zomb free chains) : s.inUse = all ++ zomb := by
  rw [System.inUse, good.entries, good.entries]
  rfl

/-- The id that `newproc` chooses is unused, and so are those up to the new bound. -/
lemma newpid_clear (good : Good s all zomb free chains) (ids : Ids s all zomb) {parent : Slot}
    (apart : Apart s (.newproc parent)) {mpid pidchecked : ℤ}
    (found : s.newpid = some (mpid, pidchecked)) :
    mpid < pidchecked ∧ ∀ p ∈ all ++ zomb, (s.proc p).Clear mpid pidchecked := by
  obtain ⟨-, -, bound⟩ := good.counter
  have procs : (s.entries .allproc ++ s.entries .zombproc).map s.proc = (all ++ zomb).map s.proc :=
    congrArg _ good.inUse
  have clear : ∀ p ∈ (all ++ zomb).map s.proc, p.Clear (s.mpid + 1) s.pidchecked :=
    forall_mem_map.mpr ids.clear
  rw [Table.newpid, procs] at found
  by_cases check : s.pidchecked ≤ s.mpid + 1
  · have spread : ∀ p ∈ (all ++ zomb).map s.proc, p.Spread (min (s.mpid + 1) 100) := by
      have := apart check
      rw [good.inUse] at this
      exact forall_mem_map.mpr this
    obtain ⟨-, less, -, chosen⟩ := choose_spec 60000 _ (min_le_right ..)
      (min_le_left ..) bound found
    exact ⟨less, forall_mem_map.mp (chosen spread clear)⟩
  · have known := choose_known ((all ++ zomb).map s.proc) 59999 (by omega) (not_le.mp check)
    cases known.symm.trans found
    exact ⟨by omega, ids.clear⟩

/-- A step that leaves the processes in use, their ids and groups, or drops some of them. -/
lemma Ids.sub {all' zomb' : List Slot} (ids : Ids s all zomb) (nodup : (all' ++ zomb').Nodup)
    (sub : ∀ p ∈ all' ++ zomb', p ∈ all ++ zomb)
    (pid : ∀ p ∈ all' ++ zomb', (t.proc p).p_pid = (s.proc p).p_pid)
    (pgrp : ∀ p ∈ all' ++ zomb', (t.proc p).p_pgrp = (s.proc p).p_pgrp ∨
      Clear (t.proc p).p_pgrp (s.mpid + 1) s.pidchecked)
    (mpid : t.mpid = s.mpid) (pidchecked : t.pidchecked = s.pidchecked) : Ids t all' zomb' := by
  constructor
  · intro p member
    have old := ids.clear p (sub p member)
    rw [mpid, pidchecked]
    refine ⟨pid p member ▸ old.1, ?_⟩
    rcases pgrp p member with same | clear
    · exact same ▸ old.2
    · exact clear
  · rw [map_congr_left pid]
    refine List.Nodup.map_on (fun p one q two same => ?_) nodup
    exact inj_on_of_nodup_map ids.nodup (sub p one) (sub q two) same

lemma ids_newproc (good : Good s all zomb free chains) (ids : Ids s all zomb) {parent child : Slot}
    {rest : List Slot} (here : free = child :: rest) (apart : Apart s (.newproc parent))
    (step : Step s (.newproc parent) t) : Ids t (child :: all) zomb := by
  obtain ⟨living, caller⟩ := good.caller step
  obtain ⟨⟨mpid, pidchecked⟩, found⟩ := good.newpid
  obtain ⟨less, clear⟩ := newpid_clear good ids apart found
  subst here
  have head : s.p_nxt (.head .freeproc) = some child := good.lists.head .freeproc
  rw [Step, System.exec, if_pos living] at step
  simp only [Table.newproc, found, head] at step
  cases step
  have other : ∀ p ∈ all ++ zomb, p ≠ child := by
    rintro p member rfl
    rcases mem_append.mp member with member | member
    · exact good.apart.2.1 p member mem_cons_self
    · exact good.apart.2.2 p member mem_cons_self
  constructor
  · intro p member
    rcases mem_cons.mp member with rfl | member
    · have group := (clear parent (mem_append_left zomb caller)).2
      simp only [Proc.Clear, Processes.Clear, update_self] at group ⊢
      omega
    · simp only [update_of_ne (other p member)]
      exact (clear p member).mono (by omega) le_rfl
  · simp only [cons_append, map_cons, update_self]
    refine nodup_cons.mpr ⟨?_, ?_⟩
    · intro used
      obtain ⟨p, member, same⟩ := mem_map.mp used
      rw [update_of_ne (other p member)] at same
      have := (clear p member).1
      unfold Processes.Clear at this
      omega
    · rw [map_congr_left fun p member => by rw [update_of_ne (other p member)]]
      exact ids.nodup

lemma ids_exit (good : Good s all zomb free chains) (ids : Ids s all zomb) {p : Slot} {rv : ℤ}
    {a b : List Slot} (here : all = a ++ p :: b) (nodup : ((a ++ b) ++ p :: zomb).Nodup)
    (step : Step s (.exit p rv) t) : Ids t (a ++ b) (p :: zomb) := by
  obtain ⟨living, caller⟩ := good.caller step
  have caller : p ∈ all := caller
  rw [Step, System.exec, if_pos living] at step
  have ordinary : p ≠ 0 ∧ p ≠ 1 := by
    rw [← not_or]
    intro special
    simp [exit_refused good special] at step
  obtain ⟨a', b', c, -, here', -, done⟩ := exit_spec good caller ordinary.1 ordinary.2 rv
  have effect := exit_proc (s := s) zomb here' ordinary.2 rv
    (after (.head (PIDHASH (s.proc p).p_pid)) c)
  have low := good.counter.1
  rw [done] at step
  cases step
  refine ids.sub nodup (fun q member => ?_) (fun q _ => (effect q).1) (fun q _ => ?_) rfl rfl
  · subst here
    simp only [mem_append, mem_cons] at member ⊢
    tauto
  · have group := (effect q).2.2.1
    split_ifs at group
    · refine .inr ?_
      simp only [Processes.Clear]
      omega
    · exact .inl group

/-- Every step that meets the condition keeps the ids distinct. -/
lemma ids_step (s : System) (label : Label) (t : System)
    (good : ∃ all zomb free chains, Good s all zomb free chains ∧ Ids s all zomb)
    (apart : Apart s label) (step : Step s label t) :
    ∃ all zomb free chains, Good t all zomb free chains ∧ Ids t all zomb := by
  obtain ⟨all, zomb, free, chains, good, ids⟩ := good
  obtain ⟨living, -⟩ := good.caller step
  cases label with
  | newproc parent =>
    obtain ⟨child, rest, chains', here, new⟩ := good_newproc good step
    exact ⟨_, _, _, _, new, ids_newproc good ids here apart step⟩
  | exit p rv =>
    obtain ⟨⟨a, b, chains', here, new⟩, -⟩ := good_exit good step
    exact ⟨_, _, _, _, new, ids_exit good ids here new.nodup_used step⟩
  | wait1 q args =>
    have effect := step
    rw [Step, System.exec, if_pos living] at effect
    cases effect
    rcases wait1_cases good q args with ⟨p, member, -, eq⟩ | ⟨⟨proc, eq, waited⟩, never, -⟩
    · obtain ⟨a, b, here⟩ := append_of_mem member
      have sub := good.mem_zomb here
      have new := good_reap good here (s.number q)
      have other : ∀ r ∈ all ++ (a ++ b), (s.reap p).proc r = s.proc r := by
        intro r used
        refine update_of_ne (fun same : r = p => ?_) ..
        rcases mem_append.mp used with living | zombie
        · exact good.apart.1 r living (same ▸ member)
        · exact ((sub r).mp zombie).2 same
      rw [eq]
      refine ⟨_, _, _, _, new, ids.sub new.nodup_used (fun r used => ?_) (fun r used => ?_)
        (fun r used => .inl ?_) rfl rfl⟩
      · rw [mem_append, sub] at used
        rw [mem_append]
        tauto
      · exact congrArg Proc.p_pid (other r used)
      · exact congrArg Proc.p_pgrp (other r used)
    · rw [wait1_quiet never, eq]
      have same : ∀ p, (proc p).p_pid = (s.proc p).p_pid ∧ (proc p).p_pgrp = (s.proc p).p_pgrp ∧
          (proc p).p_pptr = (s.proc p).p_pptr ∧ (proc p).p_stat = (s.proc p).p_stat := by
        intro p
        obtain ⟨w, same⟩ := waited p
        simp [same]
      exact ⟨all, zomb, free, chains, good.touch proc (fun p => (same p).1)
        (fun p => (same p).2.2.1) (fun p => congrArg Stat.alive (same p).2.2.2),
        ids.sub good.nodup_used (fun p used => used) (fun p _ => (same p).1)
          (fun p _ => .inl (same p).2.1) rfl rfl⟩
  | setpgrp caller pid pgrp =>
    rw [Step, System.exec, if_pos living] at step
    cases step
    obtain ⟨proc, eq, group⟩ := setpgrp_cases s.toTable caller pid pgrp
    rw [eq]
    have same : ∀ p, (proc p).p_pid = (s.proc p).p_pid ∧ (proc p).p_pptr = (s.proc p).p_pptr ∧
        (proc p).p_stat = (s.proc p).p_stat := by
      intro p
      rcases group p with same | same <;> simp [same]
    refine ⟨all, zomb, free, chains, good.touch proc (fun p => (same p).1) (fun p => (same p).2.1)
      (fun p => congrArg Stat.alive (same p).2.2),
      ids.sub good.nodup_used (fun p used => used) (fun p _ => (same p).1) (fun p _ => ?_) rfl rfl⟩
    rcases group p with same | same
    · exact .inl (congrArg Proc.p_pgrp same)
    · refine .inr ?_
      simp only [Apart] at apart
      simp only [same, Processes.Clear]
      omega
  | other p stat p_uid u_uid traced waited =>
    rw [Step, System.exec, if_pos living] at step
    split_ifs at step with alive
    cases step
    refine ⟨all, zomb, free, chains, good.touch _ (fun p => ?_) (fun p => ?_) (fun p => ?_),
      ids.sub good.nodup_used (fun p used => used) (fun p _ => ?_) (fun p _ => .inl ?_) rfl rfl⟩
    · exact update_field Proc.p_pid _ _ (by rfl) p
    · exact update_field Proc.p_pptr _ _ (by rfl) p
    · exact update_field (fun p => p.p_stat.alive) _ _ (alive.trans living.symm) p
    · exact update_field Proc.p_pid _ _ (by rfl) p
    · exact update_field Proc.p_pgrp _ _ (by rfl) p

lemma ids_boot : ∃ all zomb free chains, Good boot all zomb free chains ∧ Ids boot all zomb := by
  obtain ⟨all, zomb, free, chains, good⟩ := good_boot
  refine ⟨all, zomb, free, chains, good, ?_⟩
  have used := good.inUse
  constructor
  · rw [← used]
    unfold Proc.Clear Processes.Clear
    decide
  · rw [← used]
    decide

/-- In every run whose steps meet the condition, the ids in use are distinct, and the id that
`newproc` chooses next, if that step meets the condition, is neither the id nor the group of a
process or a zombie. -/
theorem pids_unused (labels : List Label) (s : System) (run : Run Step Apart boot labels s) :
    (s.inUse.map fun p => (s.proc p).p_pid).Nodup ∧
      ∃ mpid pidchecked, s.newpid = some (mpid, pidchecked) ∧ ∀ parent, Apart s (.newproc parent) →
          ∀ p ∈ s.inUse, (s.proc p).p_pid ≠ mpid ∧ (s.proc p).p_pgrp ≠ mpid := by
  obtain ⟨all, zomb, free, chains, good, ids⟩ := run_invariant
    (fun s => ∃ all zomb free chains, Good s all zomb free chains ∧ Ids s all zomb)
    ids_step run ids_boot
  obtain ⟨⟨mpid, pidchecked⟩, found⟩ := good.newpid
  rw [good.inUse]
  refine ⟨ids.nodup, mpid, pidchecked, found, fun parent apart p member => ?_⟩
  obtain ⟨less, clear⟩ := newpid_clear good ids apart found
  have outside := clear p member
  unfold Proc.Clear Processes.Clear at outside
  omega

/-- Two forks with a process group of their own. -/
theorem pids_unused_two_forks : ∃ s, Run Step Apart boot
    [.newproc 1, .setpgrp 2 0 2, .newproc 2] s ∧
    (s.inUse.map fun p => (s.proc p).p_pid) = [3, 2, 1, 0] ∧
    (s.inUse.map fun p => (s.proc p).p_pid).Nodup := by
  exact Exists.imp (fun s ⟨run, ids⟩ => ⟨run, ids, (pids_unused _ s run).1⟩)
    (run_of_reached System.exec (by decide))

/-- A process sets its group to the next id to be given out, and the next process gets that id. -/
theorem pid_of_existing_group : ∃ s p mpid pidchecked,
    Run Step (fun _ _ => True) boot [.newproc 1, .setpgrp 2 0 3] s ∧
    s.newpid = some (mpid, pidchecked) ∧ p ∈ s.inUse ∧ (s.proc p).p_pgrp = mpid := by
  obtain ⟨s, done, chosen, used, group⟩ : ∃ s, follow System.exec (fun _ _ => True) boot
      [.newproc 1, .setpgrp 2 0 3] = some s ∧ s.newpid = some (3, 30000) ∧ 2 ∈ s.inUse ∧
      (s.proc 2).p_pgrp = 3 := by
    refine ⟨_, rfl, ?_⟩
    decide
  exact ⟨s, 2, 3, 30000, run_of_follow done, chosen, used, group⟩

-- A scan that starts at 105, when process 106 is in group 105, chooses 106 again.
example : choose [{ Proc.empty with p_pid := 106, p_pgrp := 105 }] 2 105 0 = some (106, 30000) := by
  decide

end Processes
