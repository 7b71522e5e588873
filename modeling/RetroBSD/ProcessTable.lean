import RetroBSD.PidSearch

/-!
# The lists of the process table

Whatever the order in which processes fork, exit and wait, every entry is on
one of the three lists, the hash chains hold the processes that are alive, and
every process has a living parent. Each routine is a few pointer writes whose
effect on the lists is given by the rules for linked lists.
-/

namespace Processes

open LinkedLists Runs
open List hiding after
open Function (update update_of_ne update_self)

def queues (all zomb free : List Slot) : Queue → List Slot
  | .allproc => all
  | .zombproc => zomb
  | .freeproc => free

section Queues

variable (all zomb free l : List Slot)

@[simp] lemma queues_all : update (queues all zomb free) .allproc l =
    queues l zomb free := by
  funext q
  cases q <;> rfl

@[simp] lemma queues_zomb : update (queues all zomb free) .zombproc l =
    queues all l free := by
  funext q
  cases q <;> rfl

@[simp] lemma queues_free : update (queues all zomb free) .freeproc l =
    queues all zomb l := by
  funext q
  cases q <;> rfl

end Queues

structure Consistent (s : System) (all zomb free : List Slot)
    (chains : Fin PIDHSZ → List Slot) : Prop where
  lists : Lists s.p_nxt (queues all zomb free)
  whole : ∀ p, p ∈ all ∨ p ∈ zomb ∨ p ∈ free
  backAll : Backed s.p_prev (.head .allproc) all
  backZomb : Backed s.p_prev (.head .zombproc) zomb
  hash : Lists s.p_hash chains
  chained : ∀ h p, p ∈ chains h ↔ p ∈ all ∧ p ≠ 0 ∧ PIDHASH (s.proc p).p_pid = h
  parents : ∀ p ∈ all, p ≠ 0 → ∃ q ∈ all, (s.proc p).p_pptr = some q
  zombies : ∀ p ∈ zomb, ∃ q ∈ all, (s.proc p).p_pptr = some q
  /-- Every process there has been is alive, a zombie, or was waited for once. -/
  numbers : (List.range s.born).Perm ((all ++ zomb).map s.number ++ s.waits.map Prod.fst)

structure Good (s : System) (all zomb free : List Slot) (chains : Fin PIDHSZ → List Slot) : Prop
    extends Consistent s all zomb free chains where
  alive : ∀ p, (s.proc p).p_stat.alive = true ↔ p ∈ all
  swapper : 0 ∈ all
  init : 1 ∈ all ∧ (s.proc 1).p_pid = 1
  ids : ∀ p ∈ all ++ zomb, p ≠ 1 → (s.proc p).p_pid ≠ 1
  counter : 1 ≤ s.mpid ∧ s.mpid < 30000 ∧ s.pidchecked ≤ 30000

variable {s t : System} {all zomb free : List Slot} {chains : Fin PIDHSZ → List Slot}

namespace Good

section

variable (good : Good s all zomb free chains)
include good

lemma short (q : Queue) : (queues all zomb free q).length ≤ NPROC := by
  simpa using (good.lists.nodup q).length_le_card

lemma entries (q : Queue) : s.entries q = queues all zomb free q :=
  (good.lists.linked q).elements NPROC (good.short q)

lemma apart : (∀ p ∈ all, p ∉ zomb) ∧ (∀ p ∈ all, p ∉ free) ∧ ∀ p ∈ zomb, p ∉ free := by
  refine ⟨fun p one other => ?_, fun p one other => ?_, fun p one other => ?_⟩
  · cases good.lists.apart .allproc .zombproc p one other
  · cases good.lists.apart .allproc .freeproc p one other
  · cases good.lists.apart .zombproc .freeproc p one other

lemma nodup_used : (all ++ zomb).Nodup :=
  nodup_append'.mpr ⟨good.lists.nodup .allproc, good.lists.nodup .zombproc,
    fun p one other => good.apart.1 p one other⟩

lemma newpid : ∃ result, s.newpid = some result := by
  have few : ((s.entries .allproc ++ s.entries .zombproc).map s.proc).length ≤ NPROC := by
    rw [good.entries, good.entries]
    simpa [queues] using good.nodup_used.length_le_card
  obtain ⟨f, large, small, unused⟩ := exists_unused few
  obtain ⟨low, high, -⟩ := good.counter
  exact choose_total large small unused 60000 (by omega) (by omega)

/-- A step that changes neither ids, parents nor the life of any process. -/
lemma touch (proc : Slot → Proc) (pid : ∀ p, (proc p).p_pid = (s.proc p).p_pid)
    (pptr : ∀ p, (proc p).p_pptr = (s.proc p).p_pptr)
    (stat : ∀ p, (proc p).p_stat.alive = (s.proc p).p_stat.alive) :
    Good { s with proc } all zomb free chains :=
  { good with
    chained := fun h p => by simpa only [pid] using good.chained h p
    parents := fun p member other => by simpa only [pptr] using good.parents p member other
    zombies := fun p member => by simpa only [pptr] using good.zombies p member
    alive := fun p => by simpa only [stat] using good.alive p
    init := ⟨good.init.1, (pid 1).trans good.init.2⟩
    ids := fun p member other => by simpa only [pid] using good.ids p member other }

end

end Good

lemma Good.caller (good : Good s all zomb free chains) {label : Label} (step : Step s label t) :
    (s.proc label.caller).p_stat.alive = true ∧ label.caller ∈ all := by
  by_cases living : (s.proc label.caller).p_stat.alive = true
  · exact ⟨living, (good.alive _).mp living⟩
  · simp [Step, System.exec.eq_def, living] at step

/-- The numbers `newproc` works with. -/
lemma Good.fresh_pid (good : Good s all zomb free chains) {mpid pidchecked : ℤ}
    (found : s.newpid = some (mpid, pidchecked)) :
    2 ≤ mpid ∧ mpid < 30000 ∧ pidchecked ≤ 30000 := by
  obtain ⟨low, -, bound⟩ := good.counter
  obtain ⟨a, b, c, -⟩ := choose_spec 60000 2 (by decide) (by omega) bound found
  exact ⟨a, by omega, c⟩

/-- A new process goes from `freeproc` to `allproc` and to its hash chain. -/
lemma good_newproc (good : Good s all zomb free chains) {parent : Slot}
    (step : Step s (.newproc parent) t) :
    ∃ child rest chains', free = child :: rest ∧ Good t (child :: all) zomb rest chains' := by
  obtain ⟨living, caller⟩ := good.caller step
  rw [Step, System.exec, if_pos living] at step
  obtain ⟨⟨mpid, pidchecked⟩, found⟩ := good.newpid
  obtain ⟨low, high, bound⟩ := good.fresh_pid found
  cases free with
  | nil => simp [good.lists.head, queues] at step
  | cons child rest =>
    have head : s.p_nxt (.head .freeproc) = some child := good.lists.head .freeproc
    simp only [Table.newproc, found, head] at step
    cases step
    have notAll : child ∉ all := fun member => good.apart.2.1 child member mem_cons_self
    have notZomb : child ∉ zomb := fun member => good.apart.2.2 child member mem_cons_self
    have taken := good.lists.remove (k := .freeproc) (a := []) rfl
    have pushed := taken.push .allproc (good.lists.not_mem_remove rfl)
    simp only [queues_free, queues_all] at pushed
    have first : update s.p_nxt (.head .freeproc) (s.p_nxt (.link child))
        (.head .allproc) = all.head? := taken.head .allproc
    have unhashed : ∀ h, child ∉ chains h := fun h member =>
      notAll ((good.chained h child).mp member).1
    have zero : child ≠ 0 := fun same => notAll (same ▸ good.swapper)
    have other : ∀ p ∈ all ++ zomb, p ≠ child := by
      rintro p member rfl
      rcases mem_append.mp member with member | member
      · exact notAll member
      · exact notZomb member
    refine ⟨child, rest, update chains (PIDHASH mpid) (child :: chains (PIDHASH mpid)), rfl, ?_⟩
    constructor
    · constructor
      · exact pushed
      · intro p
        have := good.whole p
        simp only [mem_cons] at this ⊢
        tauto
      · rw [first]
        exact good.backAll.push (good.lists.nodup .allproc) notAll
      · refine good.backZomb.congr fun p member => ?_
        refine (update_of_ne (other p (mem_append_right all member)) ..).trans ?_
        rw [first]
        exact setBack_of_ne fun same => good.apart.1 p (mem_of_head? same) member
      · exact good.hash.push _ unhashed
      · intro h p
        rw [mem_push, good.chained]
        by_cases new : p = child
        · subst new
          simp [zero, notAll, eq_comm]
        · simp [new]
      · intro p member notZero
        rcases mem_cons.mp member with rfl | member
        · exact ⟨parent, mem_cons_of_mem p caller, by simp⟩
        · obtain ⟨q, living, eq⟩ := good.parents p member notZero
          exact ⟨q, mem_cons_of_mem child living,
            by simpa [other p (mem_append_left zomb member)] using eq⟩
      · intro p member
        obtain ⟨q, living, eq⟩ := good.zombies p member
        exact ⟨q, mem_cons_of_mem child living,
          by simpa [other p (mem_append_right all member)] using eq⟩
      · have kept : (all ++ zomb).map (update s.number child s.born) = (all ++ zomb).map s.number :=
          map_congr_left fun p member => update_of_ne (other p member) ..
        simp only [cons_append, map_cons, update_self, kept]
        rw [range_succ]
        exact (perm_append_singleton _ _).trans (good.numbers.cons s.born)
    · intro p
      by_cases new : p = child
      · subst new
        simp [Stat.alive]
      · simpa [new] using good.alive p
    · exact mem_cons_of_mem child good.swapper
    · exact ⟨mem_cons_of_mem child good.init.1,
        by simpa [other 1 (mem_append_left zomb good.init.1)] using good.init.2⟩
    · intro p member notInit
      by_cases new : p = child
      · subst new
        simp only [update_self]
        omega
      · simp only [update_of_ne new]
        exact good.ids p (by simpa [new] using member) notInit
    · exact ⟨by simp only; omega, high, bound⟩

variable {a b : List Slot} {p : Slot}

/-- Taking an entry off its list through its back pointer. -/
lemma unlink_spec {table : Table} {L : Queue → List Slot} {k : Queue}
    (lists : Lists table.p_nxt L) (here : L k = a ++ p :: b)
    (backed : Backed table.p_prev (.head k) (a ++ p :: b)) :
    Lists (table.unlink p).p_nxt (update L k (a ++ b)) ∧
      Backed (table.unlink p).p_prev (.head k) (a ++ b) ∧
      ∀ q, q ∉ L k → (table.unlink p).p_prev q = table.p_prev q := by
  have next : table.p_nxt (.link p) = b.head? := lists.next here
  refine ⟨?_, ?_, fun q out => ?_⟩
  · simpa only [Table.unlink, backed.at] using lists.remove here
  · simpa only [Table.unlink, next] using backed.remove (here ▸ lists.nodup k)
  · simp only [Table.unlink, next]
    refine setBack_of_ne fun same => out ?_
    rw [here]
    exact mem_append_right a (mem_cons_of_mem p (mem_of_head? same))

/-- The children of `p` among the given entries become children of init. -/
lemma orphans_apply (notInit : p ≠ 1) (l : List Slot) (proc : Slot → Proc) (q : Slot) :
    l.foldl (orphan p) proc q = if q ∈ l ∧ (proc q).p_pptr = some p then
        { proc q with p_pptr := some 1, p_ppid := 1, traced := false }
      else proc q := by
  induction l generalizing proc with
  | nil => simp
  | cons x l ih =>
    have stays : (some 1 : Option Slot) ≠ some p := fun same => notInit (Option.some.inj same).symm
    rw [foldl_cons, ih]
    by_cases here : q = x
    · subst here
      by_cases child : (proc q).p_pptr = some p
      · simp [orphan, child]
      · simp [orphan, child]
    · have same : orphan p proc x q = proc q := by
        unfold orphan
        split_ifs
        · exact update_of_ne here ..
        · rfl
      simp [same, here]

/-- The lists when `exit` has moved the process. -/
lemma bury_spec (good : Good s all zomb free chains)
    (here : all = a ++ p :: b) (rv : ℤ) (pp : Cell (Fin PIDHSZ) Slot) :
    Lists (s.bury p rv pp).p_nxt (queues (a ++ b) (p :: zomb) free) ∧
      Backed (s.bury p rv pp).p_prev (.head .allproc) (a ++ b) ∧
      Backed (s.bury p rv pp).p_prev (.head .zombproc) (p :: zomb) := by
  subst here
  obtain ⟨lists, backed, kept⟩ := unlink_spec good.lists rfl good.backAll
  have notAll : p ∉ a ++ b := (nodup_cons.mp (nodup_middle.mp (good.lists.nodup .allproc))).1
  have notZomb : p ∉ zomb := good.apart.1 p (by simp)
  have pushed := lists.push .zombproc (good.lists.not_mem_remove rfl)
  rw [queues_all, queues_zomb] at pushed
  have first : (s.unlink p).p_nxt (.head .zombproc) = zomb.head? := lists.head .zombproc
  have zombies : Backed (s.unlink p).p_prev (.head .zombproc) zomb :=
    good.backZomb.congr fun q member => kept q fun inAll => good.apart.1 q inAll member
  refine ⟨pushed, ?_, ?_⟩
  · refine backed.congr fun q member => ?_
    have other : q ≠ p := fun same => notAll (same ▸ member)
    refine (update_of_ne other ..).trans ?_
    rw [first]
    refine setBack_of_ne fun same => good.apart.1 q ?_ (mem_of_head? same)
    simp only [mem_append] at member ⊢
    tauto
  · simp only [Table.bury, first]
    exact zombies.push (good.lists.nodup .zombproc) notZomb

/-- `exit` of a process other than the swapper and init succeeds. -/
lemma exit_spec (good : Good s all zomb free chains) (living : p ∈ all)
    (notZero : p ≠ 0) (notInit : p ≠ 1) (rv : ℤ) :
    ∃ a b c d, all = a ++ p :: b ∧ chains (PIDHASH (s.proc p).p_pid) = c ++ p :: d ∧
      s.exit p rv = some { s.bury p rv (after (.head (PIDHASH (s.proc p).p_pid)) c) with
          proc := ((a ++ b) ++ p :: zomb).foldl (orphan p)
            (s.bury p rv (after (.head (PIDHASH (s.proc p).p_pid)) c)).proc } := by
  obtain ⟨a, b, here⟩ := append_of_mem living
  have onChain : p ∈ chains (PIDHASH (s.proc p).p_pid) :=
    (good.chained _ p).mpr ⟨living, notZero, rfl⟩
  have short : (chains (PIDHASH (s.proc p).p_pid)).length < NPROC + 1 := by
    have := (good.hash.nodup (PIDHASH (s.proc p).p_pid)).length_le_card
    rw [Fintype.card_fin] at this
    omega
  have pid : (s.proc p).p_pid ≠ 1 := good.ids p (mem_append_left zomb living) notInit
  rcases seek_spec (· = p) (NPROC + 1) (good.hash.linked _) short with
    ⟨-, none⟩ | ⟨c, x, d, split, found, hit, -⟩
  · simpa using none p onChain
  · obtain rfl : x = p := by simpa using hit
    refine ⟨a, b, c, d, here, split, ?_⟩
    obtain ⟨lists, -, -⟩ := bury_spec good here rv _
    have entries : ∀ q, (s.bury x rv (after (.head (PIDHASH (s.proc x).p_pid)) c)).entries q =
        queues (a ++ b) (x :: zomb) free q := fun q =>
      (lists.linked q).elements NPROC (by simpa using (lists.nodup q).length_le_card)
    simp [Table.exit, if_neg pid, found, entries, queues]

/-- The swapper is on no hash chain and init must not exit: both panic. -/
lemma exit_refused (good : Good s all zomb free chains) (special : p = 0 ∨ p = 1)
    (rv : ℤ) : s.exit p rv = none := by
  rcases special with rfl | rfl
  · have short : (chains (PIDHASH (s.proc 0).p_pid)).length < NPROC + 1 := by
      have := (good.hash.nodup (PIDHASH (s.proc 0).p_pid)).length_le_card
      rw [Fintype.card_fin] at this
      omega
    rcases seek_spec (· = 0) (NPROC + 1) (good.hash.linked _) short with
      ⟨none, -⟩ | ⟨c, x, d, split, -, hit, -⟩
    · simp [Table.exit, none]
    · obtain rfl : x = 0 := by simpa using hit
      have member : 0 ∈ chains (PIDHASH (s.proc 0).p_pid) := by simp [split]
      exact absurd rfl ((good.chained _ 0).mp member).2.1
  · rw [Table.exit, if_pos good.init.2]

/-- What `exit` does to the entries. -/
lemma exit_proc (zomb : List Slot) (here : all = a ++ p :: b) (notInit : p ≠ 1) (rv : ℤ)
    (pp : Cell (Fin PIDHSZ) Slot) (q : Slot) :
    let proc := ((a ++ b) ++ p :: zomb).foldl (orphan p) (s.bury p rv pp).proc q
    proc.p_pid = (s.proc q).p_pid ∧ proc.p_stat = (if q = p then .szomb else (s.proc q).p_stat) ∧
      proc.p_pgrp = (if q = p then 0 else (s.proc q).p_pgrp) ∧
      proc.p_pptr = if q ∈ all ++ zomb ∧ (s.proc q).p_pptr = some p then some 1
        else (s.proc q).p_pptr := by
  have members : q ∈ (a ++ b) ++ p :: zomb ↔ q ∈ all ++ zomb := by
    subst here
    simp only [mem_append, mem_cons]
    tauto
  simp only [orphans_apply notInit, members, Table.bury]
  by_cases same : q = p
  · subst same
    simp only [update_self]
    split_ifs <;> simp
  · simp only [update_of_ne same]
    split_ifs <;> simp

section

variable (good : Good s all zomb free chains)
include good

/-- An exiting process goes to `zombproc`, and its children to init. -/
lemma good_exit {rv : ℤ} (step : Step s (.exit p rv) t) :
    (∃ a b chains', all = a ++ p :: b ∧ Good t (a ++ b) (p :: zomb) free chains') ∧
      ∀ q ∈ all ++ zomb, (s.proc q).p_pptr = some p → (t.proc q).p_pptr = some 1 := by
  obtain ⟨living, caller⟩ := good.caller step
  have caller : p ∈ all := caller
  rw [Step, System.exec, if_pos living] at step
  have ordinary : p ≠ 0 ∧ p ≠ 1 := by
    rw [← not_or]
    intro special
    simp [exit_refused good special] at step
  obtain ⟨a, b, c, d, here, chain, done⟩ := exit_spec good caller ordinary.1 ordinary.2 rv
  obtain ⟨lists, backAll, backZomb⟩ :=
    bury_spec good here rv (after (.head (PIDHASH (s.proc p).p_pid)) c)
  have effect := exit_proc (s := s) zomb here ordinary.2 rv
    (after (.head (PIDHASH (s.proc p).p_pid)) c)
  rw [done] at step
  cases step
  generalize ((a ++ b) ++ p :: zomb).foldl _ _ = proc at effect ⊢
  have sub : ∀ q, q ∈ a ++ b ↔ q ∈ all ∧ q ≠ p := fun q => by
    simpa [queues] using good.lists.mem_remove (k := Queue.allproc) here q .allproc
  -- a parent that stays on `allproc`, or init in its place
  have parent : ∀ q ∈ all ++ zomb, (∃ r ∈ all, (s.proc q).p_pptr = some r) →
      ∃ r ∈ a ++ b, (proc q).p_pptr = some r := by
    rintro q member ⟨r, living, eq⟩
    rw [(effect q).2.2.2]
    by_cases child : (s.proc q).p_pptr = some p
    · exact ⟨1, (sub 1).mpr ⟨good.init.1, ordinary.2.symm⟩, if_pos ⟨member, child⟩⟩
    · refine ⟨r, (sub r).mpr ⟨living, fun same => child (same ▸ eq)⟩, ?_⟩
      rw [if_neg fun both => child both.2, eq]
  constructor
  · refine ⟨a, b, update chains (PIDHASH (s.proc p).p_pid) (c ++ d), here, ?_⟩
    constructor
    · constructor
      · exact lists
      · intro q
        have := good.whole q
        rw [sub, mem_cons]
        tauto
      · exact backAll
      · exact backZomb
      · exact good.hash.remove chain
      · intro h q
        rw [good.hash.mem_remove chain, good.chained, (effect q).1, sub]
        tauto
      · intro q member notZero
        exact parent q (mem_append_left zomb ((sub q).mp member).1)
          (good.parents q ((sub q).mp member).1 notZero)
      · intro q member
        rcases mem_cons.mp member with rfl | member
        · exact parent q (mem_append_left zomb caller) (good.parents q caller ordinary.1)
        · exact parent q (mem_append_right all member) (good.zombies q member)
      · refine good.numbers.trans (List.Perm.append_right _ (List.Perm.map _ ?_))
        rw [here, append_assoc, append_assoc]
        exact (perm_middle.symm).append_left a
    · intro q
      simp only [(effect q).2.1, sub q]
      split_ifs with same
      · simp [same, Stat.alive]
      · simp [same, good.alive q]
    · exact (sub 0).mpr ⟨good.swapper, ordinary.1.symm⟩
    · exact ⟨(sub 1).mpr ⟨good.init.1, ordinary.2.symm⟩, (effect 1).1.trans good.init.2⟩
    · intro q member notInit
      simp only [(effect q).1]
      refine good.ids q ?_ notInit
      simp only [mem_append, mem_cons] at member ⊢
      rcases member with member | rfl | member
      · exact .inl ((sub q).mp (mem_append.mpr member)).1
      · exact .inl caller
      · exact .inr member
    · exact good.counter
  · intro q member child
    exact (effect q).2.2.2.trans (if_pos ⟨member, child⟩)

lemma Good.mem_zomb (here : zomb = a ++ p :: b) (q : Slot) : q ∈ a ++ b ↔ q ∈ zomb ∧ q ≠ p := by
  simpa [queues] using good.lists.mem_remove (k := Queue.zombproc) here q .zombproc

lemma good_reap (here : zomb = a ++ p :: b) (by_ : ℕ) :
    Good { s with toTable := s.reap p, waits := (s.number p, by_) :: s.waits }
      all (a ++ b) (p :: free) chains := by
  have sub := good.mem_zomb here
  have zombie : p ∈ zomb := by simp [here]
  obtain ⟨lists, backed, kept⟩ := unlink_spec (k := .zombproc) good.lists here (here ▸ good.backZomb)
  have notAll : p ∉ all := fun member => good.apart.1 p member zombie
  have pushed := lists.push .freeproc (good.lists.not_mem_remove here)
  rw [queues_zomb, queues_free] at pushed
  have other : ∀ q ∈ all, (s.reap p).proc q = s.proc q := fun q member =>
    update_of_ne (fun same : q = p => notAll (same ▸ member)) ..
  have others : ∀ q ∈ a ++ b, (s.reap p).proc q = s.proc q := fun q member =>
    update_of_ne ((sub q).mp member).2 ..
  constructor
  · constructor
    · exact pushed
    · intro q
      have := good.whole q
      rw [sub, mem_cons]
      tauto
    · exact good.backAll.congr fun q member => kept q fun inZomb => good.apart.1 q member inZomb
    · exact backed
    · exact good.hash
    · intro h q
      by_cases living : q ∈ all
      · simp only [other q living]
        exact good.chained h q
      · simp only [living, false_and, iff_false]
        exact fun member => living ((good.chained h q).mp member).1
    · intro q member notZero
      simp only [other q member]
      exact good.parents q member notZero
    · intro q member
      simp only [others q member]
      exact good.zombies q ((sub q).mp member).1
    · refine good.numbers.trans ?_
      subst here
      simp only [map_append, append_assoc]
      refine List.Perm.append_left _ (List.Perm.append_left _ ?_)
      exact perm_middle.symm
  · intro q
    by_cases same : q = p
    · subst same
      simp [Table.reap, Stat.alive, notAll]
    · simp only [Table.reap, update_of_ne same]
      exact good.alive q
  · exact good.swapper
  · exact ⟨good.init.1, by simpa only [other 1 good.init.1] using good.init.2⟩
  · intro q member notInit
    rcases mem_append.mp member with living | zombie
    · simp only [other q living]
      exact good.ids q (mem_append_left zomb living) notInit
    · simp only [others q zombie]
      exact good.ids q (mem_append_right all ((sub q).mp zombie).1) notInit
  · exact good.counter

/-- `wait1` gives the first zombie it looks for, or leaves the lists alone. -/
lemma wait1_cases (q : Slot) (args : WaitArgs) : (∃ p ∈ zomb, (s.proc p).p_pptr = some q ∧
        s.wait1 q args = (s.reap p, .reaped p (s.proc p).p_pid (s.proc p).p_xstat)) ∨
      (∃ proc, (s.wait1 q args).1 = { s.toTable with proc } ∧
          ∀ p, ∃ waited, proc p = { s.proc p with waited }) ∧
        (∀ p pid xstat, (s.wait1 q args).2 ≠ .reaped p pid xstat) ∧
        (args.pid = -1 → args.fault = false → ∀ p ∈ zomb, (s.proc p).p_pptr ≠ some q) := by
  have entries : s.entries .zombproc = zomb := good.entries .zombproc
  have same : ∀ p, ∃ waited, s.proc p = { s.proc p with waited } := fun p =>
    ⟨(s.proc p).waited, rfl⟩
  simp only [Table.wait1, entries]
  split
  case h_1 p found =>
    have member := mem_of_find?_eq_some found
    have passes := find?_some found
    by_cases fault : args.fault = true
    · simp only [fault]
      exact .inr ⟨⟨s.proc, rfl, same⟩, by simp, by simp⟩
    · simp only [fault]
      simp only [wanted, Bool.and_eq_true, decide_eq_true_eq] at passes
      exact .inl ⟨p, member, passes.1, rfl⟩
  case h_2 nobody =>
    have none : args.pid = -1 → ∀ p ∈ zomb, (s.proc p).p_pptr ≠ some q := by
      intro any p member child
      have := find?_eq_none.mp nobody p member
      simp [wanted, child, any] at this
    right
    split
    case h_1 p stopped =>
      refine ⟨⟨_, rfl, fun r => ?_⟩, ?_, fun any _ => none any⟩
      · by_cases here : r = p
        · subst here
          exact ⟨true, update_self ..⟩
        · exact ⟨(s.proc r).waited, update_of_ne here ..⟩
      · intro r pid xstat
        split_ifs <;> simp
    case h_2 =>
      refine ⟨⟨s.proc, rfl, same⟩, ?_, fun any _ => none any⟩
      intro r pid xstat
      split_ifs <;> simp

end

lemma wait1_quiet {q : Slot} {result : Waited} (never : ∀ p pid xstat, result ≠ .reaped p pid xstat) :
    s.waited q result = s.waits := by
  cases result with
  | reaped p pid xstat => exact absurd rfl (never p pid xstat)
  | _ => rfl

lemma update_field {β : Type} (field : Proc → β) (proc : Slot → Proc) {q : Slot} (entry : Proc)
    (same : field entry = field (proc q)) (p : Slot) :
    field (update proc q entry p) = field (proc p) := by
  by_cases here : p = q
  · subst here
    rw [update_self, same]
  · rw [update_of_ne here]

/-- `setpgrp` changes at most the group of one process. -/
lemma setpgrp_cases (table : Table) (caller : Slot) (pid pgrp : ℤ) :
    ∃ proc, table.setpgrp caller pid pgrp = { table with proc } ∧ ∀ p,
      proc p = table.proc p ∨ proc p = { table.proc p with p_pgrp := pgrp.bmod 65536 } := by
  unfold Table.setpgrp
  cases table.pfind _ with
  | none => exact ⟨table.proc, rfl, fun p => .inl rfl⟩
  | some found =>
    dsimp only
    split_ifs
    · exact ⟨table.proc, rfl, fun p => .inl rfl⟩
    · refine ⟨_, rfl, fun p => ?_⟩
      by_cases here : p = found
      · subst here
        exact .inr (update_self ..)
      · exact .inl (update_of_ne here ..)

lemma good_step (s : System) (label : Label) (t : System)
    (good : ∃ all zomb free chains, Good s all zomb free chains) (step : Step s label t) :
    ∃ all zomb free chains, Good t all zomb free chains := by
  obtain ⟨all, zomb, free, chains, good⟩ := good
  obtain ⟨living, -⟩ := good.caller step
  cases label with
  | newproc parent =>
    obtain ⟨child, rest, chains', -, new⟩ := good_newproc good step
    exact ⟨_, _, _, _, new⟩
  | exit p rv =>
    obtain ⟨⟨a, b, chains', -, new⟩, -⟩ := good_exit good step
    exact ⟨_, _, _, _, new⟩
  | wait1 q args =>
    rw [Step, System.exec, if_pos living] at step
    cases step
    rcases wait1_cases good q args with ⟨p, member, -, eq⟩ | ⟨⟨proc, eq, waited⟩, never, -⟩
    · obtain ⟨a, b, here⟩ := append_of_mem member
      rw [eq]
      exact ⟨_, _, _, _, good_reap good here _⟩
    · rw [wait1_quiet never, eq]
      refine ⟨all, zomb, free, chains, good.touch proc (fun p => ?_) (fun p => ?_) fun p => ?_⟩
      all_goals
        obtain ⟨w, same⟩ := waited p
        rw [same]
  | setpgrp caller pid pgrp =>
    rw [Step, System.exec, if_pos living] at step
    cases step
    obtain ⟨proc, eq, group⟩ := setpgrp_cases s.toTable caller pid pgrp
    rw [eq]
    refine ⟨all, zomb, free, chains, good.touch proc (fun p => ?_) (fun p => ?_) fun p => ?_⟩
    all_goals
      rcases group p with same | same <;> rw [same]
  | other p stat p_uid u_uid traced waited =>
    rw [Step, System.exec, if_pos living] at step
    split_ifs at step with alive
    cases step
    refine ⟨all, zomb, free, chains, good.touch _ (fun p => ?_) (fun p => ?_) fun p => ?_⟩
    · exact update_field Proc.p_pid _ _ (by rfl) p
    · exact update_field Proc.p_pptr _ _ (by rfl) p
    · refine update_field (fun p => p.p_stat.alive) _ _ ?_ p
      exact alive.trans living.symm

lemma boot_linked : Lists boot.p_nxt (queues [1, 0] [] [2, 3, 4, 5, 6, 7, 8, 9]) where
  linked q := by cases q <;> decide
  nodup q := by cases q <;> decide
  apart q q' p left right := by
    revert left right p
    cases q <;> cases q' <;> decide

lemma good_boot : ∃ all zomb free chains, Good boot all zomb free chains := by
  refine ⟨[1, 0], [], [2, 3, 4, 5, 6, 7, 8, 9], fun h => if h = 1 then [1] else [], ?_⟩
  constructor
  · constructor
    · exact boot_linked
    · decide
    · exact ⟨rfl, rfl, trivial⟩
    · trivial
    · constructor
      · decide
      · decide
      · decide
    · decide
    · decide
    · decide
    · decide
  · decide
  · decide
  · decide
  · decide
  · decide

/-- In every run, whatever the processes that call `newproc`, `exit`, `wait1` and `setpgrp`: the
lists, chains and parents are consistent; the children of a process that exits are given to init;
`wait1` returns only zombies of the caller and frees their entries, and it does return one if it
is called for any child and there is one; `newproc` fails only for want of an entry, and `exit`
only for the swapper and init. -/
theorem process_table (labels : List Label) (s : System)
    (run : Run Step (fun _ _ => True) boot labels s) :
    ∃ all zomb free chains, Consistent s all zomb free chains ∧
      (∀ p rv t, Step s (.exit p rv) t → ∀ q ∈ all ++ zomb,
        (s.proc q).p_pptr = some p → (t.proc q).p_pptr = some 1) ∧
      (∀ q args p pid xstat, (s.wait1 q args).2 = .reaped p pid xstat →
        p ∈ zomb ∧ (s.proc p).p_pptr = some q ∧
          (s.wait1 q args).1.p_nxt (.head .freeproc) = some p) ∧
      (∀ q, (∃ p ∈ zomb, (s.proc p).p_pptr = some q) → ∀ args : WaitArgs, args.pid = -1 →
        args.fault = false → ∃ p pid xstat, (s.wait1 q args).2 = .reaped p pid xstat) ∧
      (∀ p ∈ all, (∃ t, Step s (.newproc p) t) ↔ free ≠ []) ∧
      ∀ p ∈ all, ∀ rv, (∃ t, Step s (.exit p rv) t) ↔ p ≠ 0 ∧ p ≠ 1 := by
  obtain ⟨all, zomb, free, chains, good⟩ := run_invariant
    (fun s => ∃ all zomb free chains, Good s all zomb free chains)
    (fun s a t good _ step => good_step s a t good step) run good_boot
  refine ⟨all, zomb, free, chains, good.toConsistent, fun p rv t step => (good_exit good step).2,
    ?_, ?_, ?_, ?_⟩
  · intro q args p pid xstat result
    rcases wait1_cases good q args with ⟨r, member, child, eq⟩ | ⟨-, never, -⟩
    · rw [eq] at result
      cases result
      exact ⟨member, child, by simp [eq, Table.reap, push]⟩
    · exact absurd result (never p pid xstat)
  · rintro q ⟨p, member, child⟩ args any fault
    rcases wait1_cases good q args with ⟨r, -, -, eq⟩ | ⟨-, -, none⟩
    · exact ⟨r, _, _, by rw [eq]⟩
    · exact absurd child (none any fault p member)
  · intro p member
    constructor
    · rintro ⟨t, step⟩ rfl
      obtain ⟨child, rest, _, eq, -⟩ := good_newproc good step
      cases eq
    · intro some
      obtain ⟨⟨mpid, pidchecked⟩, found⟩ := good.newpid
      obtain ⟨child, rest, rfl⟩ := exists_cons_of_ne_nil some
      have head : s.p_nxt (.head .freeproc) = .some child := good.lists.head .freeproc
      have living : (s.proc (Label.newproc p).caller).p_stat.alive = true := (good.alive p).mpr member
      unfold Step
      rw [System.exec, if_pos living]
      simp only [Table.newproc, found, head]
      exact ⟨_, rfl⟩
  · intro p member rv
    have living : (s.proc (Label.exit p rv).caller).p_stat.alive = true := (good.alive p).mpr member
    unfold Step
    rw [System.exec, if_pos living]
    constructor
    · rintro ⟨t, step⟩
      rw [← not_or]
      intro special
      simp [exit_refused good special] at step
    · rintro ⟨notZero, notInit⟩
      obtain ⟨a, b, c, -, -, -, done⟩ := exit_spec good member notZero notInit rv
      simp only [done, Option.map_some]
      exact ⟨_, rfl⟩

/-- A child of init is born, exits and is waited for. -/
theorem process_table_child : ∃ s, Run Step (fun _ _ => True) boot
    [.newproc 1, .exit 2 7, .wait1 1 ⟨-1, false, false, false⟩] s ∧
    s.waits = [(2, 1)] ∧ ∃ all zomb free chains, Consistent s all zomb free chains := by
  refine Exists.imp (fun s ⟨run, waits⟩ => ⟨run, waits, ?_⟩)
    (run_of_reached System.exec (by decide))
  obtain ⟨all, zomb, free, chains, consistent, -⟩ := process_table _ s run
  exact ⟨all, zomb, free, chains, consistent⟩

end Processes
