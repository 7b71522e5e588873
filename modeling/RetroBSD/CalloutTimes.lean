import RetroBSD.Callouts

/-!
# When callouts run

The pointers of the table always form the two lists `calltodo` and `callfree`
over all slots, and the numbers in `c_time` are the differences of the times at
which the pending callouts are due. Each routine is specified once in these
terms; what holds of every run follows.
-/

namespace Callouts

open LinkedLists DeltaLists Runs
open List hiding after
open Function (update update_of_ne update_self update_comm)

variable {F A : Type}

def queues (todo free : List Slot) : Queue → List Slot
  | .calltodo => todo
  | .callfree => free

abbrev times (c_time : Slot → Int32) : Slot → ℤ := fun p => (c_time p).toInt

variable {x : Int32}

lemma toInt_sub_of {y : Int32} (low : -2 ^ 31 ≤ x.toInt - y.toInt)
    (high : x.toInt - y.toInt < 2 ^ 31) : (x - y).toInt = x.toInt - y.toInt := by
  rw [Int32.toInt_sub, Int.bmod_eq_of_le] <;> omega

lemma toInt_add_of {y : Int32} (low : -2 ^ 31 ≤ x.toInt + y.toInt)
    (high : x.toInt + y.toInt < 2 ^ 31) : (x + y).toInt = x.toInt + y.toInt := by
  rw [Int32.toInt_add, Int.bmod_eq_of_le] <;> omega

lemma toInt_neg_of (positive : 0 < x.toInt) : (-x).toInt = -x.toInt := by
  have := x.toInt_lt
  rw [Int32.toInt_neg, Int.bmod_eq_of_le] <;> omega

lemma positive_iff : x > 0 ↔ 0 < x.toInt := by
  rw [gt_iff_lt, Int32.lt_iff_toInt_lt, Int32.toInt_zero]

section Routines

variable {s : Clock F A} {c : Cell Queue Slot} {due : Slot → ℤ} {base : ℤ} {l : List Slot}
  {pnew : Slot}

/-- The search of `timeout` stops where the new entry can be put. -/
lemma search_spec (n : ℕ) (t : Int32) (linked : Linked s.c_next c l) (enough : l.length ≤ n)
    (deltas : Deltas (times s.c_time) due base l) (left : t.toInt = due pnew - base)
    (start : base < due pnew) :
    ∃ a b t', l = a ++ b ∧ s.search n c t = (after c a, t') ∧ 0 < t'.toInt ∧
      (∀ y ∈ b.head?, t'.toInt ≤ times s.c_time y) ∧
      ∀ time', Inserted (times s.c_time) time' a pnew t'.toInt b →
        Deltas time' due base (a ++ pnew :: b) := by
  induction l generalizing c n t base with
  | nil =>
    refine ⟨[], [], t, rfl, ?_, by omega, by simp, fun time' inserted => ?_⟩
    · cases n with
      | zero => rfl
      | succ n => simp [Clock.search, linked_nil.mp linked, after]
    · exact deltas.push start (by simp) (left ▸ inserted)
  | cons p l ih =>
    obtain ⟨n, rfl⟩ : ∃ m, n = m + 1 := ⟨n - 1, by simp at enough; omega⟩
    obtain ⟨here, rest⟩ := linked_cons.mp linked
    obtain ⟨time, sorted, later⟩ := id deltas
    have time : (s.c_time p).toInt = due p - base := time
    by_cases early : s.c_time p < t
    · have before : due p < due pnew := by
        have := Int32.lt_iff_toInt_lt.mp early
        omega
      have counted : (if s.c_time p > 0 then t - s.c_time p else t).toInt =
          due pnew - max base (due p) := by
        split_ifs with positive
        · have := t.toInt_lt
          rw [positive_iff] at positive
          rw [toInt_sub_of (by omega) (by omega)]
          omega
        · rw [positive_iff] at positive
          omega
      obtain ⟨a, b, t', rfl, found, positive, room, insert⟩ :=
        ih n _ rest (by simpa using enough) later counted (max_lt start before)
      refine ⟨p :: a, b, t', rfl, ?_, positive, room, fun time' inserted => ?_⟩
      · simpa [Clock.search, here, early, after] using found
      · refine ⟨(inserted.before p mem_cons_self).trans time, fun y member => ?_, insert time' ?_⟩
        · rcases mem_cons.mp (perm_middle.mem_iff.mp member) with rfl | member
          · exact before.le
          · exact sorted y member
        · exact { inserted with
            before := fun y member => inserted.before y (mem_cons_of_mem p member) }
    · rw [Int32.lt_iff_toInt_lt, not_lt] at early
      refine ⟨[], p :: l, t, rfl, ?_, by omega, ?_, fun time' inserted => ?_⟩
      · simp [Clock.search, here, Int32.lt_iff_toInt_lt, early, after]
      · rintro y ⟨⟩
        exact early
      · apply deltas.push start (forall_mem_cons.mpr ?_) (left ▸ inserted)
        exact ⟨by omega, fun y member => le_trans (by omega) (sorted y member)⟩

@[simp] lemma addTime_self (c_time : Slot → Int32) (p : Slot) (d : Int32) :
    Clock.addTime c_time (some p) d p = c_time p + d := by
  simp [Clock.addTime]

variable {p : Slot}

lemma addTime_of_ne {c_time : Slot → Int32} {q : Option Slot} (other : q ≠ some p)
    (d : Int32) : Clock.addTime c_time q d p = c_time p := by
  cases q with
  | none => rfl
  | some q => exact update_of_ne (fun same => other (by rw [same])) ..

@[simp] lemma queues_todo (todo todo' free : List Slot) :
    update (queues todo free) .calltodo todo' = queues todo' free := by
  funext q
  cases q <;> rfl

@[simp] lemma queues_free (todo free free' : List Slot) :
    update (queues todo free) .callfree free' = queues todo free' := by
  funext q
  cases q <;> rfl

lemma not_head {b : List Slot} (nodup : b.Nodup) (member : p ∈ b.tail) : b.head? ≠ some p := by
  cases b with
  | nil => simp
  | cons y b =>
    rintro ⟨⟩
    exact (nodup_cons.mp nodup).1 member

variable {todo free a b : List Slot}

lemma todo_short (lists : Lists s.c_next (queues todo free)) : todo.length ≤ NCALL := by
  simpa [queues] using (lists.nodup .calltodo).length_le_card

/-- The writes of `timeout` once the place for the new entry is found. -/
lemma enqueue_spec (lists : Lists s.c_next (queues (a ++ b) free))
    (fresh : ∀ q, pnew ∉ queues (a ++ b) free q) {t : Int32} (positive : 0 < t.toInt)
    (room : ∀ y ∈ b.head?, t.toInt ≤ times s.c_time y) :
    Lists (s.enqueue pnew (after (.head .calltodo) a) t).c_next (queues (a ++ pnew :: b) free) ∧
      Inserted (times s.c_time) (times (s.enqueue pnew (after (.head .calltodo) a) t).c_time)
        a pnew t.toInt b := by
  have next : s.c_next (after (.head .calltodo) a) = b.head? := lists.at_after rfl
  have new : ∀ y ∈ a ++ b, y ≠ pnew := fun y member same => fresh .calltodo (same ▸ member)
  have parts := nodup_append'.mp (lists.nodup .calltodo)
  have untouched : ∀ y ∈ a ++ b, b.head? ≠ some y →
      times (s.enqueue pnew (after (.head .calltodo) a) t).c_time y = times s.c_time y := by
    intro y member other
    simp [times, Clock.enqueue, next, addTime_of_ne other, update_of_ne (new y member)]
  refine ⟨?_, ?_, ?_, ?_, ?_⟩
  · have out : after (.head Queue.calltodo) a ≠ .link pnew := fun same =>
      fresh .calltodo (mem_append_left b (after_head_link same))
    have linked := lists.insert (k := .calltodo) rfl fresh
    rw [update_comm out.symm, queues_todo] at linked
    exact linked
  · have other : b.head? ≠ some pnew := fun same =>
      new pnew (mem_append_right a (mem_of_head? same)) rfl
    simp [times, Clock.enqueue, next, addTime_of_ne other]
  · exact fun y member => untouched y (mem_append_left b member) fun same =>
      parts.2.2 member (mem_of_head? same)
  · intro y first
    have low := room y first
    have high := (s.c_time y).toInt_lt
    have back := toInt_neg_of positive
    simp only [times, Clock.enqueue, next, Option.mem_def.mp first, addTime_self,
      update_of_ne (new y (mem_append_right a (mem_of_head? first)))] at low ⊢
    rw [toInt_add_of (by omega) (by omega)]
    omega
  · exact fun y member => untouched y (mem_append_right a (mem_of_mem_tail member))
      (not_head parts.2.1 member)

/-- `timeout` finds a free entry and links it in front of the entries due no earlier. -/
lemma timeout_spec (lists : Lists s.c_next (queues todo (pnew :: free)))
    (deltas : Deltas (times s.c_time) due base todo) (func : F) (arg : A) (t : Int32)
    (later : due pnew = base + max t.toInt 1) :
    ∃ s' a b, s.timeout func arg t = some s' ∧ todo = a ++ b ∧
      Lists s'.c_next (queues (a ++ pnew :: b) free) ∧
      s'.c_arg = update s.c_arg pnew arg ∧
      s'.c_func = update s.c_func pnew func ∧
      Deltas (times s'.c_time) due base (a ++ pnew :: b) := by
  have head : s.c_next (.head .callfree) = some pnew := lists.head .callfree
  have taken := lists.remove (k := .callfree) (a := []) rfl
  simp only [queues_free] at taken
  have fresh : ∀ q, pnew ∉ queues todo free q := by
    rintro (_ | _) member
    · cases lists.apart .calltodo .callfree pnew member mem_cons_self
    · exact (nodup_cons.mp (lists.nodup .callfree)).1 member
  have clipped : (if t ≤ 0 then 1 else t).toInt = due pnew - base := by
    split_ifs with low
    · rw [Int32.le_iff_toInt_le, Int32.toInt_zero] at low
      rw [Int32.toInt_one]
      omega
    · rw [Int32.le_iff_toInt_le, Int32.toInt_zero] at low
      omega
  set s1 : Clock F A :=
    { s with
      c_next := update s.c_next (.head .callfree) _
      c_arg := update s.c_arg pnew arg
      c_func := update s.c_func pnew func } with hs1
  obtain ⟨a, b, t', split, found, positive, room, insert⟩ := search_spec (s := s1) NCALL _
    (taken.linked .calltodo) (todo_short lists) deltas clipped (by omega)
  subst split
  obtain ⟨linked, inserted⟩ := enqueue_spec taken fresh positive room
  refine ⟨_, a, b, ?_, rfl, linked, rfl, rfl, insert _ inserted⟩
  simp [Clock.timeout, head, ← hs1, found]

/-- An entry taken out of `calltodo` goes to the front of `callfree`. -/
lemma release_spec (lists : Lists s.c_next (queues (a ++ p :: b) free)) :
    Lists (Clock.release s.c_next (after (.head .calltodo) a) p) (queues (a ++ b) (p :: free)) := by
  have out := lists.remove (k := .calltodo) rfl
  rw [queues_todo] at out
  have fresh : ∀ q, p ∉ queues (a ++ b) free q := by
    rintro (_ | _) member
    · exact (nodup_cons.mp (nodup_middle.mp (lists.nodup .calltodo))).1 member
    · cases lists.apart .calltodo .callfree p (by simp [queues]) member
  have back := out.insert (k := .callfree) (a := []) rfl fresh
  rw [queues_free] at back
  exact back

lemma registered_spec [DecidableEq F] [DecidableEq A]
    (lists : Lists s.c_next (queues todo free)) (func : F) (arg : A) :
    s.registered func arg = none ∨ ∃ a p b, todo = a ++ p :: b ∧
      s.registered func arg = some (after (.head .calltodo) a, p) ∧
      s.c_func p = func ∧ s.c_arg p = arg := by
  rcases seek_spec (fun p => s.c_func p = func && s.c_arg p = arg) (NCALL + 1)
    (lists.linked .calltodo) (Nat.lt_succ_of_le (todo_short lists)) with ⟨none, _⟩ | ⟨a, p, b, split, found, hit, _⟩
  · exact .inl none
  · simp only [Bool.and_eq_true, decide_eq_true_eq] at hit
    exact .inr ⟨a, p, b, split, found, hit⟩

/-- When `untimeout` removes an entry, the others stay due when they were. -/
lemma untimeout_spec [DecidableEq F] [DecidableEq A]
    (lists : Lists s.c_next (queues (a ++ p :: b) free))
    (deltas : Deltas (times s.c_time) due base (a ++ p :: b))
    (near : ∀ y ∈ a ++ p :: b, due y < base + 2 ^ 31) {func : F} {arg : A}
    (found : s.registered func arg = some (after (.head .calltodo) a, p)) :
    Lists (s.untimeout func arg).c_next (queues (a ++ b) (p :: free)) ∧
      Deltas (times (s.untimeout func arg).c_time) due base (a ++ b) := by
  have next : s.c_next (.link p) = b.head? := lists.next (k := .calltodo) rfl
  have parts := nodup_append'.mp (lists.nodup .calltodo)
  have restB := (nodup_cons.mp parts.2.1).2
  have untouched : ∀ y, b.head? ≠ some y →
      times (s.untimeout func arg).c_time y = times s.c_time y := by
    intro y other
    simp only [times, Clock.untimeout, found, next]
    split_ifs
    · rw [addTime_of_ne other]
    · rfl
  constructor
  · simp only [Clock.untimeout, found]
    exact release_spec lists
  · refine deltas.remove (fun y member => untouched y fun same =>
      parts.2.2 member (mem_cons_of_mem p (mem_of_head? same))) (fun y first => ?_)
      fun y member => untouched y (not_head restB member)
    obtain ⟨c, rfl⟩ : ∃ c, b = y :: c := by
      cases b with
      | nil => cases first
      | cons z c => cases first; exact ⟨c, rfl⟩
    obtain ⟨r, floor, timeP, order, timeY⟩ := deltas.neighbours
    have bound := near y (by simp)
    simp only [times, Clock.untimeout, found, next, head?_cons] at timeP timeY ⊢
    split_ifs with positive
    · rw [positive_iff] at positive
      rw [addTime_self, toInt_add_of (by omega) (by omega)]
      omega
    · rw [positive_iff] at positive
      omega

/-- A tick counts down the overdue entries and the first one that is not overdue. -/
lemma countdown_spec {c_next : Cell Queue Slot → Option Slot} (n : ℕ) (c_time : Slot → Int32)
    (linked : Linked c_next c l) (enough : l.length < n) (nodup : l.Nodup)
    (deltas : Deltas (times c_time) due base l) (fresh : ∀ p ∈ l, c_time p ≠ Int32.minValue) :
    (∀ y, y ∉ l → Clock.countdown c_next n (c_next c) c_time y = c_time y) ∧
      Deltas (times (Clock.countdown c_next n (c_next c) c_time)) due (base + 1) l := by
  induction l generalizing c n c_time with
  | nil =>
    obtain ⟨n, rfl⟩ : ∃ m, n = m + 1 := ⟨n - 1, by simp at enough; omega⟩
    refine ⟨fun y _ => ?_, trivial⟩
    rw [linked_nil.mp linked, Clock.countdown]
  | cons x l ih =>
    obtain ⟨n, rfl⟩ : ∃ m, n = m + 1 := ⟨n - 1, by simp at enough; omega⟩
    obtain ⟨here, rest⟩ := linked_cons.mp linked
    obtain ⟨time, sorted, later⟩ := deltas
    obtain ⟨out, nodup⟩ := nodup_cons.mp nodup
    have time : (c_time x).toInt = due x - base := time
    have whole : (c_time x - 1).toInt = (c_time x).toInt - 1 := by
      have low : (c_time x).toInt ≠ Int32.minValue.toInt := fun same =>
        fresh x mem_cons_self (Int32.toInt_inj.mp same)
      rw [Int32.toInt_minValue] at low
      have := (c_time x).le_toInt
      have := (c_time x).toInt_lt
      rw [toInt_sub_of] <;> rw [Int32.toInt_one] <;> omega
    have others : ∀ {y}, y ∉ x :: l → update c_time x (c_time x - 1) y = c_time y :=
      fun away => update_of_ne (ne_of_not_mem_cons away) ..
    have apart : ∀ {y}, y ∈ l → update c_time x (c_time x - 1) y = c_time y :=
      fun member => update_of_ne (ne_of_mem_of_not_mem member out) ..
    simp only [here, Clock.countdown, update_self]
    rw [← ite_or]
    split_ifs with stop <;> rw [gt_iff_lt, Int32.lt_iff_toInt_lt, ← Int32.toInt_inj,
      Int32.toInt_zero, whole, time] at stop
    · refine ⟨fun y away => others away, ?_, sorted, ?_⟩
      · simp only [times, update_self]
        omega
      · rw [show max (base + 1) (due x) = max base (due x) by omega]
        exact later.congr (fun y member => by simp [times, apart member]) fun _ _ => rfl
    · rw [max_eq_left (by omega)] at later
      obtain ⟨kept, counted⟩ := ih n (update c_time x (c_time x - 1)) rest
        (by simpa using enough) nodup
        (later.congr (fun y member => by simp [times, apart member]) fun _ _ => rfl)
        (fun y member => by
          rw [apart member]
          exact fresh y (mem_cons_of_mem x member))
      refine ⟨fun y away => ?_, ?_, sorted, ?_⟩
      · rw [kept y (not_mem_of_not_mem_cons away), others away]
      · simp only [times, kept x out, update_self, whole, time]
        omega
      · rwa [max_eq_left (by omega)]

lemma hardclock_spec (lists : Lists s.c_next (queues todo free))
    (deltas : Deltas (times s.c_time) due base todo)
    (fresh : ∀ p ∈ todo, s.c_time p ≠ Int32.minValue) :
    Deltas (times s.hardclock.c_time) due (base + 1) todo := by
  exact (countdown_spec _ s.c_time (lists.linked .calltodo)
    (Nat.lt_succ_of_le (todo_short lists)) (lists.nodup .calltodo) deltas fresh).2

end Routines

section Histories

def System.finished (s : System F A) : List ℕ := if s.soft then s.starts.tail else s.starts

/-- How many functions the `softclock` with `n` before it has run. -/
def System.calls (s : System F A) (n : ℕ) : ℕ := s.ran.countP fun call => call.earlier.length = n

def System.dues (s : System F A) (p : Slot) : ℤ := (s.job p).due

/-- What is promised of the table and of what it has run. -/
structure OnTime (s : System F A) (todo free : List Slot) : Prop where
  lists : Lists s.c_next (queues todo free)
  whole : ∀ p, p ∈ todo ∨ p ∈ free
  /-- Every registration is pending, has run or was cancelled, and only one of these, once. -/
  jobs : s.jobs.Perm (todo.map s.job ++ (s.ran.map Call.job ++ s.cancelled.map Cancel.job))
  /-- What has run was run by the first `softclock` that started when it was due. -/
  ran : ∀ call ∈ s.ran, call.func = call.job.func ∧ call.arg = call.job.arg ∧
    call.job.due ≤ call.start ∧ ∀ start ∈ call.earlier, start < call.job.due
  cancelled : ∀ cancel ∈ s.cancelled, cancel.func = cancel.job.func ∧ cancel.arg = cancel.job.arg
  /-- Every `softclock` that has returned started before what is still pending was due. -/
  waiting : ∀ p ∈ todo, ∀ start ∈ s.finished, start < (s.job p).due
  /-- The latest call comes first; nothing pending is due before something that has run. -/
  order : s.ran.Pairwise fun later earlier => earlier.job.due ≤ later.job.due
  behind : ∀ call ∈ s.ran, ∀ p ∈ todo, call.job.due ≤ (s.job p).due

structure Good (s : System F A) (todo free : List Slot) : Prop extends OnTime s todo free where
  names : ∀ p ∈ todo, s.c_func p = (s.job p).func ∧ s.c_arg p = (s.job p).arg
  deltas : Deltas (times s.c_time) s.dues s.ticks todo
  near : ∀ p ∈ todo, s.dues p < s.ticks + 2 ^ 31
  past : ∀ call ∈ s.ran, call.job.due ≤ s.ticks ∧ call.earlier.length < s.starts.length
  started : ∀ start ∈ s.starts, start ≤ s.ticks
  entered : s.soft = true → ∃ rest, s.starts = s.ticks :: rest
  bound : ∀ n, s.calls n ≤ NCALL
  current : s.soft = true → s.calls s.starts.tail.length +
    todo.countP (fun p => (s.job p).due ≤ s.ticks) ≤ NCALL

variable {s t : System F A} {todo free : List Slot}

lemma finished_sub (s : System F A) : ∀ start ∈ s.finished, start ∈ s.starts := by
  intro start member
  unfold System.finished at member
  split_ifs at member
  · exact mem_of_mem_tail member
  · exact member

lemma Good.head (good : Good s todo free) (q : Queue) :
    s.c_next (.head q) = (queues todo free q).head? :=
  good.lists.head q

lemma Good.total (good : Good s todo free) : todo.length + free.length = NCALL := by
  have apart : todo.Disjoint free := fun p left right => by
    cases good.lists.apart .calltodo .callfree p left right
  have nodup : (todo ++ free).Nodup := nodup_append'.mpr
    ⟨good.lists.nodup .calltodo, good.lists.nodup .callfree, apart⟩
  have all : (todo ++ free).toFinset = Finset.univ := by
    ext p
    simpa using good.whole p
  rw [← length_append, ← toFinset_card_of_nodup nodup, all, Finset.card_univ, Fintype.card_fin]

/-- The next iteration runs the first entry exactly if that is due. -/
lemma Good.due (good : Good s todo free) :
    (s.toClock.due = none ∧ ∀ p ∈ todo, s.ticks < (s.job p).due) ∨
      ∃ p rest, todo = p :: rest ∧ s.toClock.due = some p ∧ (s.job p).due ≤ s.ticks := by
  have head := good.head .calltodo
  cases todo with
  | nil => exact .inl ⟨by simp [Clock.due, head, queues], by simp⟩
  | cons p rest =>
    obtain ⟨time, sorted, -⟩ := good.deltas
    have time : (s.c_time p).toInt = s.dues p - s.ticks := time
    simp only [System.dues] at time
    by_cases positive : s.c_time p > 0
    · refine .inl ⟨by simp [Clock.due, head, queues, positive], fun q member => ?_⟩
      rw [positive_iff] at positive
      rcases mem_cons.mp member with rfl | member
      · omega
      · have := sorted q member
        simp only [System.dues] at this
        omega
    · refine .inr ⟨p, rest, rfl, by simp [Clock.due, head, queues, positive], ?_⟩
      rw [positive_iff] at positive
      omega

/-- The loop of `softclock` is left with nothing due; otherwise the first entry is run. -/
lemma good_iterate [DecidableEq F] [DecidableEq A] (good : Good s todo free)
    (step : Step s .iterate t) : ∃ todo free, Good t todo free := by
  simp only [Step, exec] at step
  split_ifs at step with soft
  obtain ⟨rest, starts⟩ := good.entered soft
  have finished : s.finished = rest := by simp [System.finished, soft, starts]
  rcases good.due with ⟨none, ahead⟩ | ⟨p, rest, rfl, some, late⟩
  · rw [none] at step
    cases step
    refine ⟨todo, free, { good with waiting := ?_, entered := by simp, current := by simp }⟩
    intro p member start old
    rcases mem_cons.mp (starts ▸ old) with rfl | old
    · exact ahead p member
    · exact good.waiting p member start (finished ▸ old)
  · rw [some] at step
    cases step
    obtain ⟨-, sorted, later⟩ := good.deltas
    have late' : s.dues p ≤ s.ticks := Int.ofNat_le.mpr late
    rw [max_eq_left late'] at later
    have tail : ∀ q ∈ rest, q ∈ p :: rest := fun q member => mem_cons_of_mem p member
    refine ⟨rest, p :: free, ?_⟩
    exact {
      lists := release_spec (a := []) good.lists
      whole := fun q => by
        have := good.whole q
        simp only [mem_cons] at this ⊢
        tauto
      jobs := good.jobs.trans (perm_middle.symm.trans (by simp))
      ran := by
        intro call member
        rcases mem_cons.mp member with rfl | member
        · exact ⟨(good.names p mem_cons_self).1, (good.names p mem_cons_self).2, late,
            fun start old => good.waiting p mem_cons_self start (by
              rw [finished]
              rwa [starts] at old)⟩
        · exact good.ran call member
      cancelled := good.cancelled
      waiting := fun q member => good.waiting q (tail q member)
      order := List.Pairwise.cons (fun call member => good.behind call member p mem_cons_self)
        good.order
      behind := by
        intro call member q later
        rcases mem_cons.mp member with rfl | member
        · exact Int.ofNat_le.mp (sorted q later)
        · exact good.behind call member q (tail q later)
      names := fun q member => good.names q (tail q member)
      deltas := later
      near := fun q member => good.near q (tail q member)
      past := by
        intro call member
        rcases mem_cons.mp member with rfl | member
        · exact ⟨late, by simp [starts]⟩
        · exact good.past call member
      started := good.started
      entered := good.entered
      bound := by
        intro n
        have old := good.bound n
        have now := good.current soft
        simp only [System.calls, countP_cons, late, decide_true, if_true] at old now ⊢
        split_ifs with same
        · rw [decide_eq_true_eq] at same
          rw [same] at now
          omega
        · omega
      current := by
        intro soft
        have now := good.current soft
        simp only [System.calls, countP_cons, late, decide_true, if_true] at now ⊢
        omega }

/-- A new entry is due `max (t, 1)` ticks from now, and nothing else changes. -/
lemma Good.timeout [DecidableEq F] [DecidableEq A] {pnew : Slot}
    (good : Good s todo (pnew :: free)) (func : F) (arg : A) (d : Int32) :
    ∃ t todo, exec s (.timeout func arg d) = some t ∧ Good t todo free := by
  obtain ⟨job, made⟩ : ∃ job : Job F A, job = ⟨func, arg, d, s.ticks⟩ := ⟨_, rfl⟩
  have old : ∀ p ∈ todo, p ≠ pnew := by
    rintro p member rfl
    cases good.lists.apart .calltodo .callfree p member mem_cons_self
  have kept : ∀ p ∈ todo, update s.job pnew job p = s.job p := fun p member =>
    update_of_ne (old p member) ..
  have due : job.due = s.ticks + max d.toInt 1 := by
    simp only [made, Job.due]
    omega
  have later : s.ticks < job.due := by omega
  have before : Deltas (times s.c_time) (fun p => ((update s.job pnew job p).due : ℤ)) s.ticks todo :=
    good.deltas.congr (fun _ _ => rfl) fun p member => by rw [kept p member, System.dues]
  obtain ⟨clock, a, b, done, rfl, lists, args, funcs, deltas⟩ :=
    timeout_spec good.lists before func arg d (by rw [update_self, due])
  have moved : (a ++ pnew :: b).Perm (pnew :: (a ++ b)) := perm_middle
  have each {P : Slot → Prop} here (rest : ∀ p ∈ a ++ b, P p) :
      ∀ p ∈ a ++ pnew :: b, P p := fun p member =>
    (mem_cons.mp (moved.mem_iff.mp member)).elim (fun same => same ▸ here) (rest p)
  refine ⟨{ s with toClock := clock, job := update s.job pnew job, jobs := job :: s.jobs },
    a ++ pnew :: b, ?_, { good with
    lists
    whole := fun q => ?_
    jobs := ?_
    waiting := each ?_ ?_
    behind := fun call ran => each ?_ ?_
    names := each ?_ ?_
    deltas
    near := each ?_ ?_
    current := fun soft => ?_ }⟩
  · simp [exec, good.head, queues, done, made]
  · have := good.whole q
    simp only [moved.mem_iff, mem_cons] at this ⊢
    tauto
  · have mapped := moved.map (update s.job pnew job)
    rw [map_cons, update_self, map_congr_left kept] at mapped
    exact (good.jobs.cons job).trans (mapped.symm.append_right _)
  · intro start earlier
    simp only [update_self]
    exact (good.started start (finished_sub s start earlier)).trans_lt later
  · intro p member
    simp only [kept p member]
    exact good.waiting p member
  · simp only [update_self]
    exact (good.past call ran).1.trans later.le
  · intro p member
    simp only [kept p member]
    exact good.behind call ran p member
  · simp [args, funcs, made]
  · intro p member
    simp only [args, funcs, kept p member, update_of_ne (old p member)]
    exact good.names p member
  · have := d.toInt_lt
    simp only [System.dues, update_self, due]
    omega
  · intro p member
    simp only [System.dues, kept p member]
    exact good.near p member
  · have now := good.current soft
    have same : (a ++ b).countP (fun p => (update s.job pnew job p).due ≤ s.ticks) =
        (a ++ b).countP fun p => (s.job p).due ≤ s.ticks :=
      countP_congr fun p member => by rw [kept p member]
    rw [moved.countP_eq, countP_cons_of_neg (by simpa using later), same]
    exact now

lemma coutinit_linked : Linked Clock.coutinitLinks (.head .callfree) (List.finRange NCALL) := by
  decide

lemma good_boot (c_arg : Slot → A) (c_func : Slot → F) (job : Slot → Job F A) :
    Good (boot c_arg c_func job) [] (List.finRange NCALL) where
  lists := {
    linked := fun q => match q with
      | .calltodo => linked_nil.mpr rfl
      | .callfree => coutinit_linked
    nodup := fun q => match q with
      | .calltodo => nodup_nil
      | .callfree => nodup_finRange NCALL
    apart := fun q q' p left right => by
      cases q <;> cases q' <;> simp_all [queues] }
  whole p := Or.inr (mem_finRange p)
  jobs := List.Perm.refl []
  ran := by simp [boot]
  cancelled := by simp [boot]
  waiting := by simp
  order := List.Pairwise.nil
  behind := by simp
  names := by simp
  deltas := trivial
  near := by simp
  past := by simp [boot]
  started := by simp [boot]
  entered := by simp [boot]
  bound := by simp [boot, System.calls]
  current := by simp [boot]

variable [DecidableEq F] [DecidableEq A]

lemma good_softclock (good : Good s todo free) (step : Step s .softclock t) : Good t todo free := by
  simp only [Step, exec] at step
  split_ifs at step with soft
  cases step
  have quiet : s.finished = s.starts := by simp [System.finished, soft]
  have unused : s.calls s.starts.length = 0 := by
    rw [System.calls, countP_eq_zero]
    intro call member
    have := (good.past call member).2
    simp only [decide_eq_true_eq]
    omega
  have few : todo.countP (fun p => (s.job p).due ≤ s.ticks) ≤ todo.length := countP_le_length
  refine { good with
    waiting := fun p member start old => good.waiting p member start (quiet ▸ old)
    past := fun call member => ⟨(good.past call member).1, ?_⟩
    started := ?_
    entered := fun _ => ⟨s.starts, rfl⟩
    current := fun _ => ?_ }
  · exact (good.past call member).2.trans (Nat.lt_succ_self _)
  · intro start member
    rcases mem_cons.mp member with rfl | member
    · exact le_rfl
    · exact good.started start member
  · have := todo_short good.lists
    change s.calls s.starts.length + todo.countP (fun p => (s.job p).due ≤ s.ticks) ≤ NCALL
    omega

/-- The times of all entries stay what they are when a tick has passed. -/
lemma good_hardclock (good : Good s todo free) (fresh : Fresh s .hardclock)
    (step : Step s .hardclock t) : Good t todo free := by
  simp only [Step, exec] at step
  split_ifs at step with soft
  cases step
  refine { good with
    deltas := hardclock_spec good.lists good.deltas (fresh todo (good.lists.linked .calltodo))
    near := fun p member => (good.near p member).trans (by push_cast; omega)
    past := fun call member => ⟨(good.past call member).1.trans (Nat.le_succ _),
      (good.past call member).2⟩
    started := fun start member => (good.started start member).trans (Nat.le_succ _)
    entered := fun entered => absurd entered soft
    current := fun entered => absurd entered soft }

lemma good_untimeout {func : F} {arg : A} (good : Good s todo free)
    (step : Step s (.untimeout func arg) t) : ∃ todo free, Good t todo free := by
  simp only [Step, exec] at step
  rcases registered_spec good.lists func arg with none | ⟨a, p, b, rfl, found, rfl, rfl⟩
  · have same : s.toClock.untimeout func arg = s.toClock := by simp [Clock.untimeout, none]
    rw [same, none] at step
    cases step
    exact ⟨todo, free, good⟩
  · obtain ⟨lists, deltas⟩ := untimeout_spec good.lists good.deltas good.near found
    rw [found] at step
    cases step
    have sub : ∀ q ∈ a ++ b, q ∈ a ++ p :: b := by
      intro q member
      simp only [mem_append] at member ⊢
      tauto
    have kept : (s.toClock.untimeout (s.c_func p) (s.c_arg p)).c_func = s.c_func ∧
        (s.toClock.untimeout (s.c_func p) (s.c_arg p)).c_arg = s.c_arg := by
      simp [Clock.untimeout, found]
    have names := good.names p (by simp)
    refine ⟨a ++ b, p :: free, { good with
      lists
      whole := fun q => ?_
      jobs := good.jobs.trans ?_
      cancelled := ?_
      waiting := fun q member => good.waiting q (sub q member)
      behind := fun call member q later => good.behind call member q (sub q later)
      names := fun q member => ?_
      deltas
      near := fun q member => good.near q (sub q member)
      current := fun soft => ?_ }⟩
    · have := good.whole q
      simp only [mem_append, mem_cons] at this ⊢
      tauto
    · simp only [Option.toList, map_append, map_cons, map_nil, append_assoc,
        cons_append, nil_append]
      refine List.Perm.append_left _ ?_
      rw [← append_assoc, ← append_assoc]
      exact perm_middle.symm
    · intro cancel member
      rcases mem_cons.mp member with rfl | member
      · exact names
      · exact good.cancelled cancel member
    · rw [kept.1, kept.2]
      exact good.names q (sub q member)
    · have now := good.current soft
      simp only [countP_append, countP_cons] at now ⊢
      change s.calls s.starts.tail.length + _ ≤ NCALL
      omega

lemma good_timeout {func : F} {arg : A} {d : Int32} (good : Good s todo free)
    (step : Step s (.timeout func arg d) t) : ∃ todo free, Good t todo free := by
  cases free with
  | nil => simp [Step, exec, good.head, queues] at step
  | cons pnew free =>
    obtain ⟨t', todo', done, good'⟩ := good.timeout func arg d
    cases done.symm.trans step
    exact ⟨todo', free, good'⟩

lemma good_step (s : System F A) (label : Label F A) (t : System F A)
    (good : ∃ todo free, Good s todo free) (fresh : Fresh s label) (step : Step s label t) :
    ∃ todo free, Good t todo free := by
  obtain ⟨todo, free, good⟩ := good
  cases label with
  | timeout func arg d => exact good_timeout good step
  | untimeout func arg => exact good_untimeout good step
  | hardclock => exact ⟨todo, free, good_hardclock good fresh step⟩
  | softclock => exact ⟨todo, free, good_softclock good step⟩
  | iterate => exact good_iterate good step

/-- In every run of the table, each registration is run by the first `softclock` that starts
once `max (t, 1)` ticks have passed since it was made, unless it was cancelled; functions run in the
order in which they are due, a `softclock` runs at most `NCALL` of them before it returns, and the
two lists hold every entry once. `timeout` panics only when every entry is pending. -/
theorem callouts_on_time (c_arg : Slot → A) (c_func : Slot → F) (job : Slot → Job F A)
    (labels : List (Label F A)) (s : System F A)
    (run : Run Step Fresh (boot c_arg c_func job) labels s) :
    ∃ todo free, OnTime s todo free ∧ (∀ n, s.calls n ≤ NCALL) ∧
      ∀ func arg t, exec s (.timeout func arg t) = none ↔ todo.length = NCALL := by
  obtain ⟨todo, free, good⟩ := run_invariant (fun s => ∃ todo free, Good s todo free)
    good_step run ⟨_, _, good_boot c_arg c_func job⟩
  refine ⟨todo, free, good.toOnTime, good.bound, fun func arg t => ?_⟩
  rw [← good.total]
  cases free with
  | nil => simp [exec, good.head, queues]
  | cons pnew free =>
    obtain ⟨t', -, done, -⟩ := good.timeout func arg t
    simp [done]

end Histories

/-- A callout registered for the next tick, and run after it. -/
theorem callouts_on_time_once : ∃ s : System ℕ ℕ,
    Run Step Fresh (boot (fun _ => 0) (fun _ => 0) fun _ => ⟨0, 0, 0, 0⟩)
      [.timeout 7 5 1, .hardclock, .softclock, .iterate, .iterate] s ∧
    s.ran.map (fun call => (call.func, call.arg, call.start)) = [(7, 5, 1)] ∧
    ∃ todo free, OnTime s todo free ∧ (∀ n, s.calls n ≤ NCALL) ∧
      ∀ func arg t, exec s (.timeout func arg t) = none ↔ todo.length = NCALL := by
  refine Exists.imp (fun s (h : Run _ _ _ _ s ∧ _) => ⟨h.1, h.2, callouts_on_time _ _ _ _ s h.1⟩)
    ⟨_, .cons trivial rfl (.cons ?_ rfl (.cons trivial rfl (.cons trivial rfl
      (.cons trivial rfl (.nil _))))), rfl⟩
  rintro todo - p -
  revert p
  decide

section Wrap

variable {F A : Type} [DecidableEq F] [DecidableEq A]

lemma countdown_only {c_next : Cell Queue Slot → Option Slot} {p : Slot}
    (last : c_next (.link p) = none) (c_time : Slot → Int32) :
    Clock.countdown c_next (NCALL + 1) (some p) c_time = update c_time p (c_time p - 1) := by
  simp only [Clock.countdown, last]
  split_ifs <;> rfl

/-- The tick that wraps the `c_time` of the only pending callout makes it wait again, so that the
next `softclock` passes it by. -/
lemma passed_by (p : Slot) (n : ℕ) (s : System F A) (head : s.c_next (.head .calltodo) = some p)
    (last : s.c_next (.link p) = none) (quiet : s.soft = false)
    (time : s.c_time p = Int32.maxValue + Int32.ofNat n) (late : (s.job p).due ≤ s.ticks + n) :
    ∃ t, Run Step (fun _ _ => True) s (List.replicate n .hardclock ++ [.softclock, .iterate]) t ∧
      ¬ ∃ todo free, OnTime t todo free := by
  induction n generalizing s with
  | zero =>
    have waits : s.c_time p > 0 := by
      rw [time]
      decide
    have none : s.toClock.due = none := by simp [Clock.due, head, waits]
    refine ⟨{ s with soft := false, starts := s.ticks :: s.starts },
      Run.cons trivial (t := { s with soft := true, starts := s.ticks :: s.starts }) ?_
        (Run.cons trivial ?_ (Run.nil _)), ?_⟩
    · simp [Step, exec, quiet]
    · simp [Step, exec, none]
    · rintro ⟨todo, free, onTime⟩
      have pending : p ∈ todo := mem_of_head? ((onTime.lists.head .calltodo).symm.trans head)
      have early := onTime.waiting p pending s.ticks (by simp [System.finished])
      simp only at early
      omega
  | succ n ih =>
    obtain ⟨t, run, bad⟩ := ih { s with toClock := s.toClock.hardclock, ticks := s.ticks + 1 }
      head last quiet (by
        simp only [Clock.hardclock, head, countdown_only last, update_self, time]
        rw [Int32.ofNat_add, ← Int32.add_assoc]
        exact Int32.add_sub_cancel ..) (by simp only; omega)
    exact ⟨t, Run.cons trivial (by simp [Step, exec, quiet]) run, bad⟩

end Wrap

/-- A callout that no `softclock` has run for `2 ^ 31` ticks after it was due is not run by the
next one, since its `c_time` has become positive again. -/
theorem overdue_callout_skipped : ∃ s : System ℕ ℕ,
    Run Step (fun _ _ => True) (boot (fun _ => 0) (fun _ => 0) fun _ => ⟨0, 0, 0, 0⟩)
      (.timeout 7 5 1 :: (List.replicate (2 ^ 31 + 2) .hardclock ++ [.softclock, .iterate])) s ∧
    ¬ ∃ todo free, OnTime s todo free := by
  obtain ⟨clock, done⟩ : ∃ clock, exec (boot (fun _ => 0) (fun _ => 0) fun _ => ⟨0, 0, 0, 0⟩)
    (.timeout 7 5 1) = some clock := ⟨_, rfl⟩
  obtain ⟨s, run, bad⟩ := passed_by 0 (2 ^ 31 + 2) clock (by cases done; rfl) (by cases done; rfl)
    (by cases done; rfl) (by cases done; decide) (by cases done; decide)
  exact ⟨s, Run.cons trivial done run, bad⟩

end Callouts
