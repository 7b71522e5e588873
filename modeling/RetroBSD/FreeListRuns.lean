import RetroBSD.FreeList
import RetroBSD.References
import RetroBSD.Runs

/-!
# The free block list under several processes

Processes run `balloc` and `free` in turns; a turn ends where the code may sleep:
on `fs_flock`, in `bread`, `getblk` and `bwrite`, and on `lbolt`. The blocks that
callers hold are kept beside, so that it can be said that no block has two
owners. A caller frees a block it holds and writes only to such blocks.

Every run refines a stack with atomic operations, as long as two things hold
when a `balloc` takes its block. `fs_tfree` is decremented only after the last
sleep, so an exhausted list must not be met while another `balloc` is on its
way; and a chain block must not hold an empty table.
-/

namespace FreeList

open Words References Runs Multiset
open Function (update update_of_ne update_self)

/-- Where a process is in one of the two functions. -/
inductive Pc where
  | idle
  | returned (result : Option Nat)
  | balloc (clr : Bool)
  | reload (clr : Bool) (bno : Nat)
  | superb (clr : Bool) (bno : Nat)
  | unlock (clr : Bool) (bno : Nat)
  | take (clr : Bool) (bno : Nat)
  | full
  | free (bno : Nat)
  | spill (bno : Nat)
  | push (bno : Nat)
deriving DecidableEq, Repr

structure Sys (P : Type) where
  fs : Fs
  disk : Disk
  /-- The superblock as last written. -/
  image : Fs
  pc : P → Pc
  /-- The blocks that callers have and may write to or free. -/
  held : Multiset Nat

inductive Act (P : Type) where
  | callBalloc (p : P) (clr : Bool)
  | callFree (p : P) (bno : Nat)
  | run (p : P)
  | write (bno : Nat) (contents : Block)

variable {P : Type} [DecidableEq P]

def Sys.goto (s : Sys P) (fs : Fs) (p : P) (pc : Pc) : Sys P :=
  { s with fs := fs, pc := update s.pc p pc }

def resume (s : Sys P) (p : P) (clr : Bool) : Alloc → Sys P
  | .nospace fs => s.goto fs p .full
  | .reload fs bno => s.goto fs p (.reload clr bno)
  | .take fs bno => s.goto fs p (.take clr bno)

def runProcess (s : Sys P) (p : P) : Option (Sys P) :=
  match s.pc p with
  | .idle => none
  | .returned _ => none
  | .balloc clr => if s.fs.fs_flock ≠ 0 then some s else some (resume s p clr (ballocEnter s.fs))
  | .reload clr bno => some (s.goto (ballocReload s.fs s.disk bno) p (.superb clr bno))
  | .superb clr bno =>
    some { s.goto (ballocSuper s.fs) p (.unlock clr bno) with image := ballocSuper s.fs }
  | .unlock clr bno => some (resume s p clr (ballocUnlock s.fs bno))
  | .take clr bno =>
    let r := ballocTake s.fs s.disk clr bno
    some { s.goto r.1 p (.returned (some bno)) with disk := r.2, held := bno ::ₘ s.held }
  | .full => some (s.goto s.fs p (.returned none))
  | .free bno =>
    if s.fs.fs_flock ≠ 0 then some s
    else match freeEnter s.fs bno with
      | .done fs => some (s.goto fs p .idle)
      | .spill fs => some (s.goto fs p (.spill bno))
  | .spill bno =>
    let r := freeSpill s.fs s.disk bno
    some { s.goto r.1 p (.push bno) with disk := r.2 }
  | .push bno => some (s.goto (freeUnlock s.fs bno) p .idle)

def Pc.ready : Pc → Bool
  | .idle => true
  | .returned _ => true
  | _ => false

def step (s : Sys P) : Act P → Option (Sys P)
  | .callBalloc p clr =>
    if (s.pc p).ready then some (s.goto s.fs p (.balloc clr)) else none
  | .callFree p bno =>
    if (s.pc p).ready then
      if badblock s.fs bno then some (s.goto s.fs p .idle)
      else some { s.goto s.fs p (.free bno) with held := s.held.erase bno }
    else none
  | .run p => runProcess s p
  | .write bno contents => some { s with disk := update s.disk bno contents }

def Step (s : Sys P) (a : Act P) (t : Sys P) : Prop := step s a = some t

/-- Callers free and write to what they have. -/
def Allowed (s : Sys P) : Act P → Prop
  | .callFree _ bno => bno ∈ s.held
  | .write bno _ => bno ∈ s.held
  | _ => True

/-- The process has taken a block off the list and not yet counted it. -/
def popped : Pc → Nat
  | .reload _ _ => 1
  | .superb _ _ => 1
  | .unlock _ _ => 1
  | .take _ _ => 1
  | _ => 0

/-- What has to hold when a `balloc` looks at the list. -/
def Safe (s : Sys P) : Act P → Prop
  | .run p => (∃ clr, s.pc p = .balloc clr) → s.fs.fs_flock = 0 →
      (Empty s.fs → ∀ q, popped (s.pc q) = 0) ∧ Refills s.fs s.disk
  | _ => True

/-! ## The stack -/

/-- What a process is about, as seen from outside. -/
inductive Status where
  | ready (result : Option Nat)
  | allocating
  | leaving (result : Option Nat)
  | freeing (bno : Nat)
deriving DecidableEq, Repr

structure Stack (P : Type) where
  list : List Nat
  status : P → Status

/-- Calls and returns, with one atomic pop or push for each call. -/
inductive StackStep : Stack P → Stack P → Prop where
  | callAlloc {k : Stack P} (p : P) {r : Option Nat} (h : k.status p = .ready r) :
      StackStep k { k with status := update k.status p .allocating }
  | pop {k : Stack P} (p : P) {b : Nat} {later : List Nat} (h : k.status p = .allocating)
      (top : k.list = b :: later) :
      StackStep k ⟨later, update k.status p (.leaving (some b))⟩
  | empty {k : Stack P} (p : P) (h : k.status p = .allocating) (nothing : k.list = []) :
      StackStep k ⟨[], update k.status p (.leaving none)⟩
  | ret {k : Stack P} (p : P) {r : Option Nat} (h : k.status p = .leaving r) :
      StackStep k { k with status := update k.status p (.ready r) }
  | callFree {k : Stack P} (p : P) {r : Option Nat} (b : Nat) (h : k.status p = .ready r)
      (fresh : b ∉ k.list) :
      StackStep k { k with status := update k.status p (.freeing b) }
  | push {k : Stack P} (p : P) {b : Nat} (h : k.status p = .freeing b) (fresh : b ∉ k.list) :
      StackStep k ⟨b :: k.list, update k.status p (.ready none)⟩

def status : Pc → Status
  | .idle => .ready none
  | .returned r => .ready r
  | .balloc _ => .allocating
  | .reload _ b => .leaving (some b)
  | .superb _ b => .leaving (some b)
  | .unlock _ b => .leaving (some b)
  | .take _ b => .leaving (some b)
  | .full => .leaving none
  | .free b => .freeing b
  | .spill b => .freeing b
  | .push b => .freeing b

def stackOf (s : Sys P) (list : List Nat) : Stack P := ⟨list, fun p => status (s.pc p)⟩

/-! ## The invariant -/

/-- The block a process has on its way from or to the list. -/
def carried : Pc → Multiset Nat
  | .reload _ b => {b}
  | .superb _ b => {b}
  | .unlock _ b => {b}
  | .take _ b => {b}
  | .free b => {b}
  | .spill b => {b}
  | .push b => {b}
  | _ => 0

def locking : Pc → Bool
  | .reload _ _ => true
  | .superb _ _ => true
  | .unlock _ _ => true
  | .spill _ => true
  | .push _ => true
  | _ => false

/-- The rest of the list is in the table stored in block `b`. -/
structure Tabled (fs : Fs) (disk : Disk) (b : Nat) (list : List Nat) : Prop where
  cleared : fs.fs_nfree = 0
  counted : Counted (getFblk (disk b))
  chain : Chain disk (entries (getFblk (disk b))) list

/-- Where the list is while a process at `pc` has the lock. -/
def Phase (fs : Fs) (disk : Disk) (list : List Nat) : Pc → Prop
  | .reload _ b => Tabled fs disk b list ∧ 0 < (getFblk (disk b)).df_nfree
  | .superb _ _ => WellFormed fs disk list ∧ 0 < fs.fs_nfree
  | .unlock _ _ => WellFormed fs disk list ∧ 0 < fs.fs_nfree
  | .spill _ => WellFormed fs disk list
  | .push b => Tabled fs disk b list
  | _ => False

def blocks (fs : Fs) : Multiset Nat := (Finset.Ico fs.fs_isize fs.fs_fsize).val

structure Sound [Fintype P] (s : Sys P) (list : List Nat) : Prop where
  superb : 0 < s.fs.fs_isize
  word : s.fs.fs_fsize < 2 ^ 32
  lock : (s.fs.fs_flock = 0 ∧ (∀ p, locking (s.pc p) = false) ∧ WellFormed s.fs s.disk list) ∨
    (s.fs.fs_flock ≠ 0 ∧ ∃ p, (∀ q, q ≠ p → locking (s.pc q) = false) ∧
      Phase s.fs s.disk list (s.pc p))
  /-- Every block has one owner: the list, a process or the callers. -/
  owned : (list : Multiset Nat) + ∑ p, carried (s.pc p) + s.held = blocks s.fs
  tfree : s.fs.fs_tfree = list.length + ∑ p, popped (s.pc p)

section Owners

omit [DecidableEq P]

variable [Fintype P] {s : Sys P} {list : List Nat}

variable {b : Nat} {p : P}

lemma blocks_good (fs : Fs) (hb : b ∈ blocks fs) : badblock fs b = false := by
  simpa [blocks, badblock_eq_false] using hb

lemma owners_nodup (sound : Sound s list) :
    ((list : Multiset Nat).Nodup ∧ (∑ p, carried (s.pc p)).Nodup ∧
      Disjoint (list : Multiset Nat) (∑ p, carried (s.pc p))) ∧ s.held.Nodup ∧
      Disjoint ((list : Multiset Nat) + ∑ p, carried (s.pc p)) s.held := by
  rw [← nodup_add, ← nodup_add, sound.owned]
  exact (Finset.Ico s.fs.fs_isize s.fs.fs_fsize).nodup

lemma listed_good (sound : Sound s list) : ∀ b ∈ list, badblock s.fs b = false := by
  intro b hb
  exact blocks_good s.fs (sound.owned ▸ by simp [hb])

lemma listed_nodup (sound : Sound s list) : list.Nodup :=
  coe_nodup.mp (owners_nodup sound).1.1

lemma carried_mem (p : P) (hb : b ∈ carried (s.pc p)) : b ∈ ∑ q, carried (s.pc q) :=
  mem_sum.mpr ⟨p, Finset.mem_univ p, hb⟩

lemma carried_good (sound : Sound s list) (hb : b ∈ carried (s.pc p)) : badblock s.fs b = false :=
  blocks_good s.fs (sound.owned ▸ mem_add.mpr
    (.inl (mem_add.mpr (.inr (carried_mem p hb)))))

lemma carried_fresh (sound : Sound s list) (hb : b ∈ carried (s.pc p)) : b ∉ list := by
  intro listed
  exact disjoint_left.mp (owners_nodup sound).1.2.2 (mem_coe.mpr listed)
    (carried_mem p hb)

lemma held_fresh (sound : Sound s list) (hb : b ∈ s.held) : b ∉ list := by
  intro listed
  exact disjoint_left.mp (owners_nodup sound).2.2
    (mem_add.mpr (.inl (mem_coe.mpr listed))) hb

lemma held_uncarried (sound : Sound s list) (hb : b ∈ s.held) (p : P) : b ∉ carried (s.pc p) := by
  intro h
  exact disjoint_left.mp (owners_nodup sound).2.2
    (mem_add.mpr (.inr (carried_mem p h))) hb

lemma carried_single (sound : Sound s list) {q : P} (different : q ≠ p)
    (hb : b ∈ carried (s.pc p)) : b ∉ carried (s.pc q) := by
  classical
  intro h
  have all := (owners_nodup sound).1.2.1
  rw [← Finset.add_sum_erase _ _ (Finset.mem_univ p), nodup_add] at all
  refine disjoint_left.mp all.2.2 hb ?_
  have inside : q ∈ Finset.univ.erase p := Finset.mem_erase.mpr ⟨different, Finset.mem_univ q⟩
  exact mem_sum.mpr ⟨q, inside, h⟩

end Owners

section Moves

variable [Fintype P] {s : Sys P} {list list' : List Nat} {p : P} {c : Pc} {fs' : Fs} {disk' : Disk}
  {image' : Fs} {held' : Multiset Nat}

/-- What one process hands over and counts is right for all of them. -/
lemma owned_goto (sound : Sound s list)
    (owners : (list' : Multiset Nat) + carried c + held' = list + carried (s.pc p) + s.held) :
    (list' : Multiset Nat) + ∑ q, carried (update s.pc p c q) + held' = blocks s.fs := by
  have moved := sum_update carried s.pc p c
  refine add_right_cancel (b := carried (s.pc p)) ?_
  calc (list' : Multiset Nat) + ∑ q, carried (update s.pc p c q) + held' + carried (s.pc p)
      = list' + (∑ q, carried _ + carried _) + held' := by abel
    _ = (list' + carried c + held') + ∑ q, carried (s.pc q) := by rw [moved]; abel
    _ = (list + ∑ q, carried (s.pc q) + s.held) + carried (s.pc p) := by rw [owners]; abel
    _ = blocks s.fs + carried (s.pc p) := by rw [sound.owned]

lemma tfree_goto (sound : Sound s list) (count : fs'.fs_tfree + list.length + popped (s.pc p) =
      list'.length + popped c + s.fs.fs_tfree) :
    fs'.fs_tfree = list'.length + ∑ q, popped (update s.pc p c q) := by
  have moved := sum_update popped s.pc p c
  have := sound.tfree
  omega

section

variable (sound : Sound s list) (others : ∀ q, q ≠ p → locking (s.pc q) = false)
  (isize : fs'.fs_isize = s.fs.fs_isize) (fsize : fs'.fs_fsize = s.fs.fs_fsize)
include sound others isize fsize

lemma sound_unlocked (free : locking c = false) (flock : fs'.fs_flock = 0) (wf : WellFormed fs' disk' list')
    (owners : (list' : Multiset Nat) + carried c + held' = list + carried (s.pc p) + s.held)
    (count : fs'.fs_tfree + list.length + popped (s.pc p) =
      list'.length + popped c + s.fs.fs_tfree) :
    Sound ⟨fs', disk', image', update s.pc p c, held'⟩ list' := by
  refine ⟨wf.superb, wf.word, .inl ⟨flock, fun q => ?_, wf⟩, ?_, tfree_goto sound count⟩
  · by_cases h : q = p
    · subst h
      simpa only [update_self] using free
    · simpa only [update_of_ne h] using others q h
  · simpa only [blocks, isize, fsize] using owned_goto sound owners

lemma sound_locked (flock : fs'.fs_flock ≠ 0) (phase : Phase fs' disk' list' c)
    (owners : (list' : Multiset Nat) + carried c + held' = list + carried (s.pc p) + s.held)
    (count : fs'.fs_tfree + list.length + popped (s.pc p) =
      list'.length + popped c + s.fs.fs_tfree) :
    Sound ⟨fs', disk', image', update s.pc p c, held'⟩ list' := by
  refine ⟨isize ▸ sound.superb, fsize ▸ sound.word, .inr ⟨flock, p, fun q h => ?_, ?_⟩, ?_,
    tfree_goto sound count⟩
  · simpa only [update_of_ne h] using others q h
  · simpa only [update_self] using phase
  · simpa only [blocks, isize, fsize] using owned_goto sound owners

end

variable {disk : Disk} {fs : Fs}

lemma tabled_frame {b : Nat} (tabled : Tabled fs disk b list)
    (nfree : fs'.fs_nfree = fs.fs_nfree) (listed : ∀ a ∈ list, disk' a = disk a)
    (here : disk' b = disk b) : Tabled fs' disk' b list :=
  ⟨nfree.trans tabled.cleared, here.symm ▸ tabled.counted,
    here.symm ▸ chain_congr tabled.chain listed⟩

/-- The list and the tables do not see a change elsewhere. -/
structure Beside (fs fs' : Fs) (disk disk' : Disk) (list : List Nat) : Prop where
  isize : fs'.fs_isize = fs.fs_isize
  fsize : fs'.fs_fsize = fs.fs_fsize
  nfree : fs'.fs_nfree = fs.fs_nfree
  free : fs'.fs_free = fs.fs_free
  flock : fs'.fs_flock = fs.fs_flock
  listed : ∀ a ∈ list, disk' a = disk a

lemma wellFormed_beside (beside : Beside fs fs' disk disk' list)
    (wf : WellFormed fs disk list) : WellFormed fs' disk' list := by
  have same : cache fs' = cache fs := by simp [cache, beside.nfree, beside.free]
  have bad : ∀ b, badblock fs' b = badblock fs b := fun b => by
    simp [badblock, beside.isize, beside.fsize]
  exact ⟨same ▸ wf.counted, same ▸ chain_congr wf.chain beside.listed, wf.nodup,
    fun b hb => (bad b).trans (wf.good b hb), beside.isize ▸ wf.superb, beside.fsize ▸ wf.word⟩

lemma phase_beside (beside : Beside fs fs' disk disk' list)
    (phase : Phase fs disk list c) (mine : ∀ b ∈ carried c, disk' b = disk b) :
    Phase fs' disk' list c := by
  cases c with
  | reload clr b =>
    have here : disk' b = disk b := mine b (by simp [carried])
    exact ⟨tabled_frame phase.1 beside.nfree beside.listed here, here.symm ▸ phase.2⟩
  | superb clr b | unlock clr b =>
    exact ⟨wellFormed_beside beside phase.1, beside.nfree.symm ▸ phase.2⟩
  | spill b => exact wellFormed_beside beside phase
  | push b => exact tabled_frame phase beside.nfree beside.listed (mine b (by simp [carried]))
  | idle | returned r | balloc clr | take clr b | full | free b => exact phase

lemma phase_locking (phase : Phase fs disk list c) : locking c = true := by
  cases c <;> first | rfl | exact absurd phase id

/-- A process without the lock moves on and leaves the list alone. -/
lemma sound_beside (sound : Sound s list) (before : locking (s.pc p) = false)
    (after : locking c = false) (beside : Beside s.fs fs' s.disk disk' list)
    (others : ∀ q, q ≠ p → ∀ b ∈ carried (s.pc q), disk' b = s.disk b)
    (owners : carried c + held' = carried (s.pc p) + s.held)
    (count : fs'.fs_tfree + popped (s.pc p) = popped c + s.fs.fs_tfree) :
    Sound ⟨fs', disk', image', update s.pc p c, held'⟩ list := by
  have owners' : list + carried c + held' = list + carried (s.pc p) + s.held := by
    rw [add_assoc, owners, add_assoc]
  have count' : fs'.fs_tfree + list.length + popped (s.pc p) =
      list.length + popped c + s.fs.fs_tfree := by omega
  rcases sound.lock with ⟨unlocked, nobody, wf⟩ | ⟨locked, q, alone, phase⟩
  · exact sound_unlocked sound (fun q _ => nobody q) beside.isize beside.fsize after
      (beside.flock.trans unlocked) (wellFormed_beside beside wf) owners' count'
  · have different : q ≠ p := by
      rintro rfl
      simp [phase_locking phase] at before
    refine ⟨beside.isize ▸ sound.superb, beside.fsize ▸ sound.word,
      .inr ⟨beside.flock ▸ locked, q, fun r hr => ?_, ?_⟩, ?_, tfree_goto sound count'⟩
    · by_cases h : r = p
      · subst h
        simpa only [update_self] using after
      · simpa only [update_of_ne h] using alone r hr
    · simpa only [update_of_ne different] using phase_beside beside phase (others q different)
    · simpa only [blocks, beside.isize, beside.fsize] using owned_goto sound owners'

end Moves

section Steps

variable [Fintype P] {s t : Sys P} {list : List Nat} {p : P}

/-- The new state is sound for a list that the stack has reached, in at most one step. -/
def Simulated (s t : Sys P) (list : List Nat) : Prop :=
  ∃ list', Sound t list' ∧ Relation.ReflGen StackStep (stackOf s list) (stackOf t list')

omit [Fintype P] in
lemma stackOf_goto (s : Sys P) (list list' : List Nat) (p : P) (c : Pc) (fs' : Fs) (disk' : Disk)
    (image' : Fs) (held' : Multiset Nat) :
    stackOf ⟨fs', disk', image', update s.pc p c, held'⟩ list' =
      ⟨list', update (stackOf s list).status p (status c)⟩ := by
  simp only [stackOf, Stack.mk.injEq, true_and]
  funext q
  by_cases h : q = p
  · subst h
    simp
  · simp [update_of_ne h]

variable {clr : Bool} {b : Nat} {c : Pc}

omit [Fintype P] in
/-- A step inside a call is invisible. -/
lemma stackOf_stutter (s : Sys P) (list : List Nat) {p : P} (fs' : Fs) (disk' : Disk)
    (image' : Fs) (held' : Multiset Nat) (same : status c = status (s.pc p)) :
    stackOf ⟨fs', disk', image', update s.pc p c, held'⟩ list = stackOf s list := by
  simp only [stackOf_goto s list, same]
  simp [stackOf]

variable {fs' image' : Fs} {disk' : Disk} {held' : Multiset Nat} {list' : List Nat}

lemma simulated_stutter (sound : Sound ⟨fs', disk', image', update s.pc p c, held'⟩ list)
    (same : status c = status (s.pc p)) :
    Simulated s ⟨fs', disk', image', update s.pc p c, held'⟩ list := by
  refine ⟨list, sound, ?_⟩
  rw [stackOf_stutter s list fs' disk' image' held' same]

lemma simulated_single (sound : Sound ⟨fs', disk', image', update s.pc p c, held'⟩ list')
    (moves : StackStep (stackOf s list) ⟨list', update (stackOf s list).status p (status c)⟩) :
    Simulated s ⟨fs', disk', image', update s.pc p c, held'⟩ list := by
  refine ⟨list', sound, .single ?_⟩
  rwa [stackOf_goto]

omit [DecidableEq P] in
/-- Counted blocks are blocks of the file system. -/
lemma counted_le {fs : Fs} {pc : P → Pc} {held : Multiset Nat}
    (owned : (list : Multiset Nat) + ∑ q, carried (pc q) + held = blocks fs) :
    list.length + ∑ q, popped (pc q) ≤ fs.fs_fsize := by
  have size := congrArg card owned
  simp only [card_add, coe_card, card_sum, blocks, Finset.card_val,
    Nat.card_Ico] at size
  have each : ∑ q, popped (pc q) ≤ ∑ q, card (carried (pc q)) := by
    refine Finset.sum_le_sum (fun q _ => ?_)
    cases pc q <;> simp [popped, carried]
  omega

omit [DecidableEq P] in
lemma popped_le_tfree (sound : Sound s list) : popped (s.pc p) ≤ s.fs.fs_tfree := by
  have := Finset.single_le_sum (fun q _ => Nat.zero_le (popped (s.pc q))) (Finset.mem_univ p)
  have := sound.tfree
  omega

omit [DecidableEq P] in
lemma tfree_lt (sound : Sound s list) : s.fs.fs_tfree < 2 ^ 32 := by
  have := counted_le sound.owned
  have := sound.tfree
  have := sound.word
  omega

lemma coe_cons (b : Nat) (list : List Nat) :
    ((b :: list : List Nat) : Multiset Nat) = {b} + list := by
  simp

lemma carried_idle : carried .idle = 0 := rfl

/-- A block that is being freed is not counted yet, so there is room for it. -/
lemma tfree_room (sound : Sound s list) (mine : carried (s.pc p) = {b})
    (uncounted : popped (s.pc p) = 0) : (s.fs.fs_tfree + 1) % 2 ^ 32 = s.fs.fs_tfree + 1 := by
  have owners : ((b :: list : List Nat) : Multiset Nat) + carried .idle + s.held =
      list + carried (s.pc p) + s.held := by
    simp only [mine, coe_cons, carried_idle]
    abel
  have bound := counted_le (owned_goto sound owners)
  have moved := sum_update popped s.pc p .idle
  simp only [List.length_cons] at bound
  have := sound.tfree
  have := sound.word
  omega

omit [DecidableEq P] in
/-- A process that has set the lock is the only one. -/
lemma holder (sound : Sound s list) (here : s.pc p = c) (mine : locking c = true) :
    s.fs.fs_flock ≠ 0 ∧ (∀ q, q ≠ p → locking (s.pc q) = false) ∧ Phase s.fs s.disk list c := by
  subst here
  rcases sound.lock with ⟨_, nobody, _⟩ | ⟨locked, q, alone, phase⟩
  · simp [nobody] at mine
  · have same : p = q := by
      by_contra different
      simp [alone p different] at mine
    subst same
    exact ⟨locked, alone, phase⟩

omit [DecidableEq P] in
lemma unlocked (sound : Sound s list) (clear : s.fs.fs_flock = 0) :
    (∀ q, locking (s.pc q) = false) ∧ WellFormed s.fs s.disk list := by
  rcases sound.lock with ⟨_, nobody, wf⟩ | ⟨locked, _⟩
  · exact ⟨nobody, wf⟩
  · exact absurd clear locked

/-- A `balloc` finds the lock clear. -/
lemma enter_simulated (sound : Sound s list) (here : s.pc p = .balloc clr)
    (clear : s.fs.fs_flock = 0) (quiet : Empty s.fs → ∀ q, popped (s.pc q) = 0)
    (refills : Refills s.fs s.disk) : Simulated s (resume s p clr (ballocEnter s.fs)) list := by
  obtain ⟨nobody, wf⟩ := unlocked sound clear
  have waiting : (stackOf s list).status p = .allocating := by simp [stackOf, here, status]
  have carries : carried (s.pc p) = 0 := by rw [here]; rfl
  have counts : popped (s.pc p) = 0 := by rw [here]; rfl
  rcases ballocEnter_spec wf with ⟨nothing, isEmpty, enter⟩ | ⟨b, later, shape, _, next⟩
  · subst nothing
    have zero : s.fs.fs_tfree = 0 := by
      have := sound.tfree
      simpa [Finset.sum_eq_zero (fun q _ => quiet isEmpty q)] using this
    simp only [enter]
    exact simulated_single (sound_unlocked sound (fun q _ => nobody q) rfl rfl rfl clear
      (wellFormed_nospace wf) (by rw [carries]; rfl) (by rw [counts, zero]; rfl))
      (.empty p waiting rfl)
  · subst shape
    have owners : later + {b} + s.held =
        ((b :: later : List Nat) : Multiset Nat) + carried (s.pc p) + s.held := by
      simp only [carries, coe_cons]
      abel
    have fields : ∀ fs' : Fs, fs'.fs_tfree = s.fs.fs_tfree → fs'.fs_tfree + (b :: later).length +
        popped (s.pc p) = later.length + 1 + s.fs.fs_tfree := by
      intro fs' same
      simp only [List.length_cons]
      omega
    rcases next with ⟨n, _, enter, wf'⟩ | ⟨one, slot, enter, counted, chain⟩
    · simp only [enter, resume]
      exact simulated_single (sound_unlocked sound (fun q _ => nobody q) rfl rfl rfl clear wf' owners
        (fields _ rfl)) (.pop p waiting rfl)
    · have positive : 0 < (getFblk (s.disk b)).df_nfree := by
        have := refills one (slot ▸ good_ne_zero wf (wf.good b (by simp)))
        simpa only [slot] using this
      simp only [enter, resume]
      exact simulated_single (sound_locked sound (fun q _ => nobody q) rfl rfl (by simp)
        ⟨⟨rfl, counted, chain⟩, positive⟩ owners (fields _ rfl)) (.pop p waiting rfl)

/-- The process with the lock goes on, in the same call and with the same block. -/
lemma locked_simulated {c' : Pc} (sound : Sound s list) (here : s.pc p = c) (mine : locking c = true)
    (isize : fs'.fs_isize = s.fs.fs_isize) (fsize : fs'.fs_fsize = s.fs.fs_fsize)
    (flock : fs'.fs_flock = s.fs.fs_flock) (tfree : fs'.fs_tfree = s.fs.fs_tfree)
    (alike : carried c' = carried c ∧ popped c' = popped c ∧ status c' = status c)
    (phase : Phase fs' disk' list c') :
    Simulated s ⟨fs', disk', image', update s.pc p c', s.held⟩ list := by
  obtain ⟨locked, alone, -⟩ := holder sound here mine
  obtain ⟨carries, counts, same⟩ := alike
  refine simulated_stutter (sound_locked sound alone isize fsize (flock.trans_ne locked) phase ?_ ?_) ?_
  · rw [here, carries]
  · rw [here]
    omega
  · rw [here, same]

section

variable (sound : Sound s list)
include sound

/-- The four steps of a `balloc` that has its block. -/
lemma reload_simulated (here : s.pc p = .reload clr b) :
    Simulated s (s.goto (ballocReload s.fs s.disk b) p (.superb clr b)) list := by
  obtain ⟨-, -, ⟨_, counted, chain⟩, positive⟩ := holder sound here rfl
  have wf : WellFormed (ballocReload s.fs s.disk b) s.disk list :=
    ⟨counted, chain, listed_nodup sound, listed_good sound, sound.superb, sound.word⟩
  exact locked_simulated sound here rfl rfl rfl rfl rfl ⟨rfl, rfl, rfl⟩ ⟨wf, positive⟩

lemma superb_simulated (here : s.pc p = .superb clr b) :
    Simulated s { s.goto (ballocSuper s.fs) p (.unlock clr b) with image := ballocSuper s.fs } list := by
  obtain ⟨-, -, wf, positive⟩ := holder sound here rfl
  exact locked_simulated sound here rfl rfl rfl rfl rfl ⟨rfl, rfl, rfl⟩
    ⟨wellFormed_fields wf s.fs.fs_flock 0 s.fs.fs_tfree, positive⟩

lemma unlock_simulated (here : s.pc p = .unlock clr b) :
    Simulated s (resume s p clr (ballocUnlock s.fs b)) list := by
  obtain ⟨-, alone, wf, positive⟩ := holder sound here rfl
  simp only [ballocUnlock, not_le.mpr positive]
  exact simulated_stutter (sound_unlocked sound alone rfl rfl rfl rfl
    (wellFormed_fields wf 0 s.fs.fs_fmod s.fs.fs_tfree) (by rw [here]; rfl)
    (by rw [here]; simp only [popped]; omega)) (by rw [here]; rfl)

lemma take_simulated (here : s.pc p = .take clr b) :
    Simulated s { s.goto (ballocTake s.fs s.disk clr b).1 p (.returned (some b)) with
      disk := (ballocTake s.fs s.disk clr b).2, held := b ::ₘ s.held } list := by
  have mine : b ∈ carried (s.pc p) := by rw [here]; exact mem_singleton_self b
  have counts : popped (s.pc p) = 1 := by rw [here]; rfl
  have away : ∀ a, a ≠ b → (ballocTake s.fs s.disk clr b).2 a = s.disk a := by
    intro a different
    cases clr with
    | false => rfl
    | true => exact update_of_ne different _ _
  refine simulated_single (sound_beside sound (by rw [here]; rfl) rfl
    ⟨rfl, rfl, rfl, rfl, rfl, fun a ha => away a ?_⟩ (fun q different a ha => away a ?_) ?_ ?_)
    (.ret p (by simp [stackOf, here, status]))
  · rintro rfl
    exact carried_fresh sound mine ha
  · rintro rfl
    exact carried_single sound different mine ha
  · simp [here, carried]
  · have low := popped_le_tfree (p := p) sound
    have high := tfree_lt sound
    simp only [ballocTake, Sys.goto]
    have after : popped (.returned (some b)) = 0 := rfl
    omega

lemma full_simulated (here : s.pc p = .full) :
    Simulated s (s.goto s.fs p (.returned none)) list := by
  exact simulated_single (sound_beside sound (by rw [here]; rfl) rfl
    ⟨rfl, rfl, rfl, rfl, rfl, fun _ _ => rfl⟩ (fun _ _ _ _ => rfl) (by rw [here]; rfl)
    (by rw [here]; simp [popped])) (.ret p (by simp [stackOf, here, status]))

/-- A block that is freed goes on top of the list, which is not locked then. -/
lemma pushed_simulated (here : s.pc p = c) (mine : carried c = {b})
    (uncounted : popped c = 0) (freeing : status c = .freeing b)
    (others : ∀ q, q ≠ p → locking (s.pc q) = false) (isize : fs'.fs_isize = s.fs.fs_isize)
    (fsize : fs'.fs_fsize = s.fs.fs_fsize) (flock : fs'.fs_flock = 0)
    (wf : WellFormed fs' s.disk (b :: list)) (tfree : fs'.fs_tfree = (s.fs.fs_tfree + 1) % 2 ^ 32) :
    Simulated s (s.goto fs' p .idle) list := by
  subst here
  have fresh : b ∉ list := carried_fresh (p := p) sound (by simp [mine])
  refine simulated_single (sound_unlocked sound others isize fsize rfl flock wf ?_ ?_)
    (.push p freeing fresh)
  · simp only [mine, coe_cons, carried_idle]
    abel
  · have idle : popped .idle = 0 := rfl
    simp only [tfree, tfree_room sound mine uncounted, List.length_cons]
    omega

/-- A `free` finds the lock clear. -/
lemma free_simulated (here : s.pc p = .free b) (clear : s.fs.fs_flock = 0)
    (ran : (match freeEnter s.fs b with
      | .done fs => some (s.goto fs p .idle)
      | .spill fs => some (s.goto fs p (.spill b))) = some t) : Simulated s t list := by
  obtain ⟨nobody, wf⟩ := unlocked sound clear
  have inside : b ∈ carried (s.pc p) := by simp [here, carried]
  rcases freeEnter_spec wf (carried_good sound inside) (carried_fresh sound inside) with
    ⟨fs', enter, wf', isize, fsize, flock, tfree⟩ | enter
  · rw [enter] at ran
    cases ran
    exact pushed_simulated sound here rfl rfl rfl (fun q _ => nobody q) isize fsize
      (flock.trans clear) wf' tfree
  · rw [enter] at ran
    cases ran
    exact simulated_stutter (sound_locked sound (fun q _ => nobody q) rfl rfl (by simp)
      (wellFormed_fields wf _ s.fs.fs_fmod s.fs.fs_tfree)
      (by rw [here]; rfl) (by rw [here]; simp only [popped]; omega)) (by rw [here]; rfl)

lemma spill_simulated (here : s.pc p = .spill b) :
    Simulated s { s.goto (freeSpill s.fs s.disk b).1 p (.push b) with
      disk := (freeSpill s.fs s.disk b).2 } list := by
  obtain ⟨-, -, phase⟩ := holder sound here rfl
  have fresh : b ∉ list := carried_fresh (p := p) sound (by simp [here, carried])
  obtain ⟨counted, chain⟩ := freeSpill_spec phase fresh
  exact locked_simulated sound here rfl rfl rfl rfl rfl ⟨rfl, rfl, rfl⟩ (⟨rfl, counted, chain⟩)

lemma push_simulated (here : s.pc p = .push b) :
    Simulated s (s.goto (freeUnlock s.fs b) p .idle) list := by
  obtain ⟨-, alone, phase⟩ := holder sound here rfl
  have inside : b ∈ carried (s.pc p) := by simp [here, carried]
  have wf := wellFormed_link s.fs (carried_good sound inside) (carried_fresh sound inside)
    phase.cleared phase.counted phase.chain (listed_nodup sound) (listed_good sound) sound.superb
    sound.word
  exact pushed_simulated sound here rfl rfl rfl alone rfl rfl rfl wf rfl

lemma run_simulated (safe : Safe s (.run p)) (ran : runProcess s p = some t) :
    Simulated s t list := by
  have stays : Simulated s s list := ⟨list, sound, .refl⟩
  unfold runProcess at ran
  split at ran
  · cases ran
  · cases ran
  · rename_i clr here
    split_ifs at ran with locked
    · cases ran
      exact stays
    · have clear := not_not.mp locked
      obtain ⟨quiet, refills⟩ := safe ⟨clr, here⟩ clear
      cases ran
      exact enter_simulated sound here clear quiet refills
  · rename_i here
    cases ran
    exact reload_simulated sound here
  · rename_i here
    cases ran
    exact superb_simulated sound here
  · rename_i here
    cases ran
    exact unlock_simulated sound here
  · rename_i here
    cases ran
    exact take_simulated sound here
  · rename_i here
    cases ran
    exact full_simulated sound here
  · rename_i here
    split_ifs at ran with locked
    · cases ran
      exact stays
    · exact free_simulated sound here (not_not.mp locked) ran
  · rename_i here
    cases ran
    exact spill_simulated sound here
  · rename_i here
    cases ran
    exact push_simulated sound here

end

lemma ready_cases (ready : c.ready = true) :
    carried c = 0 ∧ popped c = 0 ∧ locking c = false ∧ ∃ r, status c = .ready r := by
  cases c <;> first | exact ⟨rfl, rfl, rfl, _, rfl⟩ | simp [Pc.ready] at ready

/-- A process that is outside makes a call, and perhaps hands a block over. -/
lemma call_simulated (sound : Sound s list) (ready : (s.pc p).ready = true)
    (free : locking c = false) (uncounted : popped c = 0) (owners : carried c + held' = s.held)
    (moves : ∀ r, (stackOf s list).status p = .ready r → StackStep (stackOf s list)
      ⟨list, update (stackOf s list).status p (status c)⟩) :
    Simulated s { s.goto s.fs p c with held := held' } list := by
  obtain ⟨nothing, none, outside, r, isReady⟩ := ready_cases ready
  exact simulated_single (sound_beside sound outside free ⟨rfl, rfl, rfl, rfl, rfl, fun _ _ => rfl⟩
    (fun _ _ _ _ => rfl) (by simpa [nothing] using owners)
    (by simp only [Sys.goto]; omega)) (moves r isReady)

omit [DecidableEq P] in
lemma write_sound (sound : Sound s list) (mine : b ∈ s.held) (contents : Block) :
    Sound { s with disk := update s.disk b contents } list := by
  have away : ∀ a, a ≠ b → update s.disk b contents a = s.disk a :=
    fun a different => update_of_ne different _ _
  have beside : Beside s.fs s.fs s.disk (update s.disk b contents) list := by
    refine ⟨rfl, rfl, rfl, rfl, rfl, fun a ha => away a ?_⟩
    rintro rfl
    exact held_fresh sound mine ha
  refine ⟨sound.superb, sound.word, ?_, sound.owned, sound.tfree⟩
  rcases sound.lock with ⟨clear, nobody, wf⟩ | ⟨locked, q, alone, phase⟩
  · exact .inl ⟨clear, nobody, wellFormed_beside beside wf⟩
  · refine .inr ⟨locked, q, alone, phase_beside beside phase (fun a ha => away a ?_)⟩
    rintro rfl
    exact held_uncarried sound mine q ha

lemma step_simulated (a : Act P) (sound : Sound s list) (allowed : Allowed s a) (safe : Safe s a)
    (stepped : Step s a t) : Simulated s t list := by
  cases a with
  | callBalloc p clr =>
    simp only [Step, step] at stepped
    split at stepped
    · next ready =>
      obtain rfl := Option.some.inj stepped
      exact call_simulated sound ready rfl rfl (by simp [carried]) (fun r h => .callAlloc p h)
    · cases stepped
  | callFree p b =>
    have good : badblock s.fs b = false := blocks_good s.fs (sound.owned ▸ by simp [show b ∈ s.held from allowed])
    simp only [Step, step, good] at stepped
    split at stepped
    · next ready =>
      obtain rfl := Option.some.inj stepped
      refine call_simulated sound ready rfl rfl ?_ (fun r h => .callFree p b h (held_fresh sound allowed))
      simpa [carried] using cons_erase allowed
    · cases stepped
  | run p => exact run_simulated sound safe stepped
  | write b contents =>
    obtain rfl := Option.some.inj stepped
    exact ⟨list, write_sound sound allowed contents, .refl⟩

end Steps

/-! ## Histories -/

/-- The superblock that a piece of `balloc` leaves. -/
def Alloc.fs : Alloc → Fs
  | .nospace fs => fs
  | .reload fs _ => fs
  | .take fs _ => fs

lemma resume_fs (s : Sys P) (p : P) (clr : Bool) (a : Alloc) : (resume s p clr a).fs = a.fs := by
  cases a <;> rfl

lemma ballocEnter_blocks (fs : Fs) : blocks (ballocEnter fs).fs = blocks fs := by
  simp only [ballocEnter]
  split
  · rfl
  · split <;> rfl

lemma ballocUnlock_blocks (fs : Fs) (b : Nat) : blocks (ballocUnlock fs b).fs = blocks fs := by
  simp only [ballocUnlock]
  split <;> rfl

variable {s : Sys P}

lemma freeEnter_blocks {p : P} {b : Nat} {t : Sys P} (left : (match freeEnter s.fs b with
      | .done fs => some (s.goto fs p .idle)
      | .spill fs => some (s.goto fs p (.spill b))) = some t) : blocks t.fs = blocks s.fs := by
  simp only [freeEnter] at left
  split_ifs at left <;> cases left <;> rfl

lemma step_blocks {t : Sys P} {a : Act P} (stepped : Step s a t) : blocks t.fs = blocks s.fs := by
  cases a with
  | callBalloc p clr =>
    simp only [Step, step] at stepped
    split_ifs at stepped
    cases stepped
    rfl
  | callFree p b =>
    simp only [Step, step] at stepped
    split_ifs at stepped <;> cases stepped <;> rfl
  | write b contents =>
    cases stepped
    rfl
  | run p =>
    simp only [Step, step, runProcess] at stepped
    split at stepped
    -- the two that wait for the lock, and the end of a reload
    case h_3 =>
      split_ifs at stepped <;> cases stepped
      · rfl
      · rw [resume_fs, ballocEnter_blocks]
    case h_9 =>
      split_ifs at stepped
      · cases stepped
        rfl
      · exact freeEnter_blocks stepped
    case h_6 =>
      cases stepped
      rw [resume_fs, ballocUnlock_blocks]
    all_goals cases stepped
    all_goals rfl

/-- No call is under way, and the callers have what is not on the list. -/
structure Started (s : Sys P) (list : List Nat) : Prop where
  wf : WellFormed s.fs s.disk list
  flock : s.fs.fs_flock = 0
  outside : ∀ p, (s.pc p).ready = true
  owners : (list : Multiset Nat) + s.held = blocks s.fs
  tfree : s.fs.fs_tfree = list.length

omit [DecidableEq P] in
lemma started_sound [Fintype P] {list : List Nat} (started : Started s list) : Sound s list := by
  have cases := fun p => ready_cases (started.outside p)
  refine ⟨started.wf.superb, started.wf.word, .inl ⟨started.flock, fun p => (cases p).2.2.1, started.wf⟩,
    ?_, ?_⟩
  · simpa [Finset.sum_eq_zero (fun p _ => (cases p).1)] using started.owners
  · simpa [Finset.sum_eq_zero (fun p _ => (cases p).2.1)] using started.tfree

/-- Calls that are not interrupted pop and push. -/
structure CallsOnStack (fs : Fs) (disk : Disk) (list : List Nat) : Prop where
  balloc_top : ∀ clr b later, list = b :: later → (Refills fs disk ↔
    ∃ fs' disk', balloc fs disk clr = (some b, fs', disk') ∧ WellFormed fs' disk' later ∧
      (fs.fs_tfree = list.length → fs'.fs_tfree = later.length))
  balloc_none : ∀ clr, list = [] → ∃ fs', balloc fs disk clr = (none, fs', disk) ∧
    WellFormed fs' disk [] ∧ fs'.fs_tfree = 0
  free_push : ∀ b, badblock fs b = false → b ∉ list → ∃ fs' disk', free fs disk b = (fs', disk') ∧
    WellFormed fs' disk' (b :: list) ∧ (fs.fs_tfree = list.length → fs'.fs_tfree = (b :: list).length)

/-- An empty table in the chain block loses that block. -/
lemma balloc_lost {fs : Fs} {disk : Disk} {b : Nat} {later : List Nat} (clr : Bool)
    (wf : WellFormed fs disk (b :: later)) (lost : ¬ Refills fs disk) :
    (balloc fs disk clr).1 = none := by
  simp only [Refills, not_forall] at lost
  obtain ⟨one, named, nothing⟩ := lost
  rcases ballocEnter_spec wf with ⟨shape, _⟩ | ⟨_, _, shape, _, ⟨n, -, enter, -⟩ | ⟨_, slot, enter, _⟩⟩
  · cases shape
  · have good := wf.good (fs.fs_free 0) (by
      have := chain_single (by
        simpa [entries, cache, one] using wf.chain)
      rcases this with ⟨zero, _⟩ | ⟨_, _, shape, _⟩
      · exact absurd zero named
      · simp [shape])
    simp [ballocEnter, one, pop_good (by decide) named good] at enter
  · obtain ⟨rfl, rfl⟩ := List.cons.inj shape
    have empty : (getFblk (disk b)).df_nfree ≤ 0 := by
      rw [← slot]
      omega
    simp [balloc, enter, ballocUnlock, ballocSuper, ballocReload, setCache, empty, nospace,
      ballocFinish]

lemma callsOnStack {fs : Fs} {disk : Disk} {list : List Nat} (wf : WellFormed fs disk list) :
    CallsOnStack fs disk list := by
  refine ⟨?_, ?_, ?_⟩
  · rintro clr b later rfl
    constructor
    · intro refills
      obtain ⟨fs', disk', call, wf', _, _, _, _, tfree⟩ := balloc_cons wf refills clr
      refine ⟨fs', disk', call, wf', fun right => ?_⟩
      have := length_lt wf
      simp only [tfree, right, List.length_cons] at this ⊢
      omega
    · rintro ⟨fs', disk', call, _⟩
      by_contra lost
      have := balloc_lost clr wf lost
      simp [call] at this
  · rintro clr rfl
    exact ⟨_, balloc_empty wf clr, wellFormed_nospace wf, rfl⟩
  · intro b good fresh
    obtain ⟨fs', disk', call, wf', _, _, _, _, tfree⟩ := free_spec wf good fresh
    refine ⟨fs', disk', call, wf', fun right => ?_⟩
    have := length_lt wf'
    simp only [List.length_cons] at this ⊢
    omega

/-- One call at a time is a stack as long as a chain block holds an entry; and so is
every interleaving in which no `balloc` finds the list empty while another is on its way. -/
theorem free_list_stack [Fintype P] {start s : Sys P} {list₀ : List Nat} (acts : List (Act P))
    (started : Started start list₀)
    (run : Run Step (fun s a => Allowed s a ∧ Safe s a) start acts s)
    {fs : Fs} {disk : Disk} {list : List Nat} (wf : WellFormed fs disk list) :
    CallsOnStack fs disk list ∧
    ∃ list, Relation.ReflTransGen StackStep (stackOf start list₀) (stackOf s list) ∧
      (list : Multiset Nat) + ∑ p, carried (s.pc p) + s.held = blocks start.fs ∧
      s.fs.fs_tfree = list.length + ∑ p, popped (s.pc p) ∧
      (s.fs.fs_flock = 0 → WellFormed s.fs s.disk list) := by
  refine ⟨callsOnStack wf, ?_⟩
  have reached : ∃ list, Sound s list ∧ blocks s.fs = blocks start.fs ∧
      Relation.ReflTransGen StackStep (stackOf start list₀) (stackOf s list) := by
    refine run_invariant (fun t => ∃ list, Sound t list ∧ blocks t.fs = blocks start.fs ∧
      Relation.ReflTransGen StackStep _ _) ?_ run
      ⟨list₀, started_sound started, rfl, .refl⟩
    rintro s a t ⟨list, sound, extent, path⟩ ⟨allowed, safe⟩ stepped
    obtain ⟨list', sound', last⟩ := step_simulated a sound allowed safe stepped
    exact ⟨list', sound', (step_blocks stepped).trans extent, path.trans last.to_reflTransGen⟩
  obtain ⟨list, sound, extent, path⟩ := reached
  exact ⟨list, path, sound.owned.trans extent, sound.tfree, fun clear => (unlocked sound clear).2⟩

def oneFree : Sys Bool :=
  ⟨⟨2, 3, 2, fun k => if k = 1 then 2 else 0, 0, 0, 1⟩, fun _ => zeroBlock,
    ⟨2, 3, 2, fun _ => 0, 0, 0, 1⟩, fun _ => .idle, 0⟩

lemma oneFree_started : Started oneFree [2] := by
  have chain : Chain oneFree.disk (entries (cache oneFree.fs)) [2] := .last [2]
  exact ⟨⟨by decide, chain, by decide, by decide, by decide, by decide⟩, rfl, fun _ => rfl, rfl, rfl⟩

theorem free_list_stack_one_free : CallsOnStack oneFree.fs oneFree.disk [2] ∧ ∃ list,
      Relation.ReflTransGen StackStep (stackOf oneFree [2])
        (stackOf (oneFree.goto oneFree.fs true (.balloc false)) list) :=
  (free_list_stack [.callBalloc true false] oneFree_started (.cons ⟨trivial, trivial⟩ rfl (.nil _))
    oneFree_started.wf).imp id (Exists.imp (fun _ h => h.1))

/-- One `balloc` sleeps with the last block, a second one finds the list empty and
clears `fs_tfree`, and the first then counts it down from 0. -/
theorem interleaved_tfree_wraps : Started oneFree [2] ∧ ∃ s,
      Run Step Allowed oneFree [.callBalloc false false, .run false, .callBalloc true false,
        .run true, .run false, .run true] s ∧
      (∀ p, (s.pc p).ready = true) ∧ WellFormed s.fs s.disk [] ∧ s.fs.fs_tfree = 2 ^ 32 - 1 := by
  refine ⟨oneFree_started, _, .cons trivial rfl (.cons trivial rfl (.cons trivial rfl
    (.cons trivial rfl (.cons trivial rfl (.cons trivial rfl (.nil _)))))), ?_, ?_, ?_⟩
  · decide
  · exact ⟨by decide, .empty, by decide, by decide, by decide, by decide⟩
  · decide

end FreeList
