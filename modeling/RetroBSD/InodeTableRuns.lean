import RetroBSD.InodeTable

/-!
# Runs of the inode table

What holds of the inode table between two steps, also while an inode that is
given up is still written: its slot keeps its count and its lock until the slot
is on the free list.
-/

namespace InodeTable

open LinkedLists References Runs List Option
open Function (update update_of_ne update_self)

local instance neZero : NeZero 3 := ⟨by decide⟩

/-- A slot is on the chain of its device and number, and no other slot of the chain has the
same. -/
structure Hashed (t : Table) (L : Fin INOHSZ → List Slot) : Prop where
  rings : Rings t.chains L none
  chain : ∀ k, ∀ x ∈ L k, INOHASH (t.i_dev x) (t.i_number x) = k
  unique : ∀ k, ∀ x ∈ L k, ∀ y ∈ L k, t.i_dev x = t.i_dev y → t.i_number x = t.i_number y → x = y

/-- The free list holds the slots that are not counted. -/
def Listed (t : Table) : Prop := ∃ l, t.free.Holds l ∧ ∀ x, x ∈ l ↔ t.i_count x = 0

section Tables

variable {t : Table} {L : Fin INOHSZ → List Slot} {x : Slot} {dev ino : ℕ}

lemma increment_count (room : t.i_count x + 1 < WORD) :
    (t.increment x).i_count = update t.i_count x (t.i_count x + 1) := by
  unfold Table.increment
  rw [Nat.mod_eq_of_lt room]

lemma decrement_count (used : 0 < t.i_count x) (room : t.i_count x < WORD) :
    (t.decrement x).i_count = update t.i_count x (t.i_count x - 1) := by
  have value : (t.i_count x + (WORD - 1)) % WORD = t.i_count x - 1 := by
    rw [show t.i_count x + (WORD - 1) = t.i_count x - 1 + WORD by simp only [WORD] at *; omega,
      Nat.add_mod_right, Nat.mod_eq_of_lt (by omega)]
  unfold Table.decrement
  rw [value]

lemma Hashed.short (hashed : Hashed t L) (k : Fin INOHSZ) : (L k).length ≤ NINODE := by
  simpa using (hashed.rings.lists.nodup k).length_le_card

/-- The search finds the slot with the given device and number, if there is one. -/
lemma Hashed.ifind_eq (hashed : Hashed t L) :
    t.ifind dev ino = (L (INOHASH dev ino)).find? fun x => ino = t.i_number x ∧ dev = t.i_dev x :=
  hashed.rings.search_eq (a := []) _ _ rfl (Nat.lt_succ_of_le (hashed.short _))

lemma Hashed.absent (hashed : Hashed t L) (missing : t.ifind dev ino = none) :
    ∀ y ∈ L (INOHASH dev ino), ¬ (t.i_dev y = dev ∧ t.i_number y = ino) := by
  rw [hashed.ifind_eq, find?_eq_none] at missing
  intro y member same
  exact missing y member (by simp [same.1, same.2])

lemma Hashed.recycle (hashed : Hashed t L) (missing : t.ifind dev ino = none) :
    ∃ L', Hashed (t.recycle x dev ino) L' := by
  obtain ⟨L', rings, kept⟩ := hashed.rings.remque x
  have fresh : ∀ k, x ∉ L' k := fun k member => ((kept x k).mp member).2 rfl
  have added := mem_push L' (INOHASH dev ino) x
  have devs : ∀ y, y ≠ x → (t.recycle x dev ino).i_dev y = t.i_dev y :=
    fun y other => update_of_ne other ..
  have numbers : ∀ y, y ≠ x → (t.recycle x dev ino).i_number y = t.i_number y :=
    fun y other => update_of_ne other ..
  have dev_eq : (t.recycle x dev ino).i_dev x = dev := update_self ..
  have ino_eq : (t.recycle x dev ino).i_number x = ino := update_self ..
  have old : ∀ y k, y ∈ update L' (INOHASH dev ino) (x :: L' (INOHASH dev ino)) k → y ≠ x →
      y ∈ L k ∧ (t.recycle x dev ino).i_dev y = t.i_dev y ∧
        (t.recycle x dev ino).i_number y = t.i_number y := by
    intro y k member other
    have before := ((added y k).mp member).resolve_right fun new => other new.1
    exact ⟨((kept y k).mp before).1, devs y other, numbers y other⟩
  have differs : ∀ y, y ≠ x → ∀ k, y ∈ L k → ¬ (t.i_dev y = dev ∧ t.i_number y = ino) := by
    intro y _ k member same
    have here := hashed.chain k y member
    rw [same.1, same.2] at here
    exact hashed.absent missing y (here ▸ member) same
  refine ⟨_, rings.insque fresh _, fun k y member => ?_, fun k y one z two sameDev sameIno => ?_⟩
  · by_cases same : y = x
    · subst same
      rw [dev_eq, ino_eq]
      rcases (added y k).mp member with before | new
      · exact absurd before (fresh k)
      · exact new.2.symm
    · obtain ⟨before, devs, numbers⟩ := old y k member same
      rw [devs, numbers]
      exact hashed.chain k y before
  · by_cases isY : y = x <;> by_cases isZ : z = x
    · rw [isY, isZ]
    · obtain ⟨before, devs, numbers⟩ := old z k two isZ
      rw [isY, dev_eq, devs] at sameDev
      rw [isY, ino_eq, numbers] at sameIno
      exact absurd ⟨sameDev.symm, sameIno.symm⟩ (differs z isZ k before)
    · obtain ⟨before, devs, numbers⟩ := old y k one isY
      rw [isZ, dev_eq, devs] at sameDev
      rw [isZ, ino_eq, numbers] at sameIno
      exact absurd ⟨sameDev, sameIno⟩ (differs y isY k before)
    · obtain ⟨beforeY, devY, numberY⟩ := old y k one isY
      obtain ⟨beforeZ, devZ, numberZ⟩ := old z k two isZ
      rw [devY, devZ] at sameDev
      rw [numberY, numberZ] at sameIno
      exact hashed.unique k y beforeY z beforeZ sameDev sameIno

/-- A slot that is counted one more time, and is on the free list no longer. -/
lemma counted_up {l l' : List Slot} {count count' : Slot → ℕ} (exact' : ∀ y, y ∈ l ↔ count y = 0)
    (kept : ∀ y, y ∈ l' ↔ y ∈ l ∧ y ≠ x) (now : count' = update count x (count x + 1))
    (y : Slot) : y ∈ l' ↔ count' y = 0 := by
  rw [kept, exact', now]
  by_cases same : y = x
  · subst same
    simp
  · simp [same]

lemma kept_without {l : List Slot} (out : x ∉ l) (y : Slot) : y ∈ l ↔ y ∈ l ∧ y ≠ x :=
  ⟨fun member => ⟨member, fun same => out (same ▸ member)⟩, And.left⟩

/-- What `grab` does: the slot is counted, locked, and not on the free list. -/
lemma grab_spec (listed : Listed t) (room : t.i_count x + 1 < WORD) :
    Listed (t.grab x) ∧ (t.grab x).i_count = update t.i_count x (t.i_count x + 1) ∧
      (t.grab x).locked = update t.locked x true ∧ (t.grab x).panicked = t.panicked ∧
      (t.grab x).chains = t.chains ∧ (t.grab x).i_dev = t.i_dev ∧
      (t.grab x).i_number = t.i_number := by
  obtain ⟨l, holds, exact'⟩ := listed
  unfold Table.grab
  split_ifs with unused
  · obtain ⟨a, b, here⟩ := append_of_mem ((exact' x).mpr unused)
    obtain ⟨q, removed, left⟩ := holds.remove here
    rw [removed]
    have count := increment_count room
    have kept : ∀ y, y ∈ a ++ b ↔ y ∈ l ∧ y ≠ x := by
      have same := fun y => holds.lists.mem_remove (k := ()) here y ()
      simpa only [update_self] using same
    exact ⟨⟨a ++ b, left, counted_up exact' kept count⟩, count, rfl, rfl, rfl, rfl, rfl⟩
  · have count := increment_count room
    have kept := kept_without fun member => unused ((exact' x).mp member)
    exact ⟨⟨l, holds, counted_up exact' kept count⟩, count, rfl, rfl, rfl, rfl, rfl⟩

/-- The first slot of the free list is not in use. -/
lemma Listed.first (listed : Listed t) (next : t.free.next (.head ()) = some x) :
    t.i_count x = 0 := by
  obtain ⟨l, holds, exact'⟩ := listed
  rw [holds.lists.head] at next
  exact (exact' x).mp (mem_of_head? next)

lemma recycle_spec (dev ino : ℕ) (listed : Listed t) (next : t.free.next (.head ()) = some x) :
    Listed (t.recycle x dev ino) ∧
      (t.recycle x dev ino).i_count = update t.i_count x (t.i_count x + 1) := by
  have unused := listed.first next
  obtain ⟨l, holds, exact'⟩ := listed
  rw [holds.lists.head] at next
  obtain ⟨b, rfl⟩ : ∃ b, l = x :: b := head?_eq_some_iff.mp next
  have nodup := nodup_cons.mp (holds.lists.nodup ())
  have count : (t.recycle x dev ino).i_count = update t.i_count x (t.i_count x + 1) := by
    unfold Table.recycle
    rw [increment_count]
    · rfl
    · change t.i_count x + 1 < WORD
      rw [unused]
      decide
  refine ⟨⟨b, holds.pop.scribble nodup.1 none, counted_up exact' (fun y => ?_) count⟩, count⟩
  by_cases same : y = x
  · simp [same, nodup.1]
  · simp [same]

/-- The slot of the last reference is put on the free list. -/
lemma giveBack_spec (listed : Listed t) (last : t.i_count x = 1) :
    Listed (t.giveBack x) ∧ (t.giveBack x).i_count = update t.i_count x 0 := by
  obtain ⟨l, holds, exact'⟩ := listed
  have out : x ∉ l := fun member => by simp [(exact' x).mp member] at last
  have count : (t.giveBack x).i_count = update t.i_count x 0 := by
    have zero : (1 + (WORD - 1)) % WORD = 0 := by decide
    simp [Table.giveBack, Table.decrement, Table.setLock, last, zero]
  refine ⟨⟨l ++ [x], holds.append out, fun y => ?_⟩, count⟩
  rw [count]
  by_cases same : y = x
  · simp [same]
  · simp [same, exact']

/-- `iflush` changes only the chains, and slots only leave them. -/
lemma iflush_spec (dev : ℕ) (xs : List Slot) (hashed : Hashed t L) :
    (∃ L', Hashed (t.iflush dev xs).1 L') ∧ ∃ chains, (t.iflush dev xs).1 = { t with chains } := by
  induction xs generalizing t L with
  | nil => exact ⟨⟨L, hashed⟩, t.chains, rfl⟩
  | cons x xs ih =>
    unfold Table.iflush
    split_ifs
    · exact ⟨⟨L, hashed⟩, t.chains, rfl⟩
    · obtain ⟨L', rings, kept⟩ := hashed.rings.remque x
      have fresh : ∀ k, x ∉ L' k := fun k member => ((kept x k).mp member).2 rfl
      have before : ∀ k, ∀ y ∈ L' k, y ∈ L k := fun k y member => ((kept y k).mp member).1
      obtain ⟨done, chains, same⟩ := ih (t := { t with
          chains := (t.chains.remque _).isolate _ })
        ⟨rings.isolate fresh, fun k y member => hashed.chain k y (before k y member),
          fun k y one z two => hashed.unique k y (before k y one) z (before k z two)⟩
      exact ⟨done, chains, same⟩
    · exact ih hashed

end Tables

section Systems

variable {P : Type} [Fintype P] {s : System P} {t : Table} {p q : P} {x y : Slot}

/-- What holds between two steps. A slot that is being given up is counted once, and locked. -/
structure Sound (s : System P) : Prop where
  chains : ∃ L, Hashed s.toTable L
  listed : Listed s.toTable
  count : ∀ x, s.i_count x = references (fun p => (s.place p).slot) x
  last : ∀ p x, s.place p = .releasing x → s.i_count x = 1 ∧ s.locked x = true
  fine : s.panicked = none

/-- A slot that is being given up belongs to one place. -/
lemma Sound.alone (sound : Sound s) (counts : (s.place p).slot = some x) (other : q ≠ p) :
    s.place q ≠ .releasing x := by
  intro releasing
  have one := (sound.last q x releasing).1
  have two : 1 < references (fun p => (s.place p).slot) x :=
    one_lt_references (by simp [releasing, Place.slot]) counts other
  rw [sound.count] at one
  omega

lemma Sound.positive (sound : Sound s) (counts : (s.place p).slot = some x) : 0 < s.i_count x := by
  have least := holds_le_references (fun p => (s.place p).slot) p x
  rw [counts, holds_self] at least
  rw [sound.count]
  exact least

lemma Sound.small (sound : Sound s) (few : Fintype.card P < WORD) (x : Slot) :
    s.i_count x < WORD := by
  rw [sound.count]
  exact (references_le_card _ x).trans_lt few

variable [DecidableEq P]

/-- While a place counts nothing, there is room for one more reference. -/
lemma Sound.room (sound : Sound s) (few : Fintype.card P < WORD) (unused : (s.place p).slot = none)
    (x : Slot) : s.i_count x + 1 < WORD := by
  have most := references_le_card (update (fun p => (s.place p).slot) p (some x)) x
  have moved := references_update (fun p => (s.place p).slot) p (some x) x
  rw [unused, holds_none, holds_self, ← sound.count] at moved
  omega

omit [Fintype P] in
lemma slot_update (place : P → Place) (p : P) (new : Place) :
    (fun q => (update place p new q).slot) = update (fun q => (place q).slot) p new.slot := by
  funext q
  by_cases same : q = p
  · simp [same]
  · simp [same]

variable {new : Place}

/-- A place is emptied or filled, and what other places give up stays as it is. -/
lemma Sound.put (sound : Sound s) (chains : ∃ L, Hashed t L) (listed : Listed t)
    (fine : t.panicked = none) (same : ∀ q x, q ≠ p → s.place q = .releasing x →
      t.i_count x = s.i_count x ∧ t.locked x = s.locked x)
    (moved : ∀ x, t.i_count x + holds (s.place p).slot x = s.i_count x + holds new.slot x)
    (last : ∀ x, new = .releasing x → t.i_count x = 1 ∧ t.locked x = true) :
    Sound (s.put p (t, new)) := by
  refine ⟨chains, listed, fun x => ?_, fun q x releasing => ?_, fine⟩
  · have counted := references_update (fun p => (s.place p).slot) p new.slot x
    rw [← slot_update, ← sound.count] at counted
    have := moved x
    change t.i_count x = references (fun q => (update s.place p new q).slot) x
    omega
  · change t.i_count x = 1 ∧ t.locked x = true
    by_cases here : q = p
    · subst here
      exact last x ((update_self ..).symm.trans releasing)
    · have before : s.place q = .releasing x := (update_of_ne here ..).symm.trans releasing
      rw [(same q x here before).1, (same q x here before).2]
      exact sound.last q x before

/-- A place waits on, or what it waited for is there. -/
lemma Sound.wait (sound : Sound s) (same : new.slot = (s.place p).slot)
    (keeps : ∀ x, new ≠ .releasing x) : Sound (s.put p (s.toTable, new)) :=
  sound.put sound.chains sound.listed sound.fine (fun _ _ _ _ => ⟨rfl, rfl⟩)
    (fun _ => by rw [same]) fun x is => absurd is (keeps x)

omit [DecidableEq P] in
lemma Sound.hashed (sound : Sound s) (chains : t.chains = s.chains) (devs : t.i_dev = s.i_dev)
    (numbers : t.i_number = s.i_number) : ∃ L, Hashed t L := by
  obtain ⟨L, hashed⟩ := sound.chains
  exact ⟨L, chains ▸ hashed.rings, devs ▸ numbers ▸ hashed.chain, devs ▸ numbers ▸ hashed.unique⟩

lemma Sound.gain (sound : Sound s) (unused : (s.place p).slot = none)
    (counts : new.slot = some x) (keeps : ∀ y, new ≠ .releasing y) (chains : ∃ L, Hashed t L)
    (listed : Listed t) (fine : t.panicked = none)
    (count : t.i_count = update s.i_count x (s.i_count x + 1))
    (locked : ∀ y, y ≠ x → t.locked y = s.locked y) (alone : ∀ q, s.place q ≠ .releasing x) :
    Sound (s.put p (t, new)) := by
  refine sound.put chains listed fine (fun q y _ releasing => ?_) (fun y => ?_)
    fun y is => absurd is (keeps y)
  · have other : y ≠ x := fun same => alone q (same ▸ releasing)
    exact ⟨by rw [count, update_of_ne other], locked y other⟩
  · rw [unused, counts, count]
    by_cases same : y = x
    · subst same
      simp
    · rw [update_of_ne same, holds_of_ne (Ne.symm same), holds_none]

lemma Sound.lose (sound : Sound s) (counts : (s.place p).slot = some x) (chains : ∃ L, Hashed t L)
    (listed : Listed t) (fine : t.panicked = none)
    (count : t.i_count = update s.i_count x (s.i_count x - 1))
    (locked : ∀ y, y ≠ x → t.locked y = s.locked y) : Sound (s.put p (t, .empty)) := by
  have positive := sound.positive counts
  refine sound.put chains listed fine (fun q y other releasing => ?_) (fun y => ?_) nofun
  · have apart : y ≠ x := fun same => sound.alone counts other (same ▸ releasing)
    exact ⟨by rw [count, update_of_ne apart], locked y apart⟩
  · change t.i_count y + _ = s.i_count y + holds none y
    rw [count, counts, holds_none]
    by_cases same : y = x
    · subst same
      rw [update_self, holds_self]
      omega
    · rw [update_of_ne same, holds_of_ne (Ne.symm same)]

omit [DecidableEq P] in
lemma Sound.unlocked (sound : Sound s) (open' : s.locked x = false) (q : P) :
    s.place q ≠ .releasing x := by
  intro releasing
  rw [(sound.last q x releasing).2] at open'
  cases open'

section

variable (sound : Sound s) (few : Fintype.card P < WORD) (unused : (s.place p).slot = none)
include sound few unused

lemma grab_sound (open' : s.locked x = false) : Sound (s.put p (s.grab x, .holds x)) := by
  obtain ⟨listed, count, locked, panicked, chains, devs, numbers⟩ :=
    grab_spec sound.listed (sound.room few unused x)
  refine sound.gain unused rfl nofun (sound.hashed chains devs numbers) listed
    (panicked.trans sound.fine) count (fun y other => ?_) (sound.unlocked open')
  rw [locked, update_of_ne other]

lemma iget_sound (dev ino : ℕ) : Sound (s.put p (s.toTable.iget dev ino)) := by
  unfold Table.iget
  split
  · rename_i x found
    split_ifs with locked
    · exact sound.wait unused.symm nofun
    · split
      · exact sound.wait unused.symm nofun
      · exact grab_sound sound few unused (by simpa using locked)
  · rename_i missing
    split
    · exact sound.wait unused.symm nofun
    · rename_i x next
      have free := sound.listed.first next
      rw [if_neg (not_not.mpr free)]
      obtain ⟨listed, count⟩ := recycle_spec dev ino sound.listed next
      obtain ⟨L, hashed⟩ := sound.chains
      refine sound.gain unused rfl nofun (hashed.recycle missing) listed sound.fine count
        (fun y other => update_of_ne other ..) fun q releasing => ?_
      have one := (sound.last q x releasing).1
      omega

lemma igrab_sound (x : Slot) : Sound (s.put p (s.toTable.igrab x)) := by
  unfold Table.igrab
  split_ifs with locked
  · exact sound.wait unused.symm nofun
  · exact grab_sound sound few unused (by simpa using locked)

end

omit [DecidableEq P] in
/-- The holder of a reference locks or unlocks the slot. -/
lemma setLock_sound (sound : Sound s) (held : s.place p = .holds x) (lock : Bool) :
    Sound (s.keep (s.setLock x lock)) := by
  have counts : (s.place p).slot = some x := congrArg Place.slot held
  refine ⟨sound.hashed rfl rfl rfl, sound.listed, sound.count, fun q y releasing => ?_, sound.fine⟩
  obtain ⟨one, locked⟩ := sound.last q y releasing
  refine ⟨one, ?_⟩
  have other : y ≠ x := by
    rintro rfl
    refine sound.alone counts (fun same : q = p => ?_) releasing
    have both : s.place p = .releasing y := same ▸ releasing
    rw [held] at both
    cases both
  exact (update_of_ne other ..).trans locked

lemma irele_sound (sound : Sound s) (few : Fintype.card P < WORD) (held : s.place p = .holds x) :
    Sound (s.put p (s.toTable.irele x)) := by
  have counts : (s.place p).slot = some x := congrArg Place.slot held
  unfold Table.irele
  split_ifs with last
  · refine sound.put (sound.hashed rfl rfl rfl) sound.listed sound.fine
      (fun q y other releasing => ⟨rfl, ?_⟩) (fun y => ?_) fun y is => ?_
    · exact update_of_ne (fun same : y = x => sound.alone counts other (same ▸ releasing)) ..
    · rw [counts]
      rfl
    · cases is
      exact ⟨last, update_self ..⟩
  · have count := decrement_count (sound.positive counts) (sound.small few x)
    refine sound.lose counts (sound.hashed rfl rfl rfl) ?_ sound.fine count fun _ _ => rfl
    obtain ⟨l, holds, exact'⟩ := sound.listed
    refine ⟨l, holds, fun y => ?_⟩
    rw [exact', count]
    by_cases same : y = x
    · subst same
      rw [update_self]
      omega
    · rw [update_of_ne same]

lemma giveBack_sound (sound : Sound s) (releasing : s.place p = .releasing x) :
    Sound (s.put p (s.giveBack x, .empty)) := by
  have counts : (s.place p).slot = some x := congrArg Place.slot releasing
  have last := (sound.last p x releasing).1
  obtain ⟨listed, count⟩ := giveBack_spec sound.listed last
  refine sound.lose counts (sound.hashed rfl rfl rfl) listed sound.fine ?_
    fun y other => update_of_ne other ..
  rw [count, last]

/-- A second reference to an inode that is held. -/
lemma copy_sound (sound : Sound s) (few : Fintype.card P < WORD) (held : s.place p = .holds x)
    (unused : s.place q = .empty) : Sound (s.put q (s.increment x, .holds x)) := by
  have counts : (s.place p).slot = some x := congrArg Place.slot held
  have none : (s.place q).slot = none := congrArg Place.slot unused
  have count := increment_count (sound.room few none x)
  obtain ⟨l, holds, exact'⟩ := sound.listed
  have kept := kept_without fun member => (sound.positive counts).ne' ((exact' x).mp member)
  refine sound.gain none rfl nofun (sound.hashed rfl rfl rfl) ⟨l, holds, counted_up exact' kept count⟩ sound.fine count (fun _ _ => rfl) fun r releasing => ?_
  refine sound.alone counts (fun same : r = p => ?_) releasing
  rw [same, held] at releasing
  cases releasing

omit [DecidableEq P] in
/-- The holder of a reference uses the word of `i_freef` for `i_lastr`. -/
lemma lastr_sound (sound : Sound s) (held : s.place p = .holds x) (v : Option Slot) :
    Sound (s.keep { s.toTable with free := s.free.scribble x v }) := by
  have counts : (s.place p).slot = some x := congrArg Place.slot held
  obtain ⟨l, holds, exact'⟩ := sound.listed
  have out : x ∉ l := fun member => (sound.positive counts).ne' ((exact' x).mp member)
  exact ⟨sound.hashed rfl rfl rfl, ⟨l, holds.scribble out v, exact'⟩, sound.count, sound.last, sound.fine⟩

omit [DecidableEq P] in
lemma iflush_sound (sound : Sound s) (dev : ℕ) :
    Sound (s.keep (s.toTable.iflush dev (List.finRange NINODE)).1) := by
  obtain ⟨L, hashed⟩ := sound.chains
  obtain ⟨done, chains, same⟩ := iflush_spec dev _ hashed
  rw [same] at done ⊢
  exact ⟨done, sound.listed, sound.count, sound.last, sound.fine⟩

lemma holds_of_held {place : Place} (held : place.held = some x) : place = .holds x := by
  cases place <;> cases held
  rfl

lemma step_sound {s t : System P} {a : Label P} (few : Fintype.card P < WORD) (sound : Sound s)
    (step : Step s a t) : Sound t := by
  cases a with
  | iget p dev ino =>
    obtain ⟨unused, ⟨⟩⟩ := ite_none_right_eq_some.mp step
    exact iget_sound sound few (by rw [unused]; rfl) dev ino
  | igrab p x =>
    obtain ⟨unused, ⟨⟩⟩ := ite_none_right_eq_some.mp step
    exact igrab_sound sound few (by rw [unused]; rfl) x
  | resume p =>
    simp only [Step, System.exec] at step
    split at step
    case h_1 dev ino waits =>
      cases step
      exact iget_sound sound few (by rw [waits]; rfl) dev ino
    case h_2 x waits =>
      cases step
      exact igrab_sound sound few (by rw [waits]; rfl) x
    case h_3 x waits =>
      cases step
      exact sound.wait (by rw [waits]; rfl) nofun
    case h_4 x waits =>
      cases step
      exact giveBack_sound sound waits
    case h_5 => cases step
  | irele p =>
    obtain ⟨x, held, rfl⟩ := map_eq_some_iff.mp step
    exact irele_sound sound few (holds_of_held held)
  | iput p =>
    obtain ⟨x, held, rfl⟩ := map_eq_some_iff.mp step
    exact irele_sound (setLock_sound sound (holds_of_held held) false) few (holds_of_held held)
  | copy p q =>
    obtain ⟨unused, copied⟩ := ite_none_right_eq_some.mp step
    obtain ⟨x, held, rfl⟩ := map_eq_some_iff.mp copied
    exact copy_sound sound few (holds_of_held held) unused
  | ilock p =>
    obtain ⟨x, held, locks⟩ := bind_eq_some_iff.mp step
    obtain ⟨-, ⟨⟩⟩ := ite_none_left_eq_some.mp locks
    exact setLock_sound sound (holds_of_held held) true
  | iunlock p =>
    obtain ⟨x, held, rfl⟩ := map_eq_some_iff.mp step
    exact setLock_sound sound (holds_of_held held) false
  | lastr p v =>
    obtain ⟨x, held, rfl⟩ := map_eq_some_iff.mp step
    exact lastr_sound sound (holds_of_held held) v
  | iflush dev =>
    cases step
    exact iflush_sound sound dev
  | mount x dev =>
    cases step
    exact ⟨sound.hashed rfl rfl rfl, sound.listed, sound.count, sound.last, sound.fine⟩

lemma ihinit_listed : ihinit.free.Holds (List.finRange NINODE) where
  lists := ⟨fun () => by decide, fun _ => nodup_finRange NINODE, fun _ _ _ _ _ => rfl⟩
  backed := ⟨fun x => (ihinit.free.prev x).getD (.head ()), by decide, by decide⟩
  last _ := by decide

omit [DecidableEq P] in
lemma boot_sound : Sound (boot P) := by
  refine ⟨⟨fun _ => [], ⟨⟨?_, fun _ => nodup_nil, nofun⟩, fun _ => trivial,
    fun _ => ⟨rfl, rfl⟩, fun _ _ _ => ⟨rfl, rfl⟩⟩, nofun, nofun⟩,
    ⟨finRange NINODE, ihinit_listed, fun x => ?_⟩, fun x => ?_, nofun, rfl⟩
  · exact fun k => linked_nil.mpr rfl
  · exact ⟨fun _ => rfl, fun _ => mem_finRange x⟩
  · exact (references_none x).symm

/-- In every state that is reached, slots on the hash chains have different devices or numbers. The
free list is linked forward from `ifreeh` and back to it, `ifreet` is at its end, and a slot is on
it once if its count is zero and otherwise not. The count is the number of places with a reference,
those included that are being filled or given up. There was no panic. -/
theorem inode_table (few : Fintype.card P < WORD) (as : List (Label P)) (s : System P)
    (run : Run Step (fun _ _ => True) (boot P) as s) : s.panicked = none ∧
      (∀ x, s.i_count x = (Finset.univ.filter fun p => (s.place p).slot = some x).card) ∧
      (∃ L, Rings s.chains L none ∧ ∀ k k' x y, x ∈ L k → y ∈ L k' → s.i_dev x = s.i_dev y →
        s.i_number x = s.i_number y → x = y) ∧
      ∃ l, Linked s.free.next (.head ()) l ∧
        (∀ a x b, l = a ++ x :: b → s.free.prev x = some (after (.head ()) a)) ∧
        (l ≠ [] → s.free.tail = after (.head ()) l) ∧
        ∀ x, l.count x = if s.i_count x = 0 then 1 else 0 := by
  have sound := run_invariant Sound (fun _ _ _ sound _ step => step_sound few sound step) run
    boot_sound
  obtain ⟨L, hashed⟩ := sound.chains
  obtain ⟨l, holds, exact'⟩ := sound.listed
  refine ⟨sound.fine, fun x => (sound.count x).trans (references_eq_card _ x),
    ⟨L, hashed.rings, fun k k' x y one two devs numbers => ?_⟩,
    l, holds.lists.linked (), fun a x b here => holds.prev here, holds.last, fun x => ?_⟩
  · have chain : k = k' := by rw [← hashed.chain k x one, ← hashed.chain k' y two, devs, numbers]
    exact hashed.unique k x one y (chain ▸ two) devs numbers
  · split_ifs with unused
    · exact count_eq_one_of_mem (holds.lists.nodup ()) ((exact' x).mpr unused)
    · exact count_eq_zero_of_not_mem fun member => unused ((exact' x).mp member)

end Systems

/-- Two places share an inode, a third one waits for its lock while the last reference is given up,
and then takes the slot again. -/
def sampleCalls : List (Label (Fin 3)) :=
  [.iget 0 1 5, .resume 0, .iunlock 0, .copy 0 1, .irele 0, .iput 1, .iget 2 1 5, .resume 1,
    .iflush 3, .resume 2]

theorem inode_table_sample :
    ∃ s : System (Fin 3), Run Step (fun _ _ => True) (boot (Fin 3)) sampleCalls s ∧
      s.place 2 = .holds 0 ∧ s.i_count 0 = 1 ∧
      s.i_count 0 = (Finset.univ.filter fun p => (s.place p).slot = some 0).card := by
  exact Exists.imp (fun s ⟨run, here, count⟩ =>
      ⟨run, here, count, (inode_table (by decide) sampleCalls s run).2.1 0⟩)
    (run_of_reached System.exec (P := fun s => s.place 2 = .holds 0 ∧ s.i_count 0 = 1)
      (by decide))

end InodeTable
