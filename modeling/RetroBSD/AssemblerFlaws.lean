import RetroBSD.AssemblerFiles

/-!
# Inputs that spoil the files

A statement that is not clean spoils the files for good, since they only grow. With what clean
statements keep, this gives the inputs after which the files are complete.
-/

namespace Assembler

open List Option

variable {s t : State}

/-! ### What cannot be mended -/

/-- A cell of the file, where the item should stand, is not the item's. -/
def Wrong (s : State) (p : Placement) : Prop :=
  ∃ j c c', (s.streams p.segment).file[p.address + j]? = some c ∧ p.cells[j]? = some c' ∧ c ≠ c'

/-- Bytes are missing, an item is not in its place, or the held item cannot come to it. -/
def Spoilt (s : State) : Prop :=
  0 < missing s ∨ (∃ p ∈ s.items, Wrong s p) ∨
    ∃ h i b, s.held = some h ∧ h.item = some i ∧ (s.streams .text).file[i.2]? = some (b, none)

lemma getElem?_grows (grows : Grows s t) {g : Segment} {k : ℕ} {c : Cell}
    (here : (s.streams g).file[k]? = some c) : (t.streams g).file[k]? = some c := by
  obtain ⟨cs, file⟩ := grows.file g
  obtain ⟨inside, -⟩ := List.getElem?_eq_some_iff.mp here
  rw [file, getElem?_append_left inside, here]

variable {instruction : Bool} {e : Emit} {ending : Ending} {h : Held} {p : Placement} {u : State}
  {b : UInt8}

lemma Wrong.grows (grows : Grows s t) (wrong : Wrong s p) : Wrong t p := by
  obtain ⟨j, c, c', here, should, differ⟩ := wrong
  exact ⟨j, c, c', getElem?_grows grows here, should, differ⟩

lemma wrong_of_untagged (tagged : Tagged p.cells)
    (here : (s.streams p.segment).file[p.address]? = some (b, none)) : Wrong s p := by
  obtain ⟨b', n, first⟩ := tagged
  exact ⟨0, _, _, here, first, fun same => nomatch congrArg Prod.snd same⟩

lemma Spoilt.grows (grows : Grows s t) (spoilt : Spoilt s) : Spoilt t := by
  rcases spoilt with missing | ⟨p, inside, wrong⟩ | ⟨h, i, b, held, item, here⟩
  · exact .inl (Int.lt_of_lt_of_le missing grows.lost)
  · obtain ⟨ps, items⟩ := grows.items
    exact .inr (.inl ⟨p, items ▸ mem_append_left _ inside, wrong.grows grows⟩)
  · have still := getElem?_grows grows here
    rcases grows.held h i held item with same | ⟨p, inside, text, place, tagged⟩
    · exact .inr (.inr ⟨h, i, b, same, item, still⟩)
    · refine .inr (.inl ⟨p, inside, wrong_of_untagged (b := b) tagged ?_⟩)
      rw [text, place]
      exact still

lemma not_stored_of_wrong (wrong : Wrong s p) : ¬ Stored s p := by
  rintro stored
  obtain ⟨j, c, c', here, should, differ⟩ := wrong
  obtain ⟨inside, -⟩ := List.getElem?_eq_some_iff.mp should
  rw [← stored, getElem?_take, if_pos inside, getElem?_drop, here] at should
  exact differ (some.inj should)

lemma not_complete_of_spoilt (spoilt : Spoilt s) : ¬ Complete s := by
  intro complete
  rcases spoilt with missing | ⟨p, inside, wrong⟩ | ⟨h, i, b, held, item, here⟩
  · have length := complete.length .text nofun
    rw [Assembler.missing] at missing
    omega
  · exact not_stored_of_wrong wrong (complete.stored p (mem_append_left _ inside))
  · have inside : ⟨.text, i.2, h.cells⟩ ∈ s.assembled := by
      rw [State.assembled, held]
      apply mem_append_right
      simp [held_items item]
    exact not_stored_of_wrong (wrong_of_untagged (held_tagged item) here) (complete.stored _ inside)

/-! ### How the files are spoilt -/

lemma missing_zero (inv : Inv s) : missing s = 0 := by
  have length := inv.length .text nofun
  rw [missing]
  omega

/-- What is held goes to the file of another segment. -/
lemma spoilt_flush (inv : Inv s) (away : ¬ AtHome s) (done : reorder_flush s = some t) :
    Spoilt t := by
  rcases flush_cases done with ⟨none, -⟩ | ⟨h, held, -, rfl⟩
  · exact absurd (.inl none) away
  · left
    rw [missing_flushed held, missing_zero inv, if_neg fun text => away (.inr text)]
    decide

/-- Padding stands where the label is. -/
lemma align_untagged (inv : Inv s) (free : s.held = none ∨ s.segm ≠ .text)
    (open_ : s.segm ≠ .bss) (bits : ℕ) (off : s.count % 2 ^ bits ≠ 0)
    (done : align s bits = some t) : (t.streams s.segm).file[s.count]? = some (0, none) := by
  have more : 0 < (2 ^ bits - s.count % 2 ^ bits) % 2 ^ bits := by
    rw [Nat.mod_eq_of_lt (by omega)]
    omega
  rw [align, zeroes, if_neg open_] at done
  obtain ⟨rfl, -⟩ := write_eq done
  rw [put_current, ← (current_length inv open_ free).1]
  rw [getElem?_append_right (Nat.le_refl _), Nat.sub_self]
  simp only [getElem?_replicate]
  rw [if_pos]
  rwa [(current_length inv open_ free).1]

lemma emitword_open {place : Option ℕ}
    (done : emitword s e place instruction = some t) : s.segm ≠ .bss := by
  rcases emitword_cases done with ⟨-, text, -⟩ | ⟨-, open_, -⟩
  · rw [text]
    nofun
  · exact open_

/-- A word whose place is taken by padding, now or when the held word has been put out. -/
lemma spoilt_emitword {a : ℕ} (held : s.segm = .text → ∀ u, reorder_flush s = some u →
      (u.streams .text).file[a]? = some (b, none))
    (now : ¬ (s.mode_reorder = true ∧ s.segm = .text) →
      (s.streams s.segm).file[a]? = some (b, none))
    (done : emitword s e (some a) instruction = some t) : Spoilt t := by
  have grows := grows_emitword done
  rcases emitword_cases done with ⟨-, text, u, flush, rfl⟩ | ⟨mode, -, rfl⟩
  · refine .inr (.inr ⟨_, (s.serial, a), b, rfl, rfl, ?_⟩)
    exact getElem?_grows (grows_holding (flush_held flush) ((flush_segm flush).trans text) _)
      (held text u flush)
  · refine .inr (.inl ⟨_, mem_append_right _ mem_cons_self, ?_⟩)
    exact wrong_of_untagged (tagged_cells _ _) (getElem?_grows grows (now mode))

section

variable (inv : Inv s) (text : s.segm = .text) (off : s.count % 4 ≠ 0) (held : s.held = some h)
include inv text off held

/-- In a text segment that is not aligned only padding can be held. -/
lemma held_padding :
    h.item = none ∧ h.cells = cells 0 none ∧ (s.streams .text).file.length + 4 = s.count ∧
      s.mode_reorder = true := by
  have count : s.count = (s.streams .text).count := by rw [State.count, text]
  have length := inv.length .text (by simp)
  rw [pending_some held] at length
  have none : h.item = none := by
    cases item : h.item with
    | none => rfl
    | some i =>
      obtain ⟨-, whole, -⟩ := inv.item h i held item
      omega
  refine ⟨none, ?_, by omega, ?_⟩
  · rw [Held.cells, none, (inv.padding h held none).1]
    rfl
  · cases mode : s.mode_reorder with
    | true => rfl
    | false => cases held.symm.trans (inv.mode mode)

/-- The text file after an alignment with padding held. -/
lemma align_held (done : align s 2 = some t) : t.segm = .text ∧ t.held = some h ∧
      (t.streams .text).file.length = s.count - s.count % 4 := by
  obtain ⟨segm, same, -, -, -, -⟩ := zeroes_same done
  obtain ⟨-, -, length, -⟩ := held_padding inv text off held
  refine ⟨segm.trans text, same.trans held, ?_⟩
  rw [align, zeroes, if_neg (by simp [text])] at done
  obtain ⟨rfl, -⟩ := write_eq done
  have current := put_current s (replicate ((2 ^ 2 - s.count % 2 ^ 2) % 2 ^ 2) (0, none))
    (if s.segm = .bss then [] else crossings s.count
      (replicate ((2 ^ 2 - s.count % 2 ^ 2) % 2 ^ 2) ((0 : UInt8), (none : Option ℕ))).length)
    (replicate ((2 ^ 2 - s.count % 2 ^ 2) % 2 ^ 2) ((0 : UInt8), (none : Option ℕ))).length
  rw [text] at current
  rw [text, current]
  simp only [length_append, length_replicate]
  omega

/-- The place of an instruction behind held padding is taken by that. -/
lemma flush_untagged (done : align s 2 = some t)
    (flush : reorder_flush t = some u) : (u.streams .text).file[s.count]? = some (0, none) := by
  obtain ⟨text', held', length⟩ := align_held inv text off held done
  obtain ⟨-, zero, -, -⟩ := held_padding inv text off held
  rcases flush_cases flush with ⟨none, -⟩ | ⟨h', same, -, rfl⟩
  · exact nomatch held'.symm.trans none
  · cases some.inj (held'.symm.trans same)
    have current := put_current t h.cells [h.rel] 0
    rw [text'] at current
    change ((t.put h.cells [h.rel] 0).streams .text).file[s.count]? = _
    rw [current, zero, getElem?_append_right (by omega), length]
    obtain one | two | three : s.count - (s.count - s.count % 4) = 1 ∨
      s.count - (s.count - s.count % 4) = 2 ∨ s.count - (s.count - s.count % 4) = 3 := by omega
    · rw [one]
      rfl
    · rw [two]
      rfl
    · rw [three]
      rfl

end

/-- An instruction that is aligned does not stand where its label is. -/
lemma spoilt_instr (inv : Inv s) (off : s.count % 4 ≠ 0) (aligned : align s 2 = some u)
    (done : emitword u e (some s.count) instruction = some t) : Spoilt t := by
  obtain ⟨segm, -, mode, -, -, -⟩ := zeroes_same aligned
  have open_ : s.segm ≠ .bss := segm ▸ emitword_open done
  by_cases free : s.held = none ∨ s.segm ≠ .text
  · have here := align_untagged inv free open_ 2 off aligned
    rw [← segm] at here
    refine spoilt_emitword (fun text v flush => ?_) (fun _ => here) done
    rw [text] at here
    exact getElem?_grows (grows_flush flush) here
  · rw [not_or, not_not] at free
    obtain ⟨h, held⟩ := ne_none_iff_exists'.mp free.1
    obtain ⟨-, -, -, reorder⟩ := held_padding inv free.2 off held
    refine spoilt_emitword (b := 0) (fun _ v flush => ?_) (fun off' => ?_) done
    · exact flush_untagged inv free.2 off held aligned flush
    · exact absurd ⟨mode.trans reorder, segm.trans free.2⟩ off'

/-! ### Branches -/

lemma slotted_file (text : s.segm = .text) (b : Branch) (a n : ℕ) (h : Held) :
    ((slotted s b a n h).streams .text).file =
      (s.streams .text).file ++ (cells b.word (some n) ++ h.cells) := by
  have current := put_current s (cells b.word (some n) ++ h.cells) [b.rel, h.rel] 4
  rw [text] at current
  change ((s.put _ _ 4).streams .text).file = _
  rw [current]

/-- A branch that is aligned does not stand where its label is, with padding in its delay slot. -/
lemma spoilt_slotted_padding (inv : Inv s) (text : s.segm = .text) (off : s.count % 4 ≠ 0)
    (held : s.held = some h) (aligned : align s 2 = some u) (b : Branch)
    (n : ℕ) : Spoilt (slotted u b s.count n h) := by
  obtain ⟨text', -, length⟩ := align_held inv text off held aligned
  obtain ⟨item, zero, -, -⟩ := held_padding inv text off held
  refine .inr (.inl ⟨⟨.text, s.count, cells b.word (some n)⟩, ?_, 4 - s.count % 4, ?_⟩)
  · apply mem_append_right
    rw [slotItems, item]
    exact mem_cons_self
  have tagged : ∃ c, (cells b.word (some n))[4 - s.count % 4]? = some (c, some n) := by
    obtain one | two | three : 4 - s.count % 4 = 1 ∨ 4 - s.count % 4 = 2 ∨ 4 - s.count % 4 = 3 := by
      omega
    · exact ⟨_, by rw [one]; rfl⟩
    · exact ⟨_, by rw [two]; rfl⟩
    · exact ⟨_, by rw [three]; rfl⟩
  obtain ⟨c, should⟩ := tagged
  refine ⟨(0, none), (c, some n), ?_, should, fun same => by cases congrArg Prod.snd same⟩
  have place : s.count + (4 - s.count % 4) = (u.streams .text).file.length + 4 := by omega
  simp only [slotted_file text', place]
  rw [getElem?_append_right (Nat.le_add_right _ _), Nat.add_sub_cancel_left, zero]
  rfl

lemma spoilt_branch (inv : Inv s) (off : s.count % 4 ≠ 0) {b : Branch}
    (aligned : align s 2 = some u) (done : branch u b s.count = some t) : Spoilt t := by
  obtain ⟨segm, same, -, -, -, -⟩ := zeroes_same aligned
  rw [branch] at done
  split_ifs at done with mode
  · have text : s.segm = .text := segm.symm.trans mode.2
    rcases delayed_cases done with ⟨v, flush, -, rfl⟩ | ⟨h, held, -, rfl⟩
    · refine .inr (.inl ⟨⟨.text, s.count, cells b.word (some u.serial)⟩,
        mem_append_right _ mem_cons_self, wrong_of_untagged (b := 0) (tagged_cells _ _) ?_⟩)
      apply getElem?_grows (grows_put v [b.rel, relabs] (Nat.le_refl 8) _ _)
      cases held : s.held with
      | none =>
        have here := align_untagged inv (.inl held) (by simp [text]) 2 off aligned
        rw [text] at here
        exact getElem?_grows (grows_flush flush) here
      | some h => exact flush_untagged inv text off held aligned flush
    · exact spoilt_slotted_padding inv text off (same ▸ held) aligned b u.serial
  · exact spoilt_instr inv off aligned done

/-- A word that is no instruction is moved into a delay slot. -/
lemma spoilt_slotted (inv : Inv s) (text : s.segm = .text) (held : s.held = some h)
    (data : h.instruction = false) (b : Branch) : Spoilt (slotted s b s.count s.serial h) := by
  have length := inv.length .text nofun
  rw [pending_some held] at length
  have count : s.count = (s.streams .text).count := by rw [State.count, text]
  cases item : h.item with
  | none =>
    refine .inr (.inl ⟨⟨.text, s.count, cells b.word (some s.serial)⟩, ?_,
      wrong_of_untagged (b := UInt8.ofNat h.word) (tagged_cells _ _) ?_⟩)
    · apply mem_append_right
      rw [slotItems, item]
      exact mem_cons_self
    · have place : s.count = (s.streams .text).file.length + 4 := by omega
      simp only [slotted_file text, place]
      rw [getElem?_append_right (Nat.le_add_right _ _), Nat.add_sub_cancel_left, Held.cells, item]
      rfl
  | some i =>
    obtain ⟨place, -, number⟩ := inv.item h i held item
    refine .inr (.inl ⟨⟨.text, i.2, h.cells⟩, ?_, 0, (UInt8.ofNat b.word, some s.serial),
      (UInt8.ofNat h.word, some i.1), ?_, ?_, ?_⟩)
    · apply mem_append_right
      rw [slotItems, item]
      simp only [data]
      exact mem_cons_self
    · have place : i.2 + 0 = (s.streams .text).file.length := by omega
      simp only [slotted_file text, place]
      rw [getElem?_append_right (Nat.le_refl _), Nat.sub_self]
      rfl
    · simp only [Held.cells, item]
      rfl
    · intro same
      have : s.serial = i.1 := some.inj (congrArg Prod.snd same)
      omega

/-! ### Statements -/

lemma spoilt_emits (inv : Inv s) (off : s.count % 4 ≠ 0)
    {es : List Emit} (aligned : align s 2 = some u)
    (done : emits instruction s.count (e :: es) u = some t) : Spoilt t := by
  obtain ⟨v, first, rest⟩ := bind_eq_some_iff.mp done
  exact (spoilt_instr inv off aligned first).grows (grows_emits rest)

/-- Bytes that are aligned do not stand where their label is. -/
lemma spoilt_bytes (inv : Inv s) (vacant : s.held = none) (bits : ℕ)
    (off : s.count % 2 ^ bits ≠ 0) {bs : List UInt8}
    (first : bs[0]? = some b) (aligned : align s bits = some u)
    (done : bytes u s.count bs = some t) : Spoilt t := by
  obtain ⟨segm, -, -, -, -, -⟩ := zeroes_same aligned
  have grows := grows_bytes done
  obtain ⟨v, space, rfl⟩ := map_eq_some_iff.mp done
  have open_ : s.segm ≠ .bss := by
    intro bss
    obtain ⟨-, closed⟩ := write_eq space
    have empty := (closed (segm.trans bss)).1
    rw [map_eq_nil_iff.mp empty] at first
    exact nomatch first
  have here := align_untagged inv (.inl vacant) open_ bits off aligned
  rw [← segm] at here
  refine .inr (.inl ⟨⟨u.segm, s.count, _⟩, mem_append_right _ mem_cons_self,
    wrong_of_untagged ⟨b, u.serial, ?_⟩ (getElem?_grows grows here)⟩)
  rw [getElem?_map, first]
  rfl

lemma spoilt_of_unclean (inv : Inv s) {stmt : Stmt} (unclean : ¬ Clean s stmt)
    (done : assemble s stmt = some t) : Spoilt t := by
  by_cases away : stmt.flushes = true ∧ ¬ AtHome s
  · obtain ⟨u, flush, grows⟩ := flushes_first away.1 done
    exact (spoilt_flush inv away.2 flush).grows grows
  have home : stmt.flushes = true → AtHome s := fun flushes => by_contra fun h => away ⟨flushes, h⟩
  cases stmt with
  | instr first more =>
    have off : s.count % 4 ≠ 0 := fun whole => unclean ⟨home, whole⟩
    obtain ⟨u, aligned, rest⟩ := bind_eq_some_iff.mp done
    exact spoilt_emits inv off aligned rest
  | branch b =>
    obtain ⟨u, aligned, rest⟩ := bind_eq_some_iff.mp done
    by_cases off : s.count % 4 ≠ 0
    · exact spoilt_branch inv off aligned rest
    · have whole : s.count % 4 = 0 := not_not.mp off
      have moved : ¬ (s.mode_reorder = true → s.segm = .text →
          ∀ h, s.held = some h → b.depends h = false → h.instruction = true) :=
        fun all => unclean ⟨home, whole, all⟩
      push Not at moved
      obtain ⟨mode, text, h, held, free, data⟩ := moved
      rw [align_whole whole] at aligned
      cases some.inj aligned
      rw [branch, if_pos ⟨mode, text⟩] at rest
      rcases delayed_cases rest with ⟨-, -, depends, -⟩ | ⟨h', same, -, rfl⟩
      · cases free.symm.trans (depends h held)
      · cases some.inj (held.symm.trans same)
        exact spoilt_slotted inv text held (Bool.not_eq_true _ ▸ data) b
  | word first more =>
    have off : s.count % 4 ≠ 0 := fun whole => unclean ⟨home, whole⟩
    obtain ⟨u, flush, rest⟩ := bind_eq_some_iff.mp done
    obtain ⟨v, aligned, rest⟩ := bind_eq_some_iff.mp rest
    rw [← flush_count flush] at off rest
    exact spoilt_emits (inv_flush inv (home rfl) flush) off aligned rest
  | half first more =>
    have off : s.count % 2 ≠ 0 := fun whole => unclean ⟨home, whole⟩
    obtain ⟨u, flush, rest⟩ := bind_eq_some_iff.mp done
    obtain ⟨v, aligned, rest⟩ := bind_eq_some_iff.mp rest
    rw [← flush_count flush] at off rest
    exact spoilt_bytes (inv_flush inv (home rfl) flush) (flush_held flush) 1 off rfl aligned rest
  | label | assign | text | data | strng | bss | sect | byte | space | align | ascii | reorder
  | other => exact absurd ⟨home, trivial⟩ unclean

/-! ### The whole input -/

lemma grows_finish (done : finish s = some t) : ∃ u, reorder_flush s = some u ∧ Grows u t := by
  obtain ⟨u, flush, rest⟩ := bind_eq_some_iff.mp done
  obtain ⟨u₁, text, rest⟩ := bind_eq_some_iff.mp rest
  obtain ⟨u₂, data, rest⟩ := bind_eq_some_iff.mp rest
  obtain ⟨u₃, strng, bss⟩ := bind_eq_some_iff.mp rest
  have step {x y : State} {g : Segment} (done : align { x with segm := g } 2 = some y) : Grows x y :=
    (grows_segm x g _).trans (grows_zeroes done)
  exact ⟨u, flush, (step text).trans ((step data).trans ((step strng).trans (step bss)))⟩

def close (s : State) : Ending → Option State
  | .newline => finish s
  | .statement => some s

lemma complete_close (inv : Inv s) (done : close s ending = some t) :
    Complete t ↔ CleanEnd s ending := by
  cases ending with
  | newline =>
    constructor
    · intro complete
      by_contra away
      obtain ⟨u, flush, grows⟩ := grows_finish done
      exact not_complete_of_spoilt ((spoilt_flush inv away flush).grows grows) complete
    · intro home
      exact complete_finish inv home done
  | statement =>
    cases done
    constructor
    · intro complete
      refine ⟨?_, complete.whole⟩
      by_contra held
      obtain ⟨h, held⟩ := ne_none_iff_exists'.mp held
      have length := inv.length .text nofun
      rw [pending_some held, complete.length .text nofun] at length
      omega
    · rintro ⟨vacant, whole⟩
      exact complete_of_inv inv vacant whole

lemma grows_assembleAll {stmts : List Stmt} (done : assembleAll s stmts = some t) : Grows s t := by
  induction stmts generalizing s with
  | nil =>
    cases done
    exact .refl _
  | cons stmt stmts ih =>
    obtain ⟨u, first, rest⟩ := bind_eq_some_iff.mp done
    exact (grows_assemble first).trans (ih rest)

lemma grows_close (done : close s ending = some t) : Grows s t := by
  cases ending with
  | newline =>
    obtain ⟨u, flush, rest⟩ := grows_finish done
    exact (grows_flush flush).trans rest
  | statement =>
    cases done
    exact .refl _

/-- From any state that clean statements can leave. -/
lemma complete_assembleAll {stmts : List Stmt} (inv : Inv s)
    (done : (assembleAll s stmts).bind (close · ending) = some t) :
    Complete t ↔ CleanInput s stmts ending := by
  induction stmts generalizing s with
  | nil => exact complete_close inv done
  | cons stmt stmts ih =>
    rw [assembleAll, bind_assoc] at done
    obtain ⟨u, first, rest⟩ := bind_eq_some_iff.mp done
    by_cases clean : Clean s stmt
    · rw [ih (inv_clean inv clean first) rest]
      constructor
      · intro later
        refine ⟨clean, fun v same => ?_⟩
        cases some.inj (first.symm.trans same)
        exact later
      · intro all
        exact all.2 u first
    · obtain ⟨v, all, last⟩ := bind_eq_some_iff.mp rest
      have spoilt := (spoilt_of_unclean inv clean first).grows
        ((grows_assembleAll all).trans (grows_close last))
      exact ⟨fun complete => absurd complete (not_complete_of_spoilt spoilt),
        fun all => absurd all.1 clean⟩

lemma inv_startup : Inv startup where
  length _ _ := by
    rw [pending_none rfl]
    rfl
  records _ _ := by
    rw [pending_none rfl]
    exact (Nat.zero_div 4).symm
  stored := nofun
  mode := nofun
  item := nofun
  padding := nofun

/-- At the end of the first pass every segment has whole words, its file holds as many bytes as
were counted, its records are as many as the words, and every item stands where a label in
front of it would, if and only if every statement of the input, and its end, is clean. -/
theorem streams_complete_iff {stmts : List Stmt} {ending : Ending}
    (done : pass1 stmts ending = some t) : Complete t ↔ CleanInput startup stmts ending := by
  apply complete_assembleAll inv_startup
  rw [← done]
  cases ending <;> rfl

/-- A program of one instruction. -/
theorem streams_complete_one_instruction :
    ∃ t, pass1 [.instr ⟨0x24020001, relabs, 2⟩ []] .newline = some t ∧ Complete t := by
  have done : pass1 [.instr ⟨0x24020001, relabs, 2⟩ []] .newline = some _ := rfl
  refine ⟨_, done, (streams_complete_iff done).mpr ⟨⟨nofun, rfl⟩, fun t next => ?_⟩⟩
  cases next
  exact .inr rfl

/-- An instruction in the text segment, then a word in the data segment: the instruction is
written into the data file. -/
theorem instruction_lost_in_data :
    ∃ t, pass1 [.instr ⟨0x24020001, relabs, 2⟩ [], .data, .word (7, relabs) []] .newline = some t ∧
      ¬ Complete t := by
  refine ⟨_, rfl, fun complete => ?_⟩
  exact absurd (complete.length .text nofun) (by decide)

end Assembler
