import RetroBSD.AssemblerStreams

/-!
# The files after the first pass

What a clean statement keeps, and how the files are complete at the end of a clean input.
-/

namespace Assembler

open List
open Option hiding or_self

variable {s t : State}

/-- The files hold what was counted, but for the word that is held; a held item is to follow
directly, and all other items are in place. -/
structure Inv (s : State) : Prop where
  length : ∀ g ≠ .bss, (s.streams g).file.length + 4 * pending s g = (s.streams g).count
  records : ∀ g ≠ .bss, (s.streams g).rel.length + pending s g = (s.streams g).count / 4
  stored : ∀ p ∈ s.items, Stored s p
  mode : s.mode_reorder = false → s.held = none
  item : ∀ h i, s.held = some h → h.item = some i →
    i.2 + 4 = (s.streams .text).count ∧ (s.streams .text).count % 4 = 0 ∧ i.1 < s.serial
  padding : ∀ h, s.held = some h → h.item = none →
    h.word = 0 ∧ h.clobber = 0 ∧ h.instruction = false

/-- A stream holds what it has counted, but for `k` words. -/
structure Counted (st : Stream) (k : ℕ) : Prop where
  length : st.file.length + 4 * k = st.count
  records : st.rel.length + k = st.count / 4

lemma Inv.of_counted (counted : ∀ g ≠ .bss, Counted (s.streams g) (pending s g))
    (stored : ∀ p ∈ s.items, Stored s p) (mode : s.mode_reorder = false → s.held = none)
    (item : ∀ h i, s.held = some h → h.item = some i →
      i.2 + 4 = (s.streams .text).count ∧ (s.streams .text).count % 4 = 0 ∧ i.1 < s.serial)
    (padding : ∀ h, s.held = some h → h.item = none →
      h.word = 0 ∧ h.clobber = 0 ∧ h.instruction = false) : Inv s :=
  ⟨fun g open_ => (counted g open_).length, fun g open_ => (counted g open_).records, stored, mode,
    item, padding⟩

lemma pending_none (none : s.held = none) (g : Segment) : pending s g = 0 := by
  rw [pending, none]
  exact if_neg fun both => by cases both.2

lemma pending_other {g : Segment} (other : g ≠ .text) : pending s g = 0 :=
  if_neg fun both => other both.1

variable {instruction : Bool} {b : Branch} {e : Emit} {h : Held} {place : Option ℕ} {n : ℕ}

lemma pending_some (held : s.held = some h) : pending s .text = 1 := by
  rw [pending, held]
  rfl

/-! ### Items stay in place -/

lemma stored_append {p : Placement} {x y : List Cell}
    (here : (x.drop p.address).take p.cells.length = p.cells) :
    ((x ++ y).drop p.address).take p.cells.length = p.cells := by
  have enough : p.cells.length ≤ (x.drop p.address).length := by
    have := congrArg length here
    rw [length_take] at this
    omega
  rcases Nat.eq_zero_or_pos p.cells.length with empty | full
  · rw [empty] at here ⊢
    exact here
  · rw [length_drop] at enough
    rw [drop_append_of_le_length (by omega), take_append_of_le_length (by
      rw [length_drop]
      exact enough)]
    exact here

lemma stored_grows (grows : Grows s t) {p : Placement} (here : Stored s p) : Stored t p := by
  obtain ⟨cs, file⟩ := grows.file p.segment
  rw [Stored, file]
  exact stored_append here

lemma stored_end {x y z : List Cell} : ((x ++ (y ++ z)).drop x.length).take y.length = y := by
  rw [drop_left' rfl, take_left' rfl]

/-! ### Writing what is counted -/

lemma current_length (inv : Inv s) (open_ : s.segm ≠ .bss) (free : s.held = none ∨ s.segm ≠ .text) :
    (s.streams s.segm).file.length = s.count ∧ (s.streams s.segm).rel.length = s.count / 4 := by
  have none : pending s s.segm = 0 := free.elim (fun h => pending_none h _) pending_other
  have length := inv.length s.segm open_
  have records := inv.records s.segm open_
  rw [none] at length records
  exact ⟨length, records⟩

/-- Bytes and records are put into the current segment, and the others stay. -/
lemma counted_put {u : State} {cs : List Cell} {rs : List Reloc} (inv : Inv s)
    (streams : u.streams = (s.put cs rs n).streams)
    (others : ∀ g ≠ s.segm, pending u g = pending s g)
    (here : s.segm ≠ .bss → cs.length + 4 * pending u s.segm = n + 4 * pending s s.segm ∧
      rs.length + pending u s.segm + s.count / 4 = (s.count + n) / 4 + pending s s.segm) :
    ∀ g ≠ .bss, Counted (u.streams g) (pending u g) := by
  intro g open_
  have old : Counted (s.streams g) (pending s g) := ⟨inv.length g open_, inv.records g open_⟩
  rw [streams]
  by_cases same : g = s.segm
  · subst same
    obtain ⟨bytes, words⟩ := here open_
    obtain ⟨length, records⟩ := old
    simp only [State.count] at words
    rw [put_current]
    constructor
    · simp only [length_append]
      omega
    · simp only [length_append]
      omega
  · rw [put_other _ _ _ _ same, others g same]
    exact old

/-- Bytes and records are written as they are counted, with the items in them. -/
lemma inv_put (inv : Inv s) (free : s.held = none ∨ s.segm ≠ .text) (cs : List Cell)
    (rs : List Reloc) (records : s.segm ≠ .bss → s.count / 4 + rs.length = (s.count + cs.length) / 4)
    (ps : List Placement) (k : ℕ) (later : s.serial ≤ k)
    (new : ∀ p ∈ ps, s.segm ≠ .bss → (s.streams s.segm).file.length = s.count → p.segment = s.segm ∧
        (((s.streams s.segm).file ++ cs).drop p.address).take p.cells.length = p.cells)
    (empty : s.segm = .bss → ∀ p ∈ ps, p.cells = []) :
    Inv { s.put cs rs cs.length with items := s.items ++ ps, serial := k } := by
  refine .of_counted (counted_put inv rfl (fun _ _ => rfl) fun open_ => ⟨rfl, ?_⟩)
    (fun p inside => ?_) inv.mode ?_ inv.padding
  · have more := records open_
    change rs.length + pending s s.segm + _ = _ + pending s s.segm
    omega
  · rcases mem_append.mp inside with old | added
    · exact stored_grows (grows_put s rs (Nat.le_refl _) ps k) (inv.stored p old)
    · by_cases bss : s.segm = .bss
      · rw [Stored, empty bss p added]
        rfl
      · obtain ⟨here, place⟩ := new p added bss (current_length inv bss free).1
        rw [Stored, here]
        have := put_current s cs rs cs.length
        simp only [this]
        exact place
  · intro h i held item
    obtain ⟨place, whole, number⟩ := inv.item h i held item
    have elsewhere : .text ≠ s.segm := by
      rcases free with none | other
      · exact nomatch none.symm.trans held
      · exact other.symm
    have same := put_other s cs rs cs.length elsewhere
    simp only [same]
    exact ⟨place, whole, Nat.lt_of_lt_of_le number later⟩

/-! ### The held word -/

lemma flush_same (done : reorder_flush s = some t) :
    t.segm = s.segm ∧ t.mode_reorder = s.mode_reorder ∧ t.serial = s.serial ∧
      ∀ g, (t.streams g).count = (s.streams g).count := by
  rcases flush_cases done with ⟨-, rfl⟩ | ⟨h, -, -, rfl⟩
  · exact ⟨rfl, rfl, rfl, fun _ => rfl⟩
  · refine ⟨rfl, rfl, rfl, fun g => ?_⟩
    change ((s.put h.cells [h.rel] 0).streams g).count = _
    by_cases here : g = s.segm
    · rw [here, put_current]
      rfl
    · rw [put_other _ _ _ _ here]

lemma flush_count (done : reorder_flush s = some t) : t.count = s.count := by
  obtain ⟨segm, -, -, count⟩ := flush_same done
  rw [State.count, State.count, segm, count]

lemma inv_flush (inv : Inv s) (home : AtHome s) (done : reorder_flush s = some t) : Inv t := by
  rcases flush_cases done with ⟨-, rfl⟩ | ⟨h, held, -, rfl⟩
  · exact inv
  · have text : s.segm = .text := home.resolve_left fun none => by cases held.symm.trans none
    have one := pending_some held
    have current := put_current s h.cells [h.rel] 0
    have after : ∀ g, pending (flushed s h) g = 0 := fun g => pending_none rfl g
    have streams : (flushed s h).streams = (s.put h.cells [h.rel] 0).streams := rfl
    refine .of_counted (counted_put inv streams (fun g other => ?_) (fun _ => ?_))
      (fun p inside => ?_) (fun _ => rfl) (fun _ _ same => by cases same) (fun _ same => by cases same)
    · rw [after, pending_other (text ▸ other)]
    · rw [text, one]
      exact ⟨rfl, Nat.add_comm ..⟩
    · rcases mem_append.mp inside with old | new
      · exact stored_grows (grows_flush done) (inv.stored p old)
      · cases item : h.item with
        | none =>
          rw [Held.items, item] at new
          cases new
        | some i =>
          rw [held_items item, mem_singleton] at new
          subst new
          obtain ⟨place, -, -⟩ := inv.item h i held item
          have length := inv.length .text (by simp)
          have last : i.2 = (s.streams .text).file.length := by omega
          change (((s.put h.cells [h.rel] 0).streams .text).file.drop i.2).take h.cells.length = h.cells
          rw [← text, current, last, text, ← append_nil h.cells]
          exact stored_end

/-- An item is emitted where a label in front of it would be; other words are zero. -/
structure Fit (s : State) (e : Emit) (place : Option ℕ) (instruction : Bool) : Prop where
  item : ∀ a, place = some a → a = s.count ∧ s.count % 4 = 0
  padding : place = none → e.word = 0 ∧ e.clobber = 0 ∧ instruction = false

lemma heldOf_item {i : ℕ × ℕ}
    (item : (heldOf s e place instruction).item = some i) : place = some i.2 ∧ i.1 = s.serial := by
  obtain ⟨a, same, rfl⟩ := map_eq_some_iff.mp item
  exact ⟨same, rfl⟩

lemma inv_holding (inv : Inv s) (vacant : s.held = none) (text : s.segm = .text)
    (mode : s.mode_reorder = true)
    (item : ∀ i, h.item = some i → i.2 = s.count ∧ s.count % 4 = 0 ∧ i.1 ≤ s.serial)
    (padding : h.item = none → h.word = 0 ∧ h.clobber = 0 ∧ h.instruction = false) :
    Inv (holding s h) := by
  have current := put_current s [] [] 4
  rw [text] at current
  have streams : (holding s h).streams = (s.put [] [] 4).streams := rfl
  have count : s.count = (s.streams .text).count := by rw [State.count, text]
  refine .of_counted (counted_put inv streams (fun g other => ?_) (fun _ => ?_))
    (fun p inside => ?_) (fun off => ?_) ?_ ?_
  · rw [pending_other (text ▸ other), pending_other (text ▸ other)]
  · have one : pending (holding s h) .text = 1 := rfl
    rw [pending_none vacant, text]
    exact ⟨rfl, by simp only [length_nil]; omega⟩
  · exact stored_grows (grows_holding vacant text h) (inv.stored p inside)
  · exact nomatch mode.symm.trans off
  · intro h' i held given
    cases some.inj held
    obtain ⟨place, whole, number⟩ := item i given
    rw [streams, current]
    refine ⟨?_, ?_, Nat.lt_succ_of_le number⟩
    · change i.2 + 4 = (s.streams .text).count + 4
      omega
    · change ((s.streams .text).count + 4) % 4 = 0
      omega
  · intro h' held given
    cases some.inj held
    exact padding given

/-- What a word put out leaves as it is, and how it counts. -/
lemma emitword_count (done : emitword s e place instruction = some t) : t.count = s.count + 4 := by
  rcases emitword_cases done with ⟨-, -, u, flush, rfl⟩ | ⟨-, -, rfl⟩
  · rw [← flush_count flush]
    exact congrArg Stream.count (put_current u [] [] 4)
  · exact congrArg Stream.count (put_current s _ _ 4)

lemma inv_emitword (inv : Inv s)
    (fit : Fit s e place instruction) (done : emitword s e place instruction = some t) : Inv t := by
  rcases emitword_cases done with ⟨mode, text, u, flush, rfl⟩ | ⟨mode, open_, rfl⟩
  · obtain ⟨segm, mode', serial, -⟩ := flush_same flush
    refine inv_holding (inv_flush inv (.inr text) flush) (flush_held flush) (segm.trans text)
      (mode'.trans mode) ?_ ?_
    · intro i item
      obtain ⟨here, number⟩ := heldOf_item item
      obtain ⟨place, whole⟩ := fit.item _ here
      rw [flush_count flush]
      exact ⟨place, whole, by omega⟩
    · intro item
      exact fit.padding (map_eq_none_iff.mp item)
  · have free : s.held = none ∨ s.segm ≠ .text := by
      by_cases text : s.segm = .text
      · left
        apply inv.mode
        cases off : s.mode_reorder with
        | false => rfl
        | true => exact absurd ⟨off, text⟩ mode
      · exact .inr text
    refine inv_put inv free (heldOf s e place instruction).cells _ (fun _ => ?_) _ _
      (Nat.le_succ _) ?_ (fun bss => absurd bss open_)
    · change s.count / 4 + 1 = (s.count + 4) / 4
      omega
    · intro p inside _ length
      obtain ⟨i, given, rfl⟩ := mem_map.mp inside
      obtain ⟨here, -⟩ := heldOf_item (mem_toList.mp given)
      refine ⟨rfl, ?_⟩
      rw [(fit.item _ here).1, ← length]
      have whole := stored_end (x := (s.streams s.segm).file)
        (y := (heldOf s e place instruction).cells) (z := [])
      rwa [append_nil] at whole

lemma inv_emits (inv : Inv s) {a : ℕ} {es : List Emit} (here : a = s.count)
    (whole : s.count % 4 = 0) (done : emits instruction a es s = some t) : Inv t := by
  induction es generalizing s a with
  | nil =>
    cases done
    exact inv
  | cons e es ih =>
    obtain ⟨u, first, rest⟩ := bind_eq_some_iff.mp done
    have fit : Fit s e (some a) instruction :=
      ⟨fun b same => ⟨(some.inj same).symm.trans here, whole⟩, nofun⟩
    have count := emitword_count first
    exact ih (inv_emitword inv fit first) rfl (by omega) rest

lemma inv_fill (inv : Inv s) (done : fill n s = some t) : Inv t := by
  induction n generalizing s with
  | zero =>
    cases done
    exact inv
  | succ n ih =>
    obtain ⟨u, first, rest⟩ := bind_eq_some_iff.mp done
    have fit : Fit s ⟨0, relabs, 0⟩ none false := ⟨nofun, fun _ => ⟨rfl, rfl, rfl⟩⟩
    exact ih (inv_emitword inv fit first) rest

/-! ### Bytes -/

lemma crossings_length (c n : ℕ) : c / 4 + (crossings c n).length = (c + n) / 4 := by
  induction n generalizing c with
  | zero => rfl
  | succ n ih =>
    have rest := ih (c + 1)
    rw [crossings, length_append]
    split_ifs with whole
    · simp only [length_singleton]
      omega
    · simp only [length_nil]
      omega

/-- The bss segment only counts. -/
lemma inv_bss (inv : Inv s) (bss : s.segm = .bss) (n : ℕ) : Inv (s.put [] [] n) := by
  refine .of_counted (counted_put inv rfl (fun _ _ => rfl) (fun open_ => absurd bss open_))
    (fun p inside => ?_) inv.mode ?_ inv.padding
  · obtain ⟨cs, file⟩ := file_put s [] [] n p.segment
    rw [Stored, file]
    exact stored_append (inv.stored p inside)
  · rw [put_other s [] [] n (bss ▸ nofun)]
    exact inv.item

lemma inv_bytes (inv : Inv s) (free : s.held = none ∨ s.segm ≠ .text) {bs : List UInt8}
    (done : bytes s s.count bs = some t) : Inv t := by
  obtain ⟨u, wrote, rfl⟩ := map_eq_some_iff.mp done
  obtain ⟨rfl, closed⟩ := write_eq wrote
  refine inv_put inv free _ _ (fun open_ => ?_) _ _ (Nat.le_succ _) ?_ fun bss p inside => ?_
  · rw [if_neg open_]
    exact crossings_length _ _
  · intro p inside _ length
    cases mem_singleton.mp inside
    refine ⟨rfl, ?_⟩
    rw [← length]
    have whole := stored_end (x := (s.streams s.segm).file)
      (y := bs.map fun b => (b, some s.serial)) (z := [])
    rwa [append_nil] at whole
  · cases mem_singleton.mp inside
    exact (closed bss).1

lemma inv_zeroes (inv : Inv s) (free : s.held = none ∨ s.segm ≠ .text)
    (done : zeroes s n none = some t) : Inv t := by
  rw [zeroes] at done
  split_ifs at done with bss
  · obtain ⟨rfl, -⟩ := write_eq done
    exact inv_bss inv bss n
  · obtain ⟨rfl, -⟩ := write_eq done
    have whole := inv_put inv free (replicate n (0, none)) _
      (fun _ => crossings_length _ _) [] s.serial (Nat.le_refl _) (by simp) (by simp)
    rw [if_neg bss]
    rw [append_nil] at whole
    exact whole

lemma zeroes_same {item : Option ℕ} (done : zeroes s n item = some t) :
    t.segm = s.segm ∧ t.held = s.held ∧ t.mode_reorder = s.mode_reorder ∧ t.serial = s.serial ∧
      t.count = s.count + n ∧ ∀ g ≠ s.segm, t.streams g = s.streams g := by
  rw [zeroes] at done
  split_ifs at done
  · obtain ⟨rfl, -⟩ := write_eq done
    refine ⟨rfl, rfl, rfl, rfl, congrArg Stream.count (put_current s [] [] n), ?_⟩
    exact fun g other => put_other _ _ _ _ other
  · obtain ⟨rfl, -⟩ := write_eq done
    refine ⟨rfl, rfl, rfl, rfl, ?_, fun g other => put_other _ _ _ _ other⟩
    have count := congrArg Stream.count (put_current s (replicate n (0, item))
      (if s.segm = .bss then [] else crossings s.count (replicate n ((0 : UInt8), item)).length)
      (replicate n ((0 : UInt8), item)).length)
    rw [length_replicate] at count ⊢
    exact count

/-- Nothing is to be done where the counter is aligned. -/
lemma align_whole {bits : ℕ} (whole : s.count % 2 ^ bits = 0) : align s bits = some s := by
  have zero : (2 ^ bits - s.count % 2 ^ bits) % 2 ^ bits = 0 := by
    rw [whole, Nat.sub_zero, Nat.mod_self]
  have same : s.put [] [] 0 = s := by
    simp only [State.put, Nat.add_zero, append_nil]
    rw [Function.update_eq_self]
  rw [align, zero, zeroes, add_space, replicate_zero]
  simp [write, crossings, same]

/-! ### Branches -/

/-- A branch that has taken an instruction into its delay slot. -/
lemma inv_slotted (inv : Inv s) (text : s.segm = .text) {i : ℕ × ℕ}
    (held : s.held = some h) (item : h.item = some i) (instruction : h.instruction = true) (n : ℕ) :
    Inv (slotted s b s.count n h) := by
  set cs := cells b.word _ ++ h.cells with shape
  have current := put_current s cs [b.rel, h.rel] 4
  rw [text] at current
  have streams : (slotted s b s.count n h).streams = (s.put cs [b.rel, h.rel] 4).streams := rfl
  have after : ∀ g, pending (slotted s b s.count n h) g = 0 := fun g => pending_none rfl g
  have one := pending_some held
  obtain ⟨place, -, -⟩ := inv.item h i held item
  have length := inv.length .text nofun
  have count : s.count = (s.streams .text).count := by rw [State.count, text]
  refine .of_counted (counted_put inv streams (fun g other => ?_) (fun _ => ?_))
    (fun p inside => ?_) (fun _ => rfl) nofun nofun
  · rw [after, pending_other (text ▸ other)]
  · rw [after, text, one]
    exact ⟨rfl, by simp only [length_cons, length_nil]; omega⟩
  · have file : ((slotted s b s.count n h).streams .text).file = (s.streams .text).file ++ cs := by
      rw [streams, current]
    rcases mem_append.mp inside with old | new
    · obtain ⟨ds, grown⟩ := file_put s cs [b.rel, h.rel] 4 p.segment
      rw [Stored, streams, grown]
      exact stored_append (inv.stored p old)
    · rw [slotItems, item] at new
      simp only [instruction, if_true, mem_cons, not_mem_nil, or_false] at new
      rcases new with rfl | rfl
      · rw [Stored, file]
        have first : i.2 = (s.streams .text).file.length := by omega
        rw [first]
        exact stored_end
      · rw [Stored, file, shape, ← append_assoc]
        have second : s.count = ((s.streams .text).file ++ cells b.word (some n)).length := by
          rw [length_append, cells_length]
          omega
        rw [second, ← append_nil h.cells]
        exact stored_end

lemma inv_delayed (inv : Inv s) (text : s.segm = .text)
    (clean : ∀ h, s.held = some h → b.depends h = false → h.instruction = true)
    (done : delayed s b s.count = some t) : Inv t := by
  rcases delayed_cases done with ⟨u, flush, -, rfl⟩ | ⟨h, held, free, rfl⟩
  · obtain ⟨segm, -, -, -⟩ := flush_same flush
    have inv' := inv_flush inv (.inr text) flush
    refine inv_put inv' (.inl (flush_held flush)) _
      _ (fun _ => ?_) _ _ (Nat.le_succ _) ?_ (fun bss => nomatch (segm.trans text).symm.trans bss)
    · change u.count / 4 + 2 = (u.count + 8) / 4
      omega
    · intro p inside _ length
      cases mem_singleton.mp inside
      refine ⟨(segm.trans text).symm, ?_⟩
      rw [← flush_count flush, ← length]
      exact stored_end
  · have instruction := clean h held free
    cases item : h.item with
    | none =>
      have padding := (inv.padding h held item).2.2
      exact nomatch padding.symm.trans instruction
    | some i => exact inv_slotted inv text held item instruction _

lemma inv_branch (inv : Inv s) (whole : s.count % 4 = 0)
    (clean : s.mode_reorder = true → s.segm = .text →
      ∀ h, s.held = some h → b.depends h = false → h.instruction = true)
    (done : branch s b s.count = some t) : Inv t := by
  rw [branch] at done
  split_ifs at done with mode
  · exact inv_delayed inv mode.2 (clean mode.1 mode.2) done
  · exact inv_emitword inv ⟨fun a same => ⟨(some.inj same).symm, whole⟩, by simp⟩ done

/-! ### Clean statements -/

lemma inv_segm (inv : Inv s) (g : Segment) : Inv { s with segm := g } :=
  ⟨inv.length, inv.records, inv.stored, inv.mode, inv.item, inv.padding⟩

lemma inv_clean (inv : Inv s) {stmt : Stmt} (clean : Clean s stmt)
    (done : assemble s stmt = some t) : Inv t := by
  obtain ⟨home, aligned⟩ := clean
  cases stmt with
  | label => exact inv_flush inv (home rfl) done
  | assign addr =>
    rw [assemble] at done
    split_ifs at done
    obtain ⟨u, flush, rest⟩ := bind_eq_some_iff.mp done
    have inv' := inv_flush inv (home rfl) flush
    rw [advance] at rest
    split_ifs at rest with bss
    · obtain ⟨rfl, -⟩ := write_eq rest
      exact inv_bss inv' bss _
    · exact inv_fill inv' rest
  | instr first more =>
    rw [assemble, align_whole aligned] at done
    exact inv_emits inv rfl aligned done
  | branch b =>
    rw [assemble, align_whole aligned.1] at done
    exact inv_branch inv aligned.1 aligned.2 done
  | text => exact inv_flush (inv_segm inv .text) (.inr rfl) done
  | data | strng | bss =>
    cases done
    exact inv_segm inv _
  | sect name =>
    obtain ⟨p, -, rfl⟩ := map_eq_some_iff.mp done
    exact inv_segm inv p.2
  | word first more =>
    obtain ⟨u, flush, rest⟩ := bind_eq_some_iff.mp done
    have count := flush_count flush
    have whole : u.count % 2 ^ 2 = 0 := by
      rw [count]
      exact aligned
    rw [align_whole whole] at rest
    exact inv_emits (inv_flush inv (home rfl) flush) count.symm whole rest
  | byte | ascii =>
    obtain ⟨u, flush, rest⟩ := bind_eq_some_iff.mp done
    rw [← flush_count flush] at rest
    exact inv_bytes (inv_flush inv (home rfl) flush) (.inl (flush_held flush)) rest
  | half first more =>
    obtain ⟨u, flush, rest⟩ := bind_eq_some_iff.mp done
    have count := flush_count flush
    have whole : u.count % 2 ^ 1 = 0 := by
      rw [count]
      exact aligned
    rw [align_whole whole, ← count] at rest
    exact inv_bytes (inv_flush inv (home rfl) flush) (.inl (flush_held flush)) rest
  | space n =>
    obtain ⟨u, flush, rest⟩ := bind_eq_some_iff.mp done
    have inv' := inv_flush inv (home rfl) flush
    split_ifs at rest
    · exact inv_zeroes inv' (.inl (flush_held flush)) rest
    · rw [← flush_count flush] at rest
      exact inv_bytes inv' (.inl (flush_held flush)) rest
  | align bits =>
    obtain ⟨u, flush, rest⟩ := bind_eq_some_iff.mp done
    exact inv_zeroes (inv_flush inv (home rfl) flush) (.inl (flush_held flush)) rest
  | reorder enable =>
    cases enable with
    | true =>
      cases done
      exact ⟨inv.length, inv.records, inv.stored, by simp, inv.item, inv.padding⟩
    | false =>
      obtain ⟨u, flush, rfl⟩ := flush_mode done
      have inv' := inv_flush inv (home rfl) flush
      have vacant : u.held = none := flush_held flush
      exact ⟨inv'.length, inv'.records, inv'.stored, fun _ => vacant, inv'.item, inv'.padding⟩
  | other =>
    cases done
    exact inv

/-! ### The end of the input -/

lemma align_end (inv : Inv s) (vacant : s.held = none) (g : Segment)
    (done : align { s with segm := g } 2 = some t) :
    Inv t ∧ t.held = none ∧ (t.streams g).count % 4 = 0 ∧ ∀ g' ≠ g, t.streams g' = s.streams g' := by
  obtain ⟨segm, held, -, -, count, other⟩ := zeroes_same done
  refine ⟨inv_zeroes (inv_segm inv g) (.inl vacant) done, held.trans vacant, ?_, other⟩
  have now : t.count = (t.streams g).count := by rw [State.count, segm]
  omega

lemma complete_of_inv (inv : Inv s) (vacant : s.held = none)
    (whole : ∀ g ≠ .bss, (s.streams g).count % 4 = 0) : Complete s where
  whole := whole
  length g open_ := by
    have := inv.length g open_
    rwa [pending_none vacant] at this
  records g open_ := by
    have records := inv.records g open_
    rw [pending_none vacant] at records
    obtain ⟨rs, read, length⟩ := fgetrels_put (s.streams g).rel (length_le_bytes _)
    exact ⟨rs, read, length.trans records⟩
  stored p inside := by
    rw [State.assembled, vacant] at inside
    exact inv.stored p ((append_nil s.items) ▸ inside)

lemma complete_finish (inv : Inv s) (home : AtHome s) (done : finish s = some t) : Complete t := by
  obtain ⟨u, flush, rest⟩ := bind_eq_some_iff.mp done
  obtain ⟨u₁, text, rest⟩ := bind_eq_some_iff.mp rest
  obtain ⟨u₂, data, rest⟩ := bind_eq_some_iff.mp rest
  obtain ⟨u₃, strng, bss⟩ := bind_eq_some_iff.mp rest
  obtain ⟨inv₁, held₁, whole₁, -⟩ :=
    align_end (inv_flush inv home flush) (flush_held flush) .text text
  obtain ⟨inv₂, held₂, whole₂, other₂⟩ := align_end inv₁ held₁ .data data
  obtain ⟨inv₃, held₃, whole₃, other₃⟩ := align_end inv₂ held₂ .strng strng
  obtain ⟨inv₄, held₄, -, other₄⟩ := align_end inv₃ held₃ .bss bss
  refine complete_of_inv inv₄ held₄ fun g open_ => ?_
  rw [other₄ g open_]
  cases g with
  | text =>
    rw [other₃ .text nofun, other₂ .text nofun]
    exact whole₁
  | data =>
    rw [other₃ .data nofun]
    exact whole₂
  | strng => exact whole₃
  | bss => exact absurd rfl open_

end Assembler
