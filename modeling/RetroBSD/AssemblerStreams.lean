import RetroBSD.Assembler

/-!
# Which inputs fill the segment files

Files only grow, and what is counted for the text segment is in its file or held. A word that
is put out while another segment is current is missing from the text file for good, and an
item that is aligned behind its label, or data in a delay slot, never comes to its place. All
other inputs fill the files, item by item, up to the counters.
-/

namespace Assembler

open List Option

/-! ### Relocation files -/

lemma fgetrel_put (r : Reloc) (rest : List UInt8) :
    fgetrel (fputrel r ++ rest) = some (⟨r.flags, if external r.flags then r.index % 2 ^ 24 else 0,
      if high r.flags then r.offset % 2 ^ 16 else 0⟩, rest) := by
  rw [fputrel, cons_append, fgetrel]
  unfold fgetindex fgetoffset
  cases external r.flags <;> cases high r.flags <;> simp [UInt8.toNat_ofNat'] <;> omega

lemma fgetrels_put (rs : List Reloc) {fuel : ℕ} (enough : rs.length ≤ fuel) :
    ∃ rs', fgetrels fuel (rs.flatMap fputrel) = some rs' ∧ rs'.length = rs.length := by
  induction rs generalizing fuel with
  | nil => exact ⟨[], by cases fuel <;> rfl, rfl⟩
  | cons r rs ih =>
    rw [length_cons] at enough
    obtain ⟨fuel, rfl⟩ : ∃ k, fuel = k + 1 := ⟨fuel - 1, by omega⟩
    obtain ⟨r', first⟩ : ∃ r', fgetrel (fputrel r ++ rs.flatMap fputrel) = some (r', _) :=
      ⟨_, fgetrel_put r _⟩
    obtain ⟨rs', rest, length⟩ := ih (Nat.le_of_succ_le_succ enough)
    refine ⟨r' :: rs', ?_, by rw [length_cons, length_cons, length]⟩
    rw [flatMap_cons]
    cases shape : fputrel r ++ rs.flatMap fputrel with
    | nil => simp [fputrel] at shape
    | cons b bs =>
      rw [fgetrels, ← shape, first]
      simp [rest]

lemma length_le_bytes (rs : List Reloc) : rs.length ≤ (rs.flatMap fputrel).length := by
  induction rs with
  | nil => exact Nat.le_refl _
  | cons r rs ih =>
    rw [flatMap_cons, length_append, length_cons, fputrel, length_cons]
    omega

/-! ### Files grow -/

section Growth

variable {s t u : State}

variable {instruction : Bool} {b : Branch} {h : Held} {cs : List Cell} {a n : ℕ} {i : ℕ × ℕ}

lemma write_eq {rs : List Reloc} (done : write s cs rs n = some t) :
    t = s.put cs rs n ∧ (s.segm = .bss → cs = [] ∧ rs = []) := by
  rw [write] at done
  split_ifs at done with refused
  refine ⟨(some.inj done).symm, fun bss => ?_⟩
  rw [not_and_or, not_or, not_not, not_not] at refused
  exact refused.resolve_left (not_not.mpr bss)

lemma put_current (s : State) (cs : List Cell) (rs : List Reloc) (n : ℕ) :
    (s.put cs rs n).streams s.segm = ⟨(s.streams s.segm).count + n, (s.streams s.segm).file ++ cs,
      (s.streams s.segm).rel ++ rs⟩ := Function.update_self ..

lemma put_other (s : State) (cs : List Cell) (rs : List Reloc) (n : ℕ) {g : Segment}
    (other : g ≠ s.segm) : (s.put cs rs n).streams g = s.streams g :=
  Function.update_of_ne other ..

/-- The words of the text segment that are held. -/
def pending (s : State) (g : Segment) : ℕ := if g = .text ∧ s.held.isSome then 1 else 0

/-- The bytes that are counted in the text segment and neither in its file nor held. -/
def missing (s : State) : ℤ :=
  (s.streams .text).count - (s.streams .text).file.length - 4 * pending s .text

/-- The first byte is marked as part of an item. -/
def Tagged (cs : List Cell) : Prop := ∃ b n, cs[0]? = some (b, some n)

/-- Files and items are only added to, nothing that is missing turns up, and what is held
becomes an item at its place, or another item does. -/
structure Grows (s t : State) : Prop where
  file : ∀ g, ∃ cs, (t.streams g).file = (s.streams g).file ++ cs
  items : ∃ ps, t.items = s.items ++ ps
  lost : missing s ≤ missing t
  held : ∀ h i, s.held = some h → h.item = some i →
    t.held = some h ∨ ∃ p ∈ t.items, p.segment = .text ∧ p.address = i.2 ∧ Tagged p.cells

lemma Grows.refl (s : State) : Grows s s where
  file _ := ⟨[], (append_nil _).symm⟩
  items := ⟨[], (append_nil _).symm⟩
  lost := Int.le_refl _
  held _ _ same _ := .inl same

lemma Grows.trans (one : Grows s t) (two : Grows t u) : Grows s u where
  file g := by
    obtain ⟨cs, first⟩ := one.file g
    obtain ⟨ds, second⟩ := two.file g
    exact ⟨cs ++ ds, by rw [second, first, append_assoc]⟩
  items := by
    obtain ⟨ps, first⟩ := one.items
    obtain ⟨qs, second⟩ := two.items
    exact ⟨ps ++ qs, by rw [second, first, append_assoc]⟩
  lost := Int.le_trans one.lost two.lost
  held h i same item := by
    rcases one.held h i same item with still | ⟨p, inside, found⟩
    · exact two.held h i still item
    · obtain ⟨qs, second⟩ := two.items
      exact .inr ⟨p, second ▸ mem_append_left _ inside, found⟩

lemma file_put (s : State) (cs : List Cell) (rs : List Reloc) (n : ℕ) (g : Segment) :
    ∃ ds, ((s.put cs rs n).streams g).file = (s.streams g).file ++ ds := by
  by_cases here : g = s.segm
  · subst here
    exact ⟨cs, by rw [put_current]⟩
  · exact ⟨[], by rw [put_other _ _ _ _ here, append_nil]⟩

lemma missing_put (s : State) (cs : List Cell) (rs : List Reloc) (n : ℕ) :
    missing (s.put cs rs n) = missing s + if s.segm = .text then (n : ℤ) - cs.length else 0 := by
  have same : pending (s.put cs rs n) .text = pending s .text := rfl
  rw [missing, missing, same]
  split_ifs with text
  · rw [← text, put_current]
    simp only [length_append]
    omega
  · rw [put_other _ _ _ _ (Ne.symm text)]
    omega

/-- As many bytes are written as are counted. -/
lemma grows_put (s : State) (rs : List Reloc) (even : cs.length ≤ n) (ps : List Placement) (k : ℕ) :
    Grows s { s.put cs rs n with items := s.items ++ ps, serial := k } where
  file := file_put s cs rs n
  items := ⟨ps, rfl⟩
  lost := by
    have := missing_put s cs rs n
    have same : missing { s.put cs rs n with items := s.items ++ ps, serial := k } =
        missing (s.put cs rs n) := rfl
    split_ifs at this <;> omega
  held _ _ same _ := .inl same

lemma cells_length (w : ℕ) (item : Option ℕ) : (cells w item).length = 4 := rfl

lemma tagged_cells (w n : ℕ) : Tagged (cells w (some n)) := ⟨_, n, rfl⟩

lemma held_items (item : h.item = some i) : h.items = [⟨.text, i.2, h.cells⟩] := by
  rw [Held.items, item]
  rfl

lemma held_tagged (item : h.item = some i) : Tagged h.cells := by
  rw [Held.cells, item]
  exact tagged_cells _ _

def flushed (s : State) (h : Held) : State :=
  { s.put h.cells [h.rel] 0 with held := none, items := s.items ++ h.items }

lemma flush_cases (done : reorder_flush s = some t) :
    s.held = none ∧ t = s ∨ ∃ h, s.held = some h ∧ s.segm ≠ .bss ∧ t = flushed s h := by
  rw [reorder_flush] at done
  cases held : s.held with
  | none =>
    rw [held] at done
    exact .inl ⟨rfl, (some.inj done).symm⟩
  | some h =>
    rw [held] at done
    obtain ⟨u, wrote, rfl⟩ := map_eq_some_iff.mp done
    obtain ⟨rfl, open_⟩ := write_eq wrote
    refine .inr ⟨h, rfl, fun bss => ?_, rfl⟩
    cases (open_ bss).2

/-- A word put out elsewhere is missing in the text segment. -/
lemma missing_flushed (held : s.held = some h) :
    missing (flushed s h) = missing s + if s.segm = .text then 0 else 4 := by
  have put := missing_put s h.cells [h.rel] 0
  have four : h.cells.length = 4 := rfl
  have before : pending s .text = 1 := by
    rw [pending, held]
    rfl
  have after : pending (flushed s h) .text = 0 := rfl
  have streams : (flushed s h).streams = (s.put h.cells [h.rel] 0).streams := rfl
  have same : pending (s.put h.cells [h.rel] 0) .text = 1 := before
  rw [missing] at put
  rw [missing, streams]
  split_ifs at put ⊢ <;> omega

lemma grows_flush (done : reorder_flush s = some t) : Grows s t := by
  rcases flush_cases done with ⟨-, rfl⟩ | ⟨h, held, -, rfl⟩
  · exact .refl t
  · refine ⟨file_put s _ _ _, ⟨h.items, rfl⟩, ?_, fun h' i same item => .inr ?_⟩
    · rw [missing_flushed held]
      split_ifs <;> omega
    · cases some.inj (held.symm.trans same)
      refine ⟨⟨.text, i.2, h.cells⟩, ?_, rfl, rfl, held_tagged item⟩
      apply mem_append_right
      rw [held_items item]
      exact mem_singleton_self _

def holding (s : State) (h : Held) : State :=
  { s.put [] [] 4 with held := some h, serial := s.serial + 1 }

def direct (s : State) (h : Held) : State :=
  { s.put h.cells [h.rel] 4 with
    items := s.items ++ h.item.toList.map fun i => ⟨s.segm, i.2, h.cells⟩
    serial := s.serial + 1 }

def heldOf (s : State) (e : Emit) (place : Option ℕ) (instruction : Bool) : Held :=
  ⟨e.word, e.rel, e.clobber, place.map fun a => (s.serial, a), instruction⟩

lemma emitword_cases {e : Emit} {place : Option ℕ}
    (done : emitword s e place instruction = some t) :
    (s.mode_reorder = true ∧ s.segm = .text ∧ ∃ u, reorder_flush s = some u ∧
      t = holding u (heldOf s e place instruction)) ∨
    (¬ (s.mode_reorder = true ∧ s.segm = .text) ∧ s.segm ≠ .bss ∧
      t = direct s (heldOf s e place instruction)) := by
  rw [emitword] at done
  split_ifs at done with mode
  · obtain ⟨u, flush, rest⟩ := bind_eq_some_iff.mp done
    obtain ⟨v, wrote, rfl⟩ := map_eq_some_iff.mp rest
    obtain ⟨rfl, -⟩ := write_eq wrote
    exact .inl ⟨mode.1, mode.2, u, flush, rfl⟩
  · obtain ⟨v, wrote, rfl⟩ := map_eq_some_iff.mp done
    obtain ⟨rfl, open_⟩ := write_eq wrote
    refine .inr ⟨mode, fun bss => ?_, rfl⟩
    cases (open_ bss).2

lemma flush_held (done : reorder_flush s = some t) : t.held = none := by
  rcases flush_cases done with ⟨none, rfl⟩ | ⟨-, -, -, rfl⟩
  · exact none
  · rfl

lemma missing_holding (none : s.held = none) (text : s.segm = .text) (h : Held) :
    missing (holding s h) = missing s := by
  have put := missing_put s [] [] 4
  have before : pending s .text = 0 := by
    rw [pending, none]
    rfl
  have after : pending (holding s h) .text = 1 := rfl
  have streams : (holding s h).streams = (s.put [] [] 4).streams := rfl
  have same : pending (s.put [] [] 4) .text = 0 := before
  rw [missing, if_pos text] at put
  rw [missing, after, streams]
  simp only [length_nil] at put
  omega

lemma grows_holding (none : s.held = none) (text : s.segm = .text) (h : Held) :
    Grows s (holding s h) where
  file := file_put s _ _ _
  items := ⟨[], (append_nil _).symm⟩
  lost := Int.le_of_eq (missing_holding none text h).symm
  held _ _ same := nomatch none.symm.trans same

lemma flush_segm (done : reorder_flush s = some t) : t.segm = s.segm := by
  rcases flush_cases done with ⟨-, rfl⟩ | ⟨-, -, -, rfl⟩ <;> rfl

lemma grows_emitword {e : Emit} {place : Option ℕ}
    (done : emitword s e place instruction = some t) : Grows s t := by
  rcases emitword_cases done with ⟨-, text, u, flush, rfl⟩ | ⟨-, -, rfl⟩
  · exact (grows_flush flush).trans
      (grows_holding (flush_held flush) ((flush_segm flush).trans text) _)
  · exact grows_put s _ (Nat.le_refl 4) _ _

lemma grows_emits {es : List Emit} (done : emits instruction a es s = some t) : Grows s t := by
  induction es generalizing s a with
  | nil =>
    cases done
    exact .refl _
  | cons e es ih =>
    obtain ⟨u, first, rest⟩ := bind_eq_some_iff.mp done
    exact (grows_emitword first).trans (ih rest)

lemma grows_write {rs : List Reloc} (done : write s cs rs n = some t)
    (even : cs.length ≤ n) : Grows s t := by
  obtain ⟨rfl, -⟩ := write_eq done
  exact grows_put s rs even [] s.serial |>.trans (by simp only [append_nil]; exact .refl _)

lemma grows_zeroes {item : Option ℕ} (done : zeroes s n item = some t) : Grows s t := by
  rw [zeroes] at done
  split_ifs at done
  · exact grows_write done (Nat.zero_le n)
  · exact grows_write done (Nat.le_refl _)

lemma grows_bytes {bs : List UInt8} (done : bytes s a bs = some t) : Grows s t := by
  obtain ⟨u, wrote, rfl⟩ := map_eq_some_iff.mp done
  obtain ⟨rfl, -⟩ := write_eq wrote
  exact grows_put s _ (Nat.le_refl _) _ _

lemma grows_fill (done : fill n s = some t) : Grows s t := by
  induction n generalizing s with
  | zero =>
    cases done
    exact .refl _
  | succ n ih =>
    obtain ⟨u, first, rest⟩ := bind_eq_some_iff.mp done
    exact (grows_emitword first).trans (ih rest)

lemma grows_advance {addr : ℕ} (done : advance s addr = some t) : Grows s t := by
  rw [advance] at done
  split_ifs at done
  · exact grows_write done (Nat.zero_le _)
  · exact grows_fill done

lemma settle_cases (done : settle s b = some t) :
    (reorder_flush s = some t ∧ ∀ h, s.held = some h → b.depends h = true) ∨
      t = s ∧ ∃ h, s.held = some h ∧ b.depends h = false := by
  rw [settle] at done
  cases held : s.held with
  | none =>
    rw [held] at done
    refine .inl ⟨?_, nofun⟩
    rw [reorder_flush, held]
    exact done
  | some h =>
    rw [held] at done
    simp only at done
    split_ifs at done with depends
    · refine .inl ⟨done, fun h' same => ?_⟩
      cases some.inj same
      exact depends
    · exact .inr ⟨(some.inj done).symm, h, rfl, Bool.not_eq_true _ ▸ depends⟩

def slotted (s : State) (b : Branch) (a n : ℕ) (h : Held) : State :=
  { s.put (cells b.word (some n) ++ h.cells) [b.rel, h.rel] 4 with
    held := none
    items := s.items ++ slotItems h a (cells b.word (some n))
    serial := s.serial + 1 }

def padded (s : State) (b : Branch) (a n : ℕ) : State :=
  { s.put (cells b.word (some n) ++ cells 0 none) [b.rel, relabs] 8 with
    items := s.items ++ [⟨.text, a, cells b.word (some n)⟩]
    serial := s.serial + 1 }

lemma delayed_cases (done : delayed s b a = some t) :
    (∃ u, reorder_flush s = some u ∧ (∀ h, s.held = some h → b.depends h = true) ∧
      t = padded u b a s.serial) ∨
      ∃ h, s.held = some h ∧ b.depends h = false ∧ t = slotted s b a s.serial h := by
  obtain ⟨u, settled, rest⟩ := bind_eq_some_iff.mp done
  rcases settle_cases settled with ⟨flush, depends⟩ | ⟨rfl, h, held, free⟩
  · rw [flush_held flush] at rest
    obtain ⟨v, wrote, rfl⟩ := map_eq_some_iff.mp rest
    obtain ⟨rfl, -⟩ := write_eq wrote
    exact .inl ⟨u, flush, depends, rfl⟩
  · rw [held] at rest
    obtain ⟨v, wrote, rfl⟩ := map_eq_some_iff.mp rest
    obtain ⟨rfl, -⟩ := write_eq wrote
    exact .inr ⟨h, held, free, rfl⟩

lemma missing_slotted (held : s.held = some h)
    (text : s.segm = .text) : missing (slotted s b a n h) = missing s := by
  have put := missing_put s (cells b.word (some n) ++ h.cells) [b.rel, h.rel] 4
  have eight : (cells b.word (some n) ++ h.cells).length = 8 := rfl
  have before : pending s .text = 1 := by
    rw [pending, held]
    rfl
  have after : pending (slotted s b a n h) .text = 0 := rfl
  have streams : (slotted s b a n h).streams =
    (s.put (cells b.word (some n) ++ h.cells) [b.rel, h.rel] 4).streams := rfl
  have same : pending (s.put (cells b.word (some n) ++ h.cells) [b.rel, h.rel] 4) .text = 1 := before
  rw [missing, if_pos text] at put
  rw [missing, after, streams]
  omega

lemma slotItems_place (item : h.item = some i) (a w n : ℕ) :
    ∃ p ∈ slotItems h a (cells w (some n)), p.segment = .text ∧ p.address = i.2 ∧
      Tagged p.cells := by
  rw [slotItems, item]
  simp only
  split_ifs
  · exact ⟨_, mem_cons_self, rfl, rfl, tagged_cells _ _⟩
  · exact ⟨_, mem_cons_self, rfl, rfl, held_tagged item⟩

lemma grows_delayed (text : s.segm = .text) (done : delayed s b a = some t) : Grows s t := by
  rcases delayed_cases done with ⟨u, flush, -, rfl⟩ | ⟨h, held, -, rfl⟩
  · exact (grows_flush flush).trans (grows_put u _ (Nat.le_refl 8) _ _)
  · refine ⟨file_put s _ _ _, ⟨_, rfl⟩, Int.le_of_eq (missing_slotted held text).symm, fun h' i same item => .inr ?_⟩
    cases some.inj (held.symm.trans same)
    obtain ⟨p, inside, place⟩ := slotItems_place item a b.word s.serial
    exact ⟨p, mem_append_right _ inside, place⟩

lemma grows_branch (done : branch s b a = some t) : Grows s t := by
  rw [branch] at done
  split_ifs at done with mode
  · exact grows_delayed mode.2 done
  · exact grows_emitword done

lemma grows_segm (s : State) (g : Segment) (mode : Bool) :
    Grows s { s with segm := g, mode_reorder := mode } :=
  ⟨fun _ => ⟨[], (append_nil _).symm⟩, ⟨[], (append_nil _).symm⟩, Int.le_refl _,
    fun _ _ same _ => .inl same⟩

lemma flush_mode (done : reorder_flush { s with mode_reorder := false } = some t) :
    ∃ u, reorder_flush s = some u ∧ t = { u with mode_reorder := false } := by
  rw [reorder_flush]
  cases held : s.held with
  | none =>
    simp only [held] at done
    refine ⟨s, rfl, (some.inj done).symm.trans ?_⟩
    rw [held]
  | some h =>
    simp only [held] at done
    obtain ⟨v, wrote, rfl⟩ := map_eq_some_iff.mp done
    obtain ⟨rfl, closed⟩ := write_eq wrote
    refine ⟨flushed s h, ?_, rfl⟩
    have open_ : ¬ (s.segm = .bss ∧ (h.cells ≠ [] ∨ [h.rel] ≠ [])) :=
      fun both => nomatch (closed both.1).2
    simp only [write, if_neg open_]
    rfl

/-- Some statements first put out what is held, and then add to that. -/
lemma flushes_first {stmt : Stmt} (flushes : stmt.flushes = true)
    (done : assemble s stmt = some t) : ∃ u, reorder_flush s = some u ∧ Grows u t := by
  cases stmt with
  | label => exact ⟨t, done, .refl t⟩
  | assign addr =>
    rw [assemble] at done
    split_ifs at done
    obtain ⟨u, flush, rest⟩ := bind_eq_some_iff.mp done
    exact ⟨u, flush, grows_advance rest⟩
  | word first more =>
    obtain ⟨u, flush, rest⟩ := bind_eq_some_iff.mp done
    obtain ⟨v, aligned, rest⟩ := bind_eq_some_iff.mp rest
    exact ⟨u, flush, (grows_zeroes aligned).trans (grows_emits rest)⟩
  | byte | ascii =>
    obtain ⟨u, flush, rest⟩ := bind_eq_some_iff.mp done
    exact ⟨u, flush, grows_bytes rest⟩
  | half first more =>
    obtain ⟨u, flush, rest⟩ := bind_eq_some_iff.mp done
    obtain ⟨v, aligned, rest⟩ := bind_eq_some_iff.mp rest
    exact ⟨u, flush, (grows_zeroes aligned).trans (grows_bytes rest)⟩
  | space n =>
    obtain ⟨u, flush, rest⟩ := bind_eq_some_iff.mp done
    split_ifs at rest
    · exact ⟨u, flush, grows_zeroes rest⟩
    · exact ⟨u, flush, grows_bytes rest⟩
  | align bits =>
    obtain ⟨u, flush, rest⟩ := bind_eq_some_iff.mp done
    exact ⟨u, flush, grows_zeroes rest⟩
  | reorder enable =>
    cases enable with
    | true => cases flushes
    | false =>
      obtain ⟨u, flush, rfl⟩ := flush_mode done
      exact ⟨u, flush, grows_segm u u.segm false⟩
  | instr | branch | text | data | strng | bss | sect | other => cases flushes

lemma grows_assemble {stmt : Stmt} (done : assemble s stmt = some t) : Grows s t := by
  cases flushes : stmt.flushes with
  | true =>
    obtain ⟨u, flush, rest⟩ := flushes_first flushes done
    exact (grows_flush flush).trans rest
  | false =>
    cases stmt with
    | instr first more =>
      obtain ⟨u, aligned, rest⟩ := bind_eq_some_iff.mp done
      exact (grows_zeroes aligned).trans (grows_emits rest)
    | branch b =>
      obtain ⟨u, aligned, rest⟩ := bind_eq_some_iff.mp done
      exact (grows_zeroes aligned).trans (grows_branch rest)
    | text => exact (grows_segm s .text _).trans (grows_flush done)
    | data | strng | bss =>
      cases done
      exact grows_segm s _ _
    | sect name =>
      obtain ⟨p, -, rfl⟩ := map_eq_some_iff.mp done
      exact grows_segm s p.2 _
    | reorder enable =>
      cases enable with
      | true =>
        cases done
        exact grows_segm s s.segm true
      | false => cases flushes
    | other =>
      cases done
      exact .refl _
    | label | assign | word | byte | half | space | align | ascii => cases flushes

end Growth

end Assembler
