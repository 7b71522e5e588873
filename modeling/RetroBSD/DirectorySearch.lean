import RetroBSD.DirectoryEntries

/-!
# Searching a directory

When a directory is well formed, and that the search of `namei` goes through all
its entries in order. If an entry is to be made, the search ends with a slot: a
range of entries of one block that have enough space between them.
-/

namespace Directory

open Words List Prod

def entriesFrom (b : Block) : Nat → Nat → List Entry
  | 0, _ => []
  | fuel + 1, k =>
    if k < DIRBLKSIZ ∧ d_reclen b k ≠ 0 then entryAt b k :: entriesFrom b fuel (k + d_reclen b k) else []

def entries (b : Block) : List Entry := entriesFrom b DIRBLKSIZ 0

structure Tiled (b : Block) : Prop where
  good : ∀ e ∈ entries b, e.Good
  fills : span (entries b) = DIRBLKSIZ

def Dir.count (d : Dir) : Nat := (d.i_size / DIRBLKSIZ).toNat

def Dir.entries (d : Dir) (k : Nat) : List Entry := ((d.blocks k).map Directory.entries).getD []

def names (es : List Entry) : List (List UInt8 × Nat) :=
  (es.filter Entry.live).map (fun e => (e.name, e.ino))

def Dir.live (d : Dir) : List (List UInt8 × Nat) := (List.range d.count).flatMap (fun k => names (d.entries k))

structure WellFormed (d : Dir) : Prop where
  nonneg : 0 ≤ d.i_size
  bounded : d.i_size < 2 ^ 31
  whole : d.i_size % DIRBLKSIZ = 0
  tiled : ∀ k, k < d.count → ∃ b, d.blocks k = some b ∧ Tiled b
  distinct : (d.live.map Prod.fst).Nodup

/-! ## Reading entries -/

section Reading

variable {b : Block} {es : List Entry}

lemma entriesFrom_laid (b : Block) (fuel k : Nat) : Laid b k (entriesFrom b fuel k) := by
  induction fuel generalizing k with
  | zero => trivial
  | succ fuel ih =>
    simp only [entriesFrom]
    split_ifs
    · exact ⟨rfl, ih _⟩
    · trivial

/-- The entries of a tiled block are the ones that lie in it. -/
lemma entriesFrom_eq (fuel k : Nat) (laid : Laid b k es) (good : ∀ e ∈ es, e.Good)
    (fills : k + span es = DIRBLKSIZ) (enough : span es ≤ fuel) : entriesFrom b fuel k = es := by
  induction fuel generalizing k es with
  | zero =>
    cases es with
    | nil => rfl
    | cons e es =>
      have := (good e (by simp)).positive
      simp only [span_cons] at enough
      omega
  | succ fuel ih =>
    cases es with
    | nil =>
      have last : ¬ k < DIRBLKSIZ := by simp at fills; omega
      simp [entriesFrom, last]
    | cons e es =>
      have positive := (good e (by simp)).positive
      have reclen := (laid_reclen laid).2.1
      simp only [span_cons] at fills enough
      have more : k < DIRBLKSIZ ∧ d_reclen b k ≠ 0 := by omega
      simp only [entriesFrom, more, true_and, not_false_eq_true, if_true, ne_eq]
      rw [laid.1, reclen, ih _ laid.2 (fun x hx => good x (by simp [hx])) (by omega) (by omega)]

lemma tiled_laid (b : Block) : Laid b 0 (entries b) := entriesFrom_laid b DIRBLKSIZ 0

/-- A block in which good entries lie is tiled by them. -/
lemma tiled_of_laid (laid : Laid b 0 es) (good : ∀ e ∈ es, e.Good) (fills : span es = DIRBLKSIZ) :
    Tiled b ∧ entries b = es := by
  have same : entries b = es := entriesFrom_eq DIRBLKSIZ 0 laid good (by simpa using fills) fills.le
  exact ⟨⟨by rwa [same], by rwa [same]⟩, same⟩

variable {d : Dir} {k : Nat}

lemma wellFormed_block (wf : WellFormed d) (small : k < d.count) :
    ∃ b, d.blocks k = some b ∧ d.entries k = entries b ∧ Laid b 0 (d.entries k) ∧
      (∀ e ∈ d.entries k, e.Good) ∧ span (d.entries k) = DIRBLKSIZ := by
  obtain ⟨b, here, tiled⟩ := wf.tiled k small
  have same : d.entries k = entries b := by simp [Dir.entries, here]
  rw [same]
  exact ⟨b, here, rfl, tiled_laid b, tiled.good, tiled.fills⟩

lemma wellFormed_size (wf : WellFormed d) : d.i_size = DIRBLKSIZ * d.count := by
  have whole := wf.whole
  have nonneg := wf.nonneg
  simp only [Dir.count, DIRBLKSIZ] at whole ⊢
  omega

lemma names_append (es fs : List Entry) : names (es ++ fs) = names es ++ names fs := by
  simp [names]

lemma mem_names {name : List UInt8} {ino : Nat} :
    (name, ino) ∈ names es ↔ ∃ e ∈ es, e.live = true ∧ e.name = name ∧ e.ino = ino := by
  simp only [names, mem_map, mem_filter, mk.injEq]
  constructor
  · rintro ⟨e, ⟨he, live⟩, name, ino⟩
    exact ⟨e, he, live, name, ino⟩
  · rintro ⟨e, he, live, name, ino⟩
    exact ⟨e, ⟨he, live⟩, name, ino⟩

lemma mem_live {name : List UInt8} {ino : Nat} :
    (name, ino) ∈ d.live ↔ ∃ k, k < d.count ∧ ∃ e ∈ d.entries k, e.live = true ∧ e.name = name ∧ e.ino = ino := by
  simp [Dir.live, mem_names]

end Reading

/-! ## One entry after the other -/

/-- Entries of one block with enough free space between them. -/
def Slot (d : Dir) (offset : Option Int) (size needed : Int) : Prop :=
  ∃ k es₁ es₂ es₃, k < d.count ∧ d.entries k = es₁ ++ es₂ ++ es₃ ∧ es₂ ≠ [] ∧
    offset = some ((DIRBLKSIZ * k + span es₁ : Nat) : Int) ∧ size = span es₂ ∧ needed ≤ freeSpace es₂

/-- The free space at the end of the entries that were seen in block `k`. -/
def Gathered (k : Nat) (seen : List Entry) (s : Search) : Prop :=
  ∃ es₁ es₂, seen = es₁ ++ es₂ ∧ s.slotfreespace = freeSpace es₂ ∧
    ((s.slotoffset = none ∧ es₂ = []) ∨
      (es₂ ≠ [] ∧ s.slotoffset = some ((DIRBLKSIZ * k + span es₁ : Nat) : Int)))

/-- What the search knows if an entry is to be made. -/
structure Seeks (d : Dir) (k : Nat) (seen : List Entry) (s : Search) : Prop where
  gathered : s.slotstatus = .NONE → seen ≠ [] → Gathered k seen s
  slot : s.slotstatus ≠ .NONE → Slot d s.slotoffset s.slotsize s.slotneeded
  reached : s.enduseful ≤ s.ni_offset
  earlier : ∀ j, j < k → ∀ e ∈ d.entries j, e.live = true → (DIRBLKSIZ * j : Int) < s.enduseful
  here : ∀ e ∈ seen, e.live = true → (DIRBLKSIZ * k : Int) < s.enduseful

/-- The search that began at block `first` is in block `k`, with `seen` behind it and
`ahead` before it, and has not met the name. -/
structure Walk (d : Dir) (name : List UInt8) (creating : Bool) (first k : Nat)
    (seen ahead : List Entry) (s : Search) : Prop where
  split : d.entries k = seen ++ ahead
  offset : s.ni_offset = (DIRBLKSIZ * k + span seen : Nat)
  loaded : seen ≠ [] → d.blocks k = some s.bp ∧ s.entryoffsetinblock = span seen
  previous : ∀ es e, seen = es ++ [e] → s.prevoff = (DIRBLKSIZ * k + span es : Nat)
  unmet : ∀ j, first ≤ j → j < k → ∀ e ∈ d.entries j, ¬ (e.live = true ∧ e.name = name)
  unseen : ∀ e ∈ seen, ¬ (e.live = true ∧ e.name = name)
  slots : if creating then Seeks d k seen s else s.slotstatus = .FOUND

section Walking

variable {d : Dir} {name : List UInt8} {creating : Bool} {first k : Nat} {seen ahead : List Entry}
  {e : Entry} {s : Search}

/-- The state in which the entry at hand is looked at. -/
def Search.at (s : Search) (b : Block) (o : Nat) : Search :=
  { s with bp := b, entryoffsetinblock := o }

lemma load_at (walk : Walk d name creating first k seen (e :: ahead) s) {b : Block} (here : d.blocks k = some b)
    (good : ∀ x ∈ seen, x.Good) (small : span seen < DIRBLKSIZ) :
    s.load d = some (s.at b (span seen)) := by
  have offset := walk.offset
  by_cases h : seen = []
  · subst h
    have start : blkoff s.ni_offset = 0 := by
      simp only [offset, blkoff, DIRBLKSIZ, span_nil]
      omega
    have block : lblkno s.ni_offset = k := by
      simp only [offset, lblkno, DIRBLKSIZ, span_nil]
      omega
    have nonneg : ¬ s.ni_offset < 0 := by omega
    simp [Search.load, start, blkatoff, nonneg, block, here, Search.at]
  · obtain ⟨bp, inBlock⟩ := walk.loaded h
    have inside : blkoff s.ni_offset ≠ 0 := by
      obtain ⟨x, xs, rfl⟩ := exists_cons_of_ne_nil h
      have positive := (good x (by simp)).positive
      simp only [span_cons, DIRBLKSIZ] at offset small
      simp only [blkoff, DIRBLKSIZ]
      omega
    rw [here] at bp
    cases bp
    simp [Search.load, inside, Search.at, ← inBlock]

/-- After the restart at a block boundary, the free space is that of the entries seen. -/
lemma restart_gathered (seeks : Seeks d k seen s) {b : Block} (small : span seen < DIRBLKSIZ)
    (good : ∀ x ∈ seen, x.Good) (looking : s.slotstatus = .NONE) :
    Gathered k seen (s.at b (span seen)).restart := by
  by_cases h : seen = []
  · subst h
    simp only [Search.at, looking]
    exact ⟨[], [], rfl, rfl, .inl ⟨rfl, rfl⟩⟩
  · have inside : ¬ span seen % DIRBLKSIZ = 0 := by
      obtain ⟨x, xs, rfl⟩ := exists_cons_of_ne_nil h
      have positive := (good x (by simp)).positive
      simp only [span_cons] at small ⊢
      rw [Nat.mod_eq_of_lt small]
      omega
    simp only [Search.restart, Search.at, inside, and_false, if_false]
    exact seeks.gathered looking h

lemma restart_keeps (s : Search) : s.restart.bp = s.bp ∧
    s.restart.entryoffsetinblock = s.entryoffsetinblock ∧ s.restart.ni_offset = s.ni_offset ∧
    s.restart.prevoff = s.prevoff ∧ s.restart.enduseful = s.enduseful ∧
    s.restart.slotstatus = s.slotstatus ∧ s.restart.slotneeded = s.slotneeded ∧
    (s.slotstatus ≠ .NONE → s.restart = s) := by
  simp only [Search.restart]
  split_ifs with h
  · exact ⟨rfl, rfl, rfl, rfl, rfl, rfl, rfl, fun h' => absurd h.1 h'⟩
  · exact ⟨rfl, rfl, rfl, rfl, rfl, rfl, rfl, fun _ => rfl⟩

lemma slot_keeps (s : Search) : s.slot.bp = s.bp ∧ s.slot.entryoffsetinblock = s.entryoffsetinblock ∧
    s.slot.ni_offset = s.ni_offset ∧ s.slot.prevoff = s.prevoff ∧ s.slot.enduseful = s.enduseful ∧
    s.slot.slotneeded = s.slotneeded ∧ (s.slotstatus = .FOUND → s.slot = s) := by
  simp only [Search.slot]
  split_ifs with h <;>
    first
    | exact ⟨rfl, rfl, rfl, rfl, rfl, rfl, fun _ => rfl⟩
    | exact ⟨rfl, rfl, rfl, rfl, rfl, rfl, fun h' => absurd h' h.1⟩

lemma slot_spec {s : Search} (small : k < d.count) (split : d.entries k = seen ++ e :: ahead)
    (offset : s.ni_offset = (DIRBLKSIZ * k + span seen : Nat))
    (isEntry : entryAt s.bp s.entryoffsetinblock = e) (good : e.Good)
    (gathered : s.slotstatus = .NONE → Gathered k seen s)
    (slot : s.slotstatus ≠ .NONE → Slot d s.slotoffset s.slotsize s.slotneeded) :
    (s.slot.slotstatus = .NONE → Gathered k (seen ++ [e]) s.slot) ∧
    (s.slot.slotstatus ≠ .NONE → Slot d s.slot.slotoffset s.slot.slotsize s.slot.slotneeded) := by
  have reclen : d_reclen s.bp s.entryoffsetinblock = e.reclen := congrArg Entry.reclen isEntry
  have size : s.size = e.free := by
    have need := need_entryAt s.bp s.entryoffsetinblock
    have ino : d_ino s.bp s.entryoffsetinblock = e.ino := congrArg Entry.ino isEntry
    have room := good.room
    rw [isEntry] at need
    simp only [Search.size, reclen, ino, Entry.free, Entry.live]
    by_cases h : e.ino = 0 <;> simp [h]
    omega
  by_cases found : s.slotstatus = .FOUND
  · have same := (slot_keeps s).2.2.2.2.2.2 found
    rw [same]
    exact ⟨fun h => by simp [found] at h, fun _ => slot (by simp [found])⟩
  by_cases positive : s.size > 0
  · by_cases large : s.size ≥ s.slotneeded
    · have result : s.slot = { s with
          slotstatus := .FOUND, slotoffset := some s.ni_offset, slotsize := e.reclen } := by
        simp [Search.slot, found, positive, large, reclen]
      rw [result]
      refine ⟨fun h => by simp at h, fun _ => ⟨k, seen, [e], ahead, small, by simpa using split, by simp,
        by simp [offset], by simp, ?_⟩⟩
      simp only [freeSpace_cons, freeSpace_nil]
      omega
    · by_cases looking : s.slotstatus = .NONE
      · obtain ⟨es₁, es₂, seenIs, free, place⟩ := gathered looking
        -- the entry joins those that were gathered, or it is the first of them
        obtain ⟨fs₁, fs₂, joined, nonempty, start, total⟩ : ∃ fs₁ fs₂, seen ++ [e] = fs₁ ++ fs₂ ∧ fs₂ ≠ [] ∧
            s.slotoffset.getD s.ni_offset = (DIRBLKSIZ * k + span fs₁ : Nat) ∧
            s.slotfreespace + s.size = freeSpace fs₂ := by
          rcases place with ⟨unset, rfl⟩ | ⟨_, set⟩
          · refine ⟨seen, [e], rfl, by simp, by simp [unset, offset], ?_⟩
            simp only [free, size, freeSpace_cons, freeSpace_nil]
            omega
          · refine ⟨es₁, es₂ ++ [e], by simp [seenIs], by simp, by simp [set], ?_⟩
            simp only [free, size, freeSpace_append, freeSpace_cons, freeSpace_nil]
            omega
        have spans : span seen + e.reclen = span fs₁ + span fs₂ := by
          have := congrArg span joined
          simpa using this
        by_cases enough : s.slotfreespace + s.size ≥ s.slotneeded
        · have result : s.slot = { s with
              slotfreespace := s.slotfreespace + s.size
              slotoffset := some (s.slotoffset.getD s.ni_offset)
              slotstatus := .COMPACT
              slotsize := s.ni_offset + e.reclen - s.slotoffset.getD s.ni_offset } := by
            simp [Search.slot, looking, positive, large, enough, reclen]
          rw [result]
          refine ⟨fun h => by simp at h, fun _ => ⟨k, fs₁, fs₂, ahead, small, ?_, nonempty,
            by simp [start], by simp only; omega, by simp only; omega⟩⟩
          rw [← joined, split]
          simp
        · have result : s.slot = { s with
              slotfreespace := s.slotfreespace + s.size
              slotoffset := some (s.slotoffset.getD s.ni_offset) } := by
            simp [Search.slot, looking, positive, large, enough]
          rw [result]
          exact ⟨fun _ => ⟨fs₁, fs₂, joined, total, .inr ⟨nonempty, by simp [start]⟩⟩,
            fun h => absurd looking h⟩
      · have same : s.slot = s := by simp [Search.slot, found, positive, large, looking]
        rw [same]
        exact ⟨fun h => absurd h looking, slot⟩
  · have same : s.slot = s := by simp only [Search.slot, positive, and_false, if_false]
    rw [same]
    refine ⟨fun looking => ?_, slot⟩
    have full : e.free = 0 := by omega
    obtain ⟨es₁, es₂, seenIs, free, ⟨unset, rfl⟩ | ⟨-, set⟩⟩ := gathered looking
    · exact ⟨seen ++ [e], [], by simp, free, .inl ⟨unset, rfl⟩⟩
    · exact ⟨es₁, es₂ ++ [e], by simp [seenIs], by simp [free, full], .inr ⟨by simp, set⟩⟩

/-- The search stands at entry `e`. -/
structure Stands (d : Dir) (k : Nat) (seen : List Entry) (e : Entry) (ahead : List Entry) (s : Search) :
    Prop where
  split : d.entries k = seen ++ e :: ahead
  block : d.blocks k = some s.bp
  place : s.entryoffsetinblock = span seen
  offset : s.ni_offset = (DIRBLKSIZ * k + span seen : Nat)
  previous : ∀ es x, seen = es ++ [x] → s.prevoff = (DIRBLKSIZ * k + span es : Nat)
  entry : entryAt s.bp s.entryoffsetinblock = e

variable {last : Nat} {t : Search}

lemma isName_iff (stands : Stands d k seen e ahead t) :
    t.isName name = true ↔ e.live = true ∧ e.name = name := by
  have ino : d_ino t.bp t.entryoffsetinblock = e.ino := congrArg Entry.ino stands.entry
  have isName : d_name t.bp t.entryoffsetinblock = e.name := congrArg Entry.name stands.entry
  simp [Search.isName, ino, isName, Entry.live]

lemma Stands.listed (stands : Stands d k seen e ahead t) (small : k < d.count) (live : e.live = true) :
    (e.name, e.ino) ∈ d.live :=
  mem_live.mpr ⟨k, small, e, by simp [stands.split], live, rfl, rfl⟩

/-- Past an entry that does not carry the name. -/
lemma walk_advance (walk : Walk d name creating first k seen (e :: ahead) s) (good : e.Good)
    (stands : Stands d k seen e ahead t) (other : ¬ (e.live = true ∧ e.name = name))
    (useful : t.enduseful = s.enduseful)
    (slots : if creating then (t.slotstatus = .NONE → Gathered k (seen ++ [e]) t) ∧
      (t.slotstatus ≠ .NONE → Slot d t.slotoffset t.slotsize t.slotneeded) else t.slotstatus = .FOUND) :
    Walk d name creating first k (seen ++ [e]) ahead t.advance := by
  have ino : d_ino t.bp t.entryoffsetinblock = e.ino := congrArg Entry.ino stands.entry
  have reclen : d_reclen t.bp t.entryoffsetinblock = e.reclen := congrArg Entry.reclen stands.entry
  have positive := good.positive
  have offset := stands.offset
  refine ⟨by simp [stands.split], ?_, fun _ => ⟨stands.block, ?_⟩, fun es x same => ?_, walk.unmet,
    fun x hx => ?_, ?_⟩
  · simp only [Search.advance, span_append, span_cons, span_nil]
    omega
  · simp only [Search.advance, reclen]
    simp [stands.place]
  · obtain ⟨rfl, _⟩ := append_inj' same rfl
    simp [Search.advance, offset]
  · rcases mem_append.mp hx with h | h
    · exact walk.unseen x h
    · rw [mem_singleton.mp h]
      exact other
  · cases creating with
    | false => exact slots
    | true =>
      have seeks : Seeks d k seen s := walk.slots
      have before := seeks.reached
      have far : (DIRBLKSIZ * k : Int) < t.ni_offset + e.reclen := by omega
      have same : t.ni_offset = s.ni_offset := offset.trans walk.offset.symm
      have ends : t.advance.enduseful = if e.live then t.ni_offset + e.reclen else s.enduseful := by
        simp [Search.advance, ino, reclen, useful, Entry.live]
      have offset' : t.advance.ni_offset = t.ni_offset + e.reclen := by simp [Search.advance, reclen]
      obtain ⟨gathered, slot⟩ := slots
      refine ⟨fun looking _ => gathered looking, slot, ?_, fun j hj x hx live => ?_, fun x hx live => ?_⟩
      · rw [ends]
        split_ifs <;> omega
      · have := seeks.earlier j hj x hx live
        omega
      · rcases mem_append.mp hx with h | h
        · have := seeks.here x h live
          omega
        · rw [mem_singleton.mp h] at live
          rw [ends, live]
          simpa using far

lemma walk_entry (wf : WellFormed d) (small : k < d.count)
    (walk : Walk d name creating first k seen (e :: ahead) s) :
    ∃ u, s.load d = some u ∧ d_reclen u.restart.bp u.restart.entryoffsetinblock ≠ 0 ∧
      Stands d k seen e ahead u.restart.slot ∧ (¬ (e.live = true ∧ e.name = name) →
        Walk d name creating first k (seen ++ [e]) ahead u.restart.slot.advance) := by
  obtain ⟨b, here, _, laid, goodAll, fills⟩ := wellFormed_block wf small
  have split := walk.split
  rw [split] at laid goodAll fills
  have good : e.Good := goodAll e (by simp)
  have goodSeen : ∀ x ∈ seen, x.Good := fun x hx => goodAll x (by simp [hx])
  have positive := good.positive
  have inside : span seen < DIRBLKSIZ := by
    simp only [span_append, span_cons] at fills
    omega
  have laidHere : entryAt b (span seen) = e := by
    have := ((laid_append seen _).mp laid).2.1
    simpa using this
  obtain ⟨bp₁, eo₁, off₁, prev₁, use₁, status₁, -, same₁⟩ := restart_keeps _
  obtain ⟨bp₂, eo₂, off₂, prev₂, use₂, -, same₂⟩ := slot_keeps (s.at b _).restart
  have stands : Stands d k seen e ahead (s.at b (span seen)).restart.slot := by
    refine ⟨split, by rw [bp₂, bp₁]; exact here, by rw [eo₂, eo₁]; rfl, by rw [off₂, off₁]; exact walk.offset,
      fun es x same => by rw [prev₂, prev₁]; exact walk.previous es x same, ?_⟩
    rw [bp₂, bp₁, eo₂, eo₁]
    exact laidHere
  refine ⟨s.at b _, load_at walk here goodSeen inside, ?_, stands, fun other =>
    walk_advance walk good stands other (by rw [use₂, use₁]; rfl) ?_⟩
  · have reclen : d_reclen b (span seen) = e.reclen := congrArg Entry.reclen laidHere
    rw [bp₁, eo₁]
    simp only [Search.at]
    omega
  · cases creating with
    | false =>
      have found : s.slotstatus = .FOUND := walk.slots
      have still : (s.at b (span seen)).restart.slotstatus = .FOUND := status₁.trans found
      rw [if_neg (by simp), same₂ still]
      exact still
    | true =>
      have seeks : Seeks d k seen s := walk.slots
      refine slot_spec small split (by rw [off₁]; exact walk.offset) (by rw [bp₁, eo₁]; exact laidHere) good
        (fun looking => restart_gathered seeks inside goodSeen (by rw [← looking, status₁]; rfl))
        (fun busy => ?_)
      have busy' : (s.at b (span seen)).slotstatus ≠ .NONE := by rwa [← status₁]
      rw [same₁ busy']
      exact seeks.slot busy'

lemma walk_block (fills : span seen = DIRBLKSIZ) (walk : Walk d name creating first k seen [] s) :
    Walk d name creating first (k + 1) [] (d.entries (k + 1)) s := by
  have split := walk.split
  simp only [append_nil] at split
  refine ⟨rfl, ?_, fun h => absurd rfl h, fun es x same => by simp at same, fun j low high x hx => ?_,
    fun x hx => by simp at hx, ?_⟩
  · rw [walk.offset, fills]
    simp only [DIRBLKSIZ, span_nil]
    omega
  · by_cases h : j = k
    · subst h
      exact walk.unseen x (split ▸ hx)
    · exact walk.unmet j low (by omega) x hx
  · cases creating with
    | false => exact walk.slots
    | true =>
      have seeks : Seeks d k seen s := walk.slots
      refine ⟨fun _ h => absurd rfl h, seeks.slot, seeks.reached, fun j hj x hx live => ?_,
        fun x hx => by simp at hx⟩
      by_cases h : j = k
      · subst h
        exact seeks.here x (split ▸ hx) live
      · exact seeks.earlier j (by omega) x hx live

lemma entries_ne_nil (wf : WellFormed d) (small : k < d.count) : d.entries k ≠ [] := by
  obtain ⟨_, _, _, _, _, fills⟩ := wellFormed_block wf small
  intro empty
  simp [empty, DIRBLKSIZ] at fills

lemma walk_next (wf : WellFormed d) (inside : last ≤ d.count) (small : k < last)
    (walk : Walk d name creating first k seen ahead s) :
    ∃ j es fs, Walk d name creating first j es fs s ∧ ((j < last ∧ fs ≠ []) ∨ (j = last ∧ es = [])) ∧
      DIRBLKSIZ * j + span es = DIRBLKSIZ * k + span seen := by
  by_cases h : ahead = []
  · subst h
    obtain ⟨_, _, _, _, _, fills⟩ := wellFormed_block wf (lt_of_lt_of_le small inside)
    rw [walk.split, append_nil] at fills
    refine ⟨k + 1, [], _, walk_block fills walk, ?_, by simp only [fills, DIRBLKSIZ, span_nil]; omega⟩
    by_cases more : k + 1 < last
    · exact .inl ⟨more, entries_ne_nil wf (lt_of_lt_of_le more inside)⟩
    · exact .inr ⟨by omega, rfl⟩
  · exact ⟨k, seen, ahead, walk, .inl ⟨small, h⟩, rfl⟩

/-- The loop up to block `last`: it stands at a live entry with the name, or no entry
on the way carries it. -/
lemma searchloop_spec (wf : WellFormed d) (inside : last ≤ d.count) (fuel : Nat)
    (walk : Walk d name creating first k seen ahead s)
    (begun : (k < last ∧ ahead ≠ []) ∨ (k = last ∧ seen = []))
    (enough : DIRBLKSIZ * last ≤ DIRBLKSIZ * k + span seen + fuel) :
    (∃ j es e fs t, searchloop d name (DIRBLKSIZ * last : Nat) fuel s = .found t ∧ j < last ∧
      Stands d j es e fs t ∧ e.live = true ∧ e.name = name) ∨
    (∃ t, searchloop d name (DIRBLKSIZ * last : Nat) fuel s = .notfound t ∧
      Walk d name creating first last [] (d.entries last) t) := by
  induction fuel generalizing k seen ahead s with
  | zero =>
    rcases begun with ⟨small, more⟩ | ⟨rfl, rfl⟩
    · obtain ⟨_, _, _, _, good, fills⟩ := wellFormed_block wf (lt_of_lt_of_le small inside)
      obtain ⟨e, fs, rfl⟩ := exists_cons_of_ne_nil more
      have positive := (good e (by rw [walk.split]; simp)).positive
      rw [walk.split] at fills
      simp only [span_append, span_cons, DIRBLKSIZ] at fills enough
      omega
    · have split : d.entries k = ahead := walk.split
      exact .inr ⟨s, rfl, split ▸ walk⟩
  | succ fuel ih =>
    have offset := walk.offset
    rcases begun with ⟨small, more⟩ | ⟨rfl, rfl⟩
    · obtain ⟨e, fs, rfl⟩ := exists_cons_of_ne_nil more
      have inBlock := lt_of_lt_of_le small inside
      obtain ⟨_, _, _, _, good, fills⟩ := wellFormed_block wf inBlock
      have positive := (good e (by rw [walk.split]; simp)).positive
      rw [walk.split] at fills
      simp only [span_append, span_cons, DIRBLKSIZ] at fills
      have running : s.ni_offset < (DIRBLKSIZ * last : Nat) := by
        simp only [offset, DIRBLKSIZ]
        omega
      obtain ⟨u, load, sane, stands, next⟩ := walk_entry wf inBlock walk
      by_cases hit : e.live = true ∧ e.name = name
      · have isName := (isName_iff stands).mpr hit
        refine .inl ⟨k, seen, e, fs, u.restart.slot, ?_, small, stands, hit⟩
        simp only [searchloop, running, if_true, load, sane, if_false, isName]
      · have isName : ¬ u.restart.slot.isName name = true := fun h => hit ((isName_iff stands).mp h)
        obtain ⟨j, es, fs', walk', begun', same⟩ := walk_next wf inside small (next hit)
        have step : searchloop d name (DIRBLKSIZ * last : Nat) (fuel + 1) s =
            searchloop d name (DIRBLKSIZ * last : Nat) fuel u.restart.slot.advance := by
          simp only [searchloop, running, if_true, load, sane, if_false, isName, Bool.false_eq_true]
        rw [step]
        refine ih walk' begun' ?_
        simp only [span_append, span_cons, span_nil] at same
        omega
    · have stop : ¬ s.ni_offset < (DIRBLKSIZ * k : Nat) := by omega
      have split : d.entries k = ahead := walk.split
      refine .inr ⟨s, ?_, split ▸ walk⟩
      simp only [searchloop, stop, if_false]

lemma off_t_eq {x : Int} (low : -2 ^ 31 ≤ x) (high : x < 2 ^ 31) : off_t x = x := by
  simp only [off_t]
  omega

lemma roundup_eq {x : Int} (nonneg : 0 ≤ x) (high : x ≤ 2 ^ 31 - DIRBLKSIZ) :
    roundup x DIRBLKSIZ = (x + 1023) / 1024 * 1024 := by
  simp only [DIRBLKSIZ] at high
  have sum : off_t (x + 1023) = x + 1023 := off_t_eq (by omega) (by omega)
  have whole : off_t ((x + 1023) / 1024 * 1024) = (x + 1023) / 1024 * 1024 := off_t_eq (by omega) (by omega)
  have positive : (x + 1023).tdiv 1024 = (x + 1023) / 1024 := Int.tdiv_eq_ediv_of_nonneg (by omega)
  simp [roundup, DIRBLKSIZ, sum, positive, whole]

lemma roundup_size (wf : WellFormed d) : roundup d.i_size DIRBLKSIZ = (DIRBLKSIZ * d.count : Nat) := by
  have size := wellFormed_size wf
  have bounded := wf.bounded
  have nonneg := wf.nonneg
  simp only [DIRBLKSIZ] at size
  rw [roundup_eq nonneg (by simp only [DIRBLKSIZ]; omega)]
  simp only [DIRBLKSIZ]
  omega

/-- A pass from one block boundary to another. -/
lemma run_spec (wf : WellFormed d) (inside : last ≤ d.count) (order : k ≤ last)
    (walk : Walk d name creating first k [] (d.entries k) s) :
    (∃ j es e fs t, s.run d name (DIRBLKSIZ * last : Nat) = .found t ∧ j < last ∧
      Stands d j es e fs t ∧ e.live = true ∧ e.name = name) ∨
    (∃ t, s.run d name (DIRBLKSIZ * last : Nat) = .notfound t ∧
      Walk d name creating first last [] (d.entries last) t) := by
  have offset := walk.offset
  refine searchloop_spec wf inside _ walk ?_ ?_
  · rcases Nat.lt_or_eq_of_le order with small | same
    · exact .inl ⟨small, entries_ne_nil wf (lt_of_lt_of_le small inside)⟩
    · exact .inr ⟨same, rfl⟩
  · omega

/-- The variables before a pass from block `k`. -/
lemma walk_start {flag : Flag} (n : Nat) (which : creating = decide (flag = .CREATE)) :
    Walk d name creating 0 0 [] (d.entries 0) (Search.start flag n) := by
  refine ⟨rfl, rfl, fun h => absurd rfl h, fun es x same => by simp at same, fun j _ h => by omega,
    fun x hx => by simp at hx, ?_⟩
  subst which
  by_cases h : flag = .CREATE
  · simp only [h]
    exact ⟨fun _ h => absurd rfl h, fun h => absurd rfl h, le_rfl, fun j hj => by omega,
      fun x hx => by simp at hx⟩
  · simp [h, Search.start]

lemma slotneeded_searchloop (endsearch : Int) (fuel : Nat)
    (result : searchloop d name endsearch fuel s = .notfound t) : t.slotneeded = s.slotneeded := by
  induction fuel generalizing s with
  | zero =>
    simp only [searchloop, Searched.notfound.injEq] at result
    rw [result]
  | succ fuel ih =>
    simp only [searchloop] at result
    split_ifs at result with running
    · split at result
      · cases result
      · next u load =>
        have loaded : u.slotneeded = s.slotneeded := by
          simp only [Search.load] at load
          split_ifs at load
          · obtain ⟨-, _, rfl⟩ := Option.map_eq_some_iff.mp load
            rfl
          · cases load
            rfl
        have restarted := (restart_keeps u).2.2.2.2.2.2.1
        split_ifs at result with mangled hit
        · exact (ih result).trans (restarted.trans loaded)
        · exact (ih result).trans ((slot_keeps u.restart).2.2.2.2.2.1.trans (restarted.trans loaded))
    · cases result
      rfl

/-- A name that is not there: the search for a slot ends behind the last block. -/
lemma search_absent (wf : WellFormed d) (absent : name ∉ d.live.map fst) :
    ∃ t, passes d name (Search.start .CREATE name.length) none = .notfound t ∧
      Seeks d d.count [] t ∧ t.ni_offset = (DIRBLKSIZ * d.count : Nat) ∧ t.slotneeded = DIRSIZ name.length := by
  have start : Walk d name true 0 0 [] (d.entries 0) (Search.start .CREATE name.length) :=
    walk_start name.length rfl
  simp only [passes, roundup_size wf]
  rcases run_spec wf le_rfl (Nat.zero_le _) start with ⟨j, es, e, fs, t, _, small, stands, live, isName⟩ | ⟨t, done, walk⟩
  · exact absurd (isName ▸ mem_map_of_mem (stands.listed small live)) absent
  · exact ⟨t, done, walk.slots, walk.offset, slotneeded_searchloop _ _ done⟩

lemma walk_from {s : Search} (k : Nat) (offset : s.ni_offset = (DIRBLKSIZ * k : Nat))
    (idle : s.slotstatus = .FOUND) : Walk d name false k k [] (d.entries k) s :=
  ⟨rfl, offset, fun h => absurd rfl h, fun es x same => by simp at same, fun j low high => by omega,
    fun x hx => by simp at hx, idle⟩

/-- The search ends at a live entry with the name, or no live entry carries it. -/
def Finds (d : Dir) (name : List UInt8) (r : Searched) : Prop :=
  (∃ j es e fs t, r = .found t ∧ j < d.count ∧ Stands d j es e fs t ∧ e.live = true ∧ e.name = name) ∨
    (∃ t, r = .notfound t) ∧ name ∉ d.live.map Prod.fst

lemma Finds.present {r : Searched} (finds : Finds d name r) (present : name ∈ d.live.map fst) :
    ∃ j es e fs t, r = .found t ∧ j < d.count ∧ Stands d j es e fs t ∧ e.live = true ∧ e.name = name :=
  finds.resolve_right fun absent => absent.2 present

lemma absent_of_unmet (unmet : ∀ i < d.count, ∀ e ∈ d.entries i, ¬ (e.live = true ∧ e.name = name)) :
    name ∉ d.live.map fst := by
  intro present
  obtain ⟨⟨_, ino⟩, listed, rfl⟩ := mem_map.mp present
  obtain ⟨i, small, e, he, live, isName, _⟩ := mem_live.mp listed
  exact unmet i small e he ⟨live, isName⟩

lemma finds_once (wf : WellFormed d) (flag : Flag) (n : Nat) :
    Finds d name (passes d name (Search.start flag n) none) := by
  simp only [passes, roundup_size wf]
  rcases run_spec wf le_rfl (Nat.zero_le _) (walk_start n rfl) with hit | ⟨t, done, walk⟩
  · exact .inl hit
  · exact .inr ⟨⟨t, done⟩, absent_of_unmet fun i => walk.unmet i (Nat.zero_le i)⟩

/-- Wherever the first of two passes starts. -/
lemma finds_twice (wf : WellFormed d) (n : Nat) {prevoffset : Int} (nonneg : 0 ≤ prevoffset)
    (boundary : prevoffset % DIRBLKSIZ = 0) :
    Finds d name (passes d name (Search.start .LOOKUP n) (some prevoffset)) := by
  obtain ⟨a, inside, start⟩ : ∃ a, a ≤ d.count ∧
      (if prevoffset > d.i_size then 0 else prevoffset) = (DIRBLKSIZ * a : Nat) := by
    have size := wellFormed_size wf
    by_cases h : prevoffset > d.i_size
    · exact ⟨0, Nat.zero_le _, by simp [h]⟩
    · refine ⟨(prevoffset / DIRBLKSIZ).toNat, ?_, ?_⟩
      · simp only [DIRBLKSIZ] at size ⊢
        omega
      · simp only [DIRBLKSIZ] at boundary ⊢
        omega
  have aligned : blkoff (DIRBLKSIZ * a : Nat) = 0 := by
    simp only [blkoff, DIRBLKSIZ]
    omega
  simp only [passes, roundup_size wf, start, Search.resume, aligned, if_true]
  have fresh : ∀ s : Search, s.slotstatus = .FOUND → s.ni_offset = (DIRBLKSIZ * a : Nat) →
      Walk d name false a a [] (d.entries a) s := fun s idle offset => walk_from a offset idle
  rcases run_spec wf le_rfl inside (fresh { Search.start .LOOKUP n with
    ni_offset := (DIRBLKSIZ * a : Nat), entryoffsetinblock := 0 } rfl rfl) with hit | ⟨t, done, walk⟩
  · obtain ⟨j, es, x, fs, t, done, rest⟩ := hit
    simp only [done]
    exact .inl ⟨j, es, x, fs, t, rfl, rest⟩
  · simp only [done]
    have again : Walk d name false 0 0 [] (d.entries 0) { t with ni_offset := 0 } := walk_from 0 rfl walk.slots
    rcases run_spec wf inside (Nat.zero_le a) again with hit | ⟨t', done', walk'⟩
    · obtain ⟨j, es, x, fs, t', done', low, rest⟩ := hit
      exact .inl ⟨j, es, x, fs, t', done', by omega, rest⟩
    · refine .inr ⟨⟨t', done'⟩, absent_of_unmet fun i small => ?_⟩
      by_cases low : i < a
      · exact walk'.unmet i (Nat.zero_le i) low
      · exact walk.unmet i (by omega) small

end Walking

end Directory
