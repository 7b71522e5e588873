import RetroBSD.SwapperPlaces

/-!
# What is swapped in is what was swapped out

A process that is swapped out has its bytes in blocks of its own until it is
swapped in again. While an image moves nobody changes the region, because nobody
but the swapper, or the child that is copied, can run.
-/

namespace Swapper

open ResourceMap MemoryWindows Runs
open Function (update update_of_ne update_self)
open SwapSpace (btod USIZE DEV_BSIZE USER_DATA_START USER_DATA_END)

/-- Who holds a block of the swap area, and for which segment. -/
abbrev Owner := ℕ → Option (ℕ × Fin 3)

def AtHome (g : Seg) : Prop :=
  g.p_daddr = USER_DATA_START ∧ g.p_saddr = USER_DATA_END - g.p_ssize

/-- The data and the stack that a process with these sizes has in a memory. -/
def picture (m : ℕ → UInt8) (g : Seg) : Image :=
  ⟨window m USER_DATA_START g.p_dsize, window m (USER_DATA_END - g.p_ssize) g.p_ssize⟩

def Owns (own : Owner) (p : ℕ) (n : Fin 3) (addr size : ℕ) : Prop :=
  ∀ x, addr ≤ x → x < addr + btod size → own x = some (p, n)

def onSwap (dev : ℕ → UInt8) (blkno size : ℕ) : List UInt8 := window dev (blkno * DEV_BSIZE) size

/-- The image of `p` is in the swap area. -/
structure Saved (own : Owner) (dev : ℕ → UInt8) (g : Seg) (image : Image) (p : ℕ) : Prop where
  data : Owns own p 0 g.p_daddr g.p_dsize
  stack : Owns own p 1 g.p_saddr g.p_ssize
  area : Owns own p 2 g.p_addr USIZE
  dataBytes : onSwap dev g.p_daddr g.p_dsize = image.data
  stackBytes : onSwap dev g.p_saddr g.p_ssize = image.stack
  whole : ∃ m, image = picture m g

/-- `swapout` has its blocks, and the image to be written is still in memory. -/
structure Ready (own : Owner) (core : ℕ → UInt8) (g : Seg) (image : Image) (p : ℕ) (f : Frame) :
    Prop where
  home : AtHome g
  sizes : f.odata = g.p_dsize ∧ f.ostack = g.p_ssize
  data : Owns own p 0 (f.a 0) g.p_dsize
  stack : Owns own p 1 (f.a 1) g.p_ssize
  area : Owns own p 2 (f.a 2) USIZE
  image : image = picture core g

def Leaving (own : Owner) (core dev : ℕ → UInt8) (g : Seg) (image : Image) (p : ℕ) : OutPc → Prop
  | .start => AtHome g
  | .data f => Ready own core g image p f
  | .stack f => Ready own core g image p f ∧ onSwap dev (f.a 0) g.p_dsize = image.data
  | .area f | .finish f => Ready own core g image p f ∧
      onSwap dev (f.a 0) g.p_dsize = image.data ∧ onSwap dev (f.a 1) g.p_ssize = image.stack

def Entering (own : Owner) (core dev : ℕ → UInt8) (g : Seg) (image : Image) (p : ℕ) : InPc → Prop
  | .data => Saved own dev g image p
  | .stack saddr => saddr = USER_DATA_END - g.p_ssize ∧ Owns own p 1 g.p_saddr g.p_ssize ∧
      Owns own p 2 g.p_addr USIZE ∧ onSwap dev g.p_saddr g.p_ssize = image.stack ∧
      (∃ m, image = picture m g) ∧ window core USER_DATA_START g.p_dsize = image.data
  | .area saddr => saddr = USER_DATA_END - g.p_ssize ∧ Owns own p 2 g.p_addr USIZE ∧
      image = picture core g
  | .finish saddr => saddr = USER_DATA_END - g.p_ssize ∧ image = picture core g

/-- Every process has its bytes where its entry says. -/
structure Memory (own : Owner) (s : State) : Prop where
  map : WellFormed s.swapmap
  unowned : ∀ x ∈ free s.swapmap, own x = none
  home : ∀ p, Resident s p → AtHome (s.seg p)
  saved : ∀ p ∈ s.allproc, p ≠ 0 → s.sload p = false → (∀ q pc, s.thread 0 ≠ .swapout p q pc) →
    (∀ pc, s.thread 0 ≠ .swapin p pc) → Saved own s.swapdev (s.seg p) (s.image p) p
  leaving : ∀ v q pc, s.thread 0 = .swapout v q pc →
    Leaving own s.core s.swapdev (s.seg v) (s.image v) v pc
  entering : ∀ q pc, s.thread 0 = .swapin q pc →
    Entering own s.core s.swapdev (s.seg q) (s.image q) q pc
  copying : ∀ child parent pc, s.thread child = .newproc parent pc →
    Leaving own s.core s.swapdev (s.seg child) (s.image child) child pc
  forked : ∀ child parent, s.thread child = .newproc parent .start →
    s.image child = picture s.core (s.seg child)

variable {own own' : Owner} {core dev dev' : ℕ → UInt8} {g : Seg} {image : Image}
variable {s t : State} {p q u0 blkno size count coreaddr : ℕ} {n m : Fin 3} {a : Fin 3 → ℕ}
variable {pc pc' : OutPc} {v child parent : ℕ}

/-- The map is in order, and nobody holds a block that is free. -/
structure Mapped (own : Owner) (mp : Map) : Prop where
  map : WellFormed mp
  unowned : ∀ x ∈ free mp, own x = none

lemma Memory.mapped (memory : Memory own s) : Mapped own s.swapmap := ⟨memory.map, memory.unowned⟩

/-! ## Blocks -/

lemma block_inside {i : ℕ} (small : i < size) : blkno ≤ (blkno * DEV_BSIZE + i) / DEV_BSIZE ∧
      (blkno * DEV_BSIZE + i) / DEV_BSIZE < blkno + btod size := by
  simp only [btod, DEV_BSIZE]
  omega

lemma Owns.block {i : ℕ} (owns : Owns own p n blkno size) (small : i < size) :
    own ((blkno * DEV_BSIZE + i) / DEV_BSIZE) = some (p, n) :=
  owns _ (block_inside small).1 (block_inside small).2

/-- What a process owns it keeps, with the bytes in it. -/
structure Spares (own own' : Owner) (dev dev' : ℕ → UInt8) (p : ℕ) : Prop where
  owned : ∀ x n, own x = some (p, n) → own' x = some (p, n)
  bytes : ∀ y n, own (y / DEV_BSIZE) = some (p, n) → dev' y = dev y

lemma Spares.refl (own : Owner) (dev : ℕ → UInt8) (p : ℕ) : Spares own own dev dev p :=
  ⟨fun _ _ => id, fun _ _ _ => rfl⟩

lemma Spares.onSwap (spares : Spares own own' dev dev' p) (owns : Owns own p n blkno size) :
    onSwap dev' blkno size = onSwap dev blkno size := by
  apply window_eq_iff.mpr
  intro i small
  exact spares.bytes _ n (owns.block small)

lemma Spares.owns (spares : Spares own own' dev dev' p) (owns : Owns own p n blkno size) :
    Owns own' p n blkno size :=
  fun x low high => spares.owned x n (owns x low high)

/-- After a part of a swap of `p` the map is in order, and others have what they had. -/
def Part (own own' : Owner) (s t : State) (p : ℕ) : Prop :=
  Mapped own' t.swapmap ∧ ∀ q, q ≠ p → Spares own own' s.swapdev t.swapdev q

lemma Saved.spared (saved : Saved own dev g image p) (spares : Spares own own' dev dev' p) :
    Saved own' dev' g image p where
  data := spares.owns saved.data
  stack := spares.owns saved.stack
  area := spares.owns saved.area
  dataBytes := (spares.onSwap saved.data).trans saved.dataBytes
  stackBytes := (spares.onSwap saved.stack).trans saved.stackBytes
  whole := saved.whole

/-- A transfer to blocks of one segment leaves the others alone. -/
lemma write_other (owns : Owns own p n blkno count) {y : ℕ}
    (other : own (y / DEV_BSIZE) = some (q, m)) (apart : (q, m) ≠ (p, n)) :
    transfer dev (blkno * DEV_BSIZE) core coreaddr count y = dev y := by
  apply if_neg
  rintro ⟨low, high⟩
  have block := owns.block (i := y - blkno * DEV_BSIZE) (by omega)
  rw [Nat.add_sub_of_le low] at block
  exact apart (Option.some.inj (other.symm.trans block))

def wrote (s : State) (blkno coreaddr count : ℕ) : State :=
  if count ≠ 0 then s.swapWrite blkno coreaddr count else s

lemma wrote_frame (s : State) (blkno coreaddr count : ℕ) :
    ∃ dev, wrote s blkno coreaddr count = { s with swapdev := dev } := by
  unfold wrote
  split_ifs
  · exact ⟨_, rfl⟩
  · exact ⟨s.swapdev, rfl⟩

lemma wrote_bytes (s : State) (blkno coreaddr count : ℕ) :
    onSwap (wrote s blkno coreaddr count).swapdev blkno count = window s.core coreaddr count := by
  unfold wrote
  split_ifs with some
  · exact window_transfer
  · rw [not_not.mp some]
    rfl

lemma wrote_other (owns : Owns own p n blkno count) {y : ℕ}
    (other : own (y / DEV_BSIZE) = some (q, m)) (apart : (q, m) ≠ (p, n)) :
    (wrote s blkno coreaddr count).swapdev y = s.swapdev y := by
  unfold wrote
  split_ifs
  · exact write_other owns other apart
  · rfl

lemma wrote_spares (coreaddr : ℕ) (owns : Owns own p n blkno count) :
    ∀ q, q ≠ p → Spares own own s.swapdev (wrote s blkno coreaddr count).swapdev q := by
  intro q other
  refine ⟨fun _ _ => id, fun y m theirs => wrote_other owns theirs ?_⟩
  exact fun same => other (congrArg Prod.fst same)

/-! ## Parts of a swap -/

/-- The owners once `p` has three pieces. -/
def granted (own : Owner) (p : ℕ) (a sizes : Fin 3 → ℕ) : Owner := fun x =>
  if a 0 ≤ x ∧ x < a 0 + sizes 0 then some (p, 0)
  else if a 1 ≤ x ∧ x < a 1 + sizes 1 then some (p, 1)
  else if a 2 ≤ x ∧ x < a 2 + sizes 2 then some (p, 2)
  else own x

lemma granted_piece {sizes : Fin 3 → ℕ}
    (apart : ∀ n m, n ≠ m → Disjoint (Set.Ico (a n) (a n + sizes n)) (Set.Ico (a m) (a m + sizes m)))
    {x : ℕ} (n : Fin 3) (low : a n ≤ x) (high : x < a n + sizes n) :
    granted own p a sizes x = some (p, n) := by
  have only : ∀ m, a m ≤ x ∧ x < a m + sizes m → m = n := by
    intro m inside
    by_contra other
    exact Set.disjoint_left.mp (apart m n other) (Set.mem_Ico.mpr inside)
      (Set.mem_Ico.mpr ⟨low, high⟩)
  unfold granted
  split_ifs with zero one two
  · rw [only 0 zero]
  · rw [only 1 one]
  · rw [only 2 two]
  · have cases : n = 0 ∨ n = 1 ∨ n = 2 := by omega
    rcases cases with rfl | rfl | rfl
    · exact absurd ⟨low, high⟩ zero
    · exact absurd ⟨low, high⟩ one
    · exact absurd ⟨low, high⟩ two

lemma granted_other {sizes : Fin 3 → ℕ} {x : ℕ}
    (outside : ∀ n, x ∉ Set.Ico (a n) (a n + sizes n)) : granted own p a sizes x = own x := by
  simp only [Set.mem_Ico] at outside
  simp [granted, if_neg (outside 0), if_neg (outside 1), if_neg (outside 2)]

/-- `swapout` gets blocks that nobody has. -/
lemma start_next (mapped : Mapped own s.swapmap)
    (home : AtHome (s.seg p)) (image : s.image p = picture s.core (s.seg p))
    (part : s.swapout p a .start = some (t, some pc)) : ∃ own', Part own own' s t p ∧
      Leaving own' t.core t.swapdev (t.seg p) (t.image p) p pc := by
  obtain ⟨r, a', mp, result, map', -, effect⟩ := malloc3_spec mapped.map _ _ _ a
  obtain ⟨got, found⟩ := Option.ite_none_left_eq_some.mp part
  rw [result] at got found
  cases found
  rcases effect with ⟨none, -⟩ | ⟨-, inside, apart, rest, -⟩
  · exact absurd none got
  have piece := @granted_piece own p a' _ apart
  refine ⟨granted own p a' ![btod (s.seg p).p_dsize, btod (s.seg p).p_ssize, btod USIZE],
    ⟨⟨map', ?_⟩, ?_⟩, ?_⟩
  · intro x unused
    rw [show free mp = _ from rest] at unused
    rw [granted_other fun n there => unused.2 (Set.mem_iUnion.mpr ⟨n, there⟩)]
    exact mapped.unowned x unused.1
  · intro q other
    refine ⟨fun x n theirs => ?_, fun _ _ _ => rfl⟩
    rw [granted_other fun m there => nomatch (mapped.unowned x (inside m there)).symm.trans theirs]
    exact theirs
  · exact ⟨home, ⟨rfl, rfl⟩, fun x => piece 0, fun x => piece 1, fun x => piece 2, image⟩

/-- A part of `swapout` writes what it has to write, and nothing of others. -/
lemma leaving_next (mapped : Mapped own s.swapmap)
    (leaving : Leaving own s.core s.swapdev (s.seg p) (s.image p) p pc)
    (image : pc = .start → s.image p = picture s.core (s.seg p))
    (part : s.swapout p a pc = some (t, some pc')) : ∃ own', Part own own' s t p ∧
      Leaving own' t.core t.swapdev (t.seg p) (t.image p) p pc' := by
  cases pc with
  | start => exact start_next mapped leaving (image rfl) part
  | data f =>
    obtain ⟨rfl, rfl⟩ : t = wrote s (f.a 0) (s.seg p).p_daddr f.odata ∧ pc' = .stack f := by
      cases part
      exact ⟨rfl, rfl⟩
    have owns : Owns own p 0 (f.a 0) f.odata := leaving.sizes.1 ▸ leaving.data
    have spares := wrote_spares (s := s) (s.seg p).p_daddr owns
    have bytes := wrote_bytes s (f.a 0) (s.seg p).p_daddr f.odata
    obtain ⟨dev, frame⟩ := wrote_frame s _ (s.seg p).p_daddr f.odata
    rw [frame] at spares bytes ⊢
    refine ⟨own, ⟨mapped, spares⟩, leaving, ?_⟩
    rw [leaving.sizes.1, leaving.home.1] at bytes
    rw [leaving.image]
    exact bytes
  | stack f =>
    obtain ⟨ready, before⟩ := leaving
    obtain ⟨rfl, rfl⟩ : t = wrote s (f.a 1) (s.seg p).p_saddr f.ostack ∧ pc' = .area f := by
      cases part
      exact ⟨rfl, rfl⟩
    have owns : Owns own p 1 (f.a 1) f.ostack := ready.sizes.2 ▸ ready.stack
    have spares := wrote_spares (s := s) (s.seg p).p_saddr owns
    have bytes := wrote_bytes s (f.a 1) (s.seg p).p_saddr f.ostack
    have kept : onSwap (wrote s (f.a 1) (s.seg p).p_saddr f.ostack).swapdev (f.a 0)
        (s.seg p).p_dsize = (s.image p).data := by
      refine Eq.trans (window_eq_iff.mpr fun i small => ?_) before
      exact wrote_other owns (ready.data.block small) (by simp)
    obtain ⟨dev, frame⟩ := wrote_frame s _ (s.seg p).p_saddr f.ostack
    rw [frame] at spares bytes kept ⊢
    refine ⟨own, ⟨mapped, spares⟩, ready, kept, ?_⟩
    rw [ready.sizes.2, ready.home.2] at bytes
    rw [ready.image]
    exact bytes
  | area f =>
    cases part
    exact ⟨own, ⟨mapped, fun q _ => Spares.refl own _ q⟩, leaving⟩
  | finish f => cases part

/-- `mfree` frees at most what it is given. -/
lemma mfree_within {mp mp' : Map} (wf : WellFormed mp) {addr : ℕ}
    (apart : Disjoint (SwapSpace.range addr size) (free mp)) (result : mfree mp size addr = some mp') :
    WellFormed mp' ∧ free mp' ⊆ free mp ∪ SwapSpace.range addr size := by
  by_cases lost : overflows mp size addr = true
  · have same : mp' = mp := by
      simp only [overflows, Bool.and_eq_true, Bool.not_eq_true', decide_eq_true_eq] at lost
      simp only [mfree, lost.1.1, lost.1.2, lost.2, Bool.false_eq_true, if_false] at result
      split_ifs at result <;> exact (Option.some.inj result).symm
    rw [same]
    exact ⟨wf, Set.subset_union_left⟩
  · have nonzero : 0 < size → addr ≠ 0 := by
      rintro asked rfl
      simp only [mfree, if_neg asked.ne', if_pos] at result
      cases result
    obtain ⟨mp₁, result₁, wf₁, back⟩ := SwapSpace.mfree_range wf nonzero apart (by simpa using lost)
    cases result.symm.trans result₁
    exact ⟨wf₁, back.subset⟩

/-- The owners once `p` has given back a segment. -/
def released (own : Owner) (p : ℕ) (n : Fin 3) : Owner :=
  fun x => if own x = some (p, n) then none else own x

lemma released_other {x : ℕ} (theirs : own x = some (q, m)) (apart : (q, m) ≠ (p, n)) :
    released own p n x = some (q, m) := by
  unfold released
  rw [if_neg (fun same => apart (Option.some.inj (theirs.symm.trans same)))]
  exact theirs

lemma released_spares (n : Fin 3) (dev : ℕ → UInt8) :
    ∀ q, q ≠ p → Spares own (released own p n) dev dev q := by
  intro q other
  refine ⟨fun x m theirs => released_other theirs ?_, fun _ _ _ => rfl⟩
  exact fun same => other (congrArg Prod.fst same)

lemma released_owns {addr : ℕ} (owns : Owns own p m addr size) (apart : m ≠ n) :
    Owns (released own p n) p m addr size :=
  fun x low high => released_other (owns x low high) fun same => apart (congrArg Prod.snd same)

lemma release {mp mp' : Map} (mapped : Mapped own mp) {addr : ℕ}
    (owns : Owns own p n addr size) (result : mfree mp (btod size) addr = some mp') : Mapped (released own p n) mp' := by
  have apart : Disjoint (SwapSpace.range addr (btod size)) (free mp) := by
    refine Set.disjoint_left.mpr fun x inside unused => ?_
    obtain ⟨low, high⟩ := Set.mem_Ico.mp inside
    exact nomatch (owns x low high).symm.trans (mapped.unowned x unused)
  obtain ⟨wf, within⟩ := mfree_within mapped.map apart result
  refine ⟨wf, fun x unused => ?_⟩
  unfold released
  split_ifs with theirs
  · rfl
  · rcases within unused with before | back
    · exact mapped.unowned x before
    · obtain ⟨low, high⟩ := Set.mem_Ico.mp back
      exact absurd (owns x low high) theirs

/-- The read of a segment in `swapin`, whether or not there is one. -/
lemma read_part (mapped : Mapped own s.swapmap) (owns : Owns own p n blkno count) {next next' : InPc}
    (part : (if count ≠ 0 then (mfree s.swapmap (btod count) blkno).map fun mp =>
        ({ s.swapRead blkno coreaddr count with swapmap := mp }, some next)
      else some (s, some next)) = some (t, some next')) :
    next' = next ∧ ∃ mp, t = { s with
        swapmap := mp, core := transfer s.core coreaddr s.swapdev (blkno * DEV_BSIZE) count } ∧
      Mapped (released own p n) mp := by
  split_ifs at part with some
  · obtain ⟨mp, result, ⟨⟩⟩ := Option.map_eq_some_iff.mp part
    exact ⟨rfl, mp, rfl, release mapped owns result⟩
  · cases part
    refine ⟨rfl, s.swapmap, ?_, mapped.map, fun x unused => ?_⟩
    · rw [not_not.mp some, transfer_zero]
    · unfold released
      rw [mapped.unowned x unused, if_neg nofun]

/-- A part of `swapin` brings back what was written, and takes nothing of
others. -/
lemma entering_next (mapped : Mapped own s.swapmap)
    {pc pc' : InPc} (entering : Entering own s.core s.swapdev (s.seg p) (s.image p) p pc)
    (part : s.swapin u0 p pc = some (t, some pc')) : ∃ own', Part own own' s t p ∧
      Entering own' t.core t.swapdev (t.seg p) (t.image p) p pc' := by
  cases pc with
  | data =>
    obtain ⟨data, stack, area, dataBytes, stackBytes, whole⟩ := entering
    obtain ⟨rfl, mp, rfl, mapped'⟩ := read_part mapped data part
    refine ⟨released own p 0, ⟨mapped', released_spares 0 _⟩, rfl, ?_, ?_, stackBytes, whole, ?_⟩
    · exact released_owns stack (by decide)
    · exact released_owns area (by decide)
    · exact window_transfer.trans dataBytes
  | stack saddr =>
    obtain ⟨rfl, stack, area, stackBytes, ⟨m, whole⟩, dataBytes⟩ := entering
    obtain ⟨rfl, mp, rfl, mapped'⟩ := read_part mapped stack part
    refine ⟨released own p 1, ⟨mapped', released_spares 1 _⟩, rfl, ?_, ?_⟩
    · exact released_owns area (by decide)
    · rw [whole] at stackBytes dataBytes ⊢
      unfold picture
      rw [window_transfer_agrees stackBytes dataBytes, window_transfer]
      exact congrArg _ stackBytes.symm
  | area saddr =>
    obtain ⟨rfl, area, whole⟩ := entering
    obtain ⟨mp, result, ⟨⟩⟩ := Option.map_eq_some_iff.mp part
    exact ⟨released own p 2, ⟨release mapped area result, released_spares 2 _⟩, rfl, whole⟩
  | finish saddr => cases part

/-! ## Steps -/

/-- Where no child is copied. -/
lemma Memory.of_uncopied {t : State} (mapped : Mapped own t.swapmap)
    (swapper : ∀ parent pc, t.thread 0 ≠ .newproc parent pc)
    (users : ∀ p, p ≠ 0 → t.thread p = .user) (home : ∀ p, Resident t p → AtHome (t.seg p))
    (saved : ∀ p ∈ t.allproc, p ≠ 0 → t.sload p = false → (∀ q pc, t.thread 0 ≠ .swapout p q pc) →
      (∀ pc, t.thread 0 ≠ .swapin p pc) → Saved own t.swapdev (t.seg p) (t.image p) p)
    (leaving : ∀ v q pc, t.thread 0 = .swapout v q pc →
      Leaving own t.core t.swapdev (t.seg v) (t.image v) v pc)
    (entering : ∀ q pc, t.thread 0 = .swapin q pc →
      Entering own t.core t.swapdev (t.seg q) (t.image q) q pc) : Memory own t := by
  have none : ∀ child parent pc, t.thread child ≠ .newproc parent pc := by
    intro child parent pc copies
    by_cases user : child = 0
    · subst user
      exact swapper parent pc copies
    · exact nomatch (users child user).symm.trans copies
  exact ⟨mapped.map, mapped.unowned, home, saved, leaving, entering,
    fun c parent pc copies => absurd copies (none c parent pc),
    fun c parent copies => absurd copies (none c parent .start)⟩

/-- While a user process runs in code of its own no image is on its way. -/
lemma Memory.of_shared {t : State} (mapped : Mapped own t.swapmap) (search : t.thread 0 = .search)
    (users : ∀ p, p ≠ 0 → t.thread p = .user) (home : ∀ p, Resident t p → AtHome (t.seg p))
    (saved : ∀ p ∈ t.allproc, p ≠ 0 → t.sload p = false →
      Saved own t.swapdev (t.seg p) (t.image p) p) : Memory own t :=
  .of_uncopied mapped (by rw [search]; nofun) users home
    (fun p here user out _ _ => saved p here user out) (by rw [search]; nofun)
    (by rw [search]; nofun)

lemma Memory.of_leaving {t : State} (mapped : Mapped own t.swapmap)
    (at_ : t.thread 0 = .swapout v q pc) (users : ∀ p, p ≠ 0 → t.thread p = .user)
    (empty : ∀ p, ¬ Resident t p) (saved : ∀ p ∈ t.allproc, p ≠ 0 → p ≠ v → t.sload p = false →
      Saved own t.swapdev (t.seg p) (t.image p) p)
    (leaving : Leaving own t.core t.swapdev (t.seg v) (t.image v) v pc) : Memory own t := by
  refine .of_uncopied mapped (by rw [at_]; nofun) users (fun p resident => absurd resident (empty p))
    (fun p here user out notLeaving _ => saved p here user ?_ out) ?_ (by rw [at_]; nofun)
  · rintro rfl
    exact notLeaving q pc at_
  · intro v' q' pc' swaps
    cases at_.symm.trans swaps
    exact leaving

lemma Memory.of_entering {t : State} {pc : InPc} (mapped : Mapped own t.swapmap)
    (at_ : t.thread 0 = .swapin q pc) (users : ∀ p, p ≠ 0 → t.thread p = .user)
    (empty : ∀ p, ¬ Resident t p) (saved : ∀ p ∈ t.allproc, p ≠ 0 → p ≠ q → t.sload p = false →
      Saved own t.swapdev (t.seg p) (t.image p) p)
    (entering : Entering own t.core t.swapdev (t.seg q) (t.image q) q pc) : Memory own t := by
  refine .of_uncopied mapped (by rw [at_]; nofun) users (fun p resident => absurd resident (empty p))
    (fun p here user out _ notEntering => saved p here user ?_ out) (by rw [at_]; nofun) ?_
  · rintro rfl
    exact notEntering pc at_
  · intro q' pc' swaps
    cases at_.symm.trans swaps
    exact entering

lemma Memory.saved_of_search (memory : Memory own s) (search : s.thread 0 = .search)
    (here : p ∈ s.allproc) (user : p ≠ 0) (out : s.sload p = false) :
    Saved own s.swapdev (s.seg p) (s.image p) p :=
  memory.saved p here user out (by rw [search]; nofun) (by rw [search]; nofun)

/-- The child is the only one that is copied. -/
lemma only_copy (search : s.thread 0 = .search)
    (users : ∀ p, p ≠ 0 → p ≠ child → s.thread p = .user) (c parent' : ℕ) (pc' : OutPc)
    (copies : update s.thread child (.newproc parent pc) c = .newproc parent' pc') :
    c = child ∧ pc' = pc := by
  by_cases same : c = child
  · subst same
    rw [update_self] at copies
    cases copies
    exact ⟨rfl, rfl⟩
  · rw [update_of_ne same] at copies
    by_cases zero : c = 0
    · subst zero
      exact nomatch search.symm.trans copies
    · exact nomatch (users c zero same).symm.trans copies

lemma swapout_started (part : s.swapout p a pc = some (t, some .start)) : False := by
  cases pc with
  | start => obtain ⟨-, ⟨⟩⟩ := Option.ite_none_left_eq_some.mp part
  | data f | stack f | area f | finish f => cases part

/-- What `swapout` leaves behind. -/
lemma Leaving.saved {f : Frame} (leaving : Leaving own core dev g image p (.finish f)) :
    Saved own dev { g with p_daddr := f.a 0, p_saddr := f.a 1, p_addr := f.a 2 } image p where
  data := leaving.1.data
  stack := leaving.1.stack
  area := leaving.1.area
  dataBytes := leaving.2.1
  stackBytes := leaving.2.2
  whole := ⟨core, leaving.1.image⟩

/-- The call of `swapout` remembers what is in memory. -/
lemma called_leaving (leaving : Leaving own s.core s.swapdev (s.seg v) (s.image v) v pc) :
    Leaving own (s.called v pc).core (s.called v pc).swapdev ((s.called v pc).seg v)
      ((s.called v pc).image v) v pc ∧
    (pc = .start → (s.called v pc).image v = picture (s.called v pc).core ((s.called v pc).seg v)) := by
  cases pc with
  | start =>
    have home : AtHome (s.seg v) := leaving
    refine ⟨leaving, fun _ => ?_⟩
    simp [State.called, State.remember, State.bytes, home.1, home.2, picture]
  | data f | stack f | area f | finish f => exact ⟨leaving, nofun⟩

lemma called_image (pc : OutPc) (other : p ≠ v) : (s.called v pc).image p = s.image p := by
  cases pc with
  | start => exact update_of_ne other ..
  | data f | stack f | area f | finish f => rfl

section Steps

variable (place : Place s) (memory : Memory own s)
include place memory

section User

variable (runs : s.cur = some p) (user : s.thread p = .user)
include runs user

lemma compute_memory (core : ℕ → UInt8) (p_dsize p_ssize : ℕ) : Memory own { s with
      core
      seg := update s.seg p
        ⟨p_dsize, p_ssize, USER_DATA_START, USER_DATA_END - p_ssize, (s.seg p).p_addr⟩ } := by
  obtain ⟨-, search, users, only⟩ := place.user_alone runs user
  refine Memory.of_shared memory.mapped search users ?_ ?_
  · intro q resident
    obtain rfl := (only q).mp resident
    simp only [update_self]
    exact ⟨rfl, rfl⟩
  · intro q here other out
    have apart : q ≠ p := by
      rintro rfl
      exact nomatch (place.orderly.current q runs).2.2.symm.trans out
    simp only [update_of_ne apart]
    exact memory.saved_of_search search here other out

lemma newproc_memory (step : s.newproc p = some t) : Memory own t := by
  have o := place.orderly
  obtain ⟨-, search, users, only⟩ := place.user_alone runs user
  unfold State.newproc at step
  split at step
  · cases step
  rename_i child rest free
  cases step
  obtain ⟨fresh, -⟩ := o.fresh free
  have childNe : child ≠ 0 := (ne_of_mem_of_not_mem o.swapper.1 fresh).symm
  have home := memory.home p ((only p).mpr rfl)
  have search' : update s.thread child (.newproc p .start) 0 = .search :=
    (update_of_ne childNe.symm ..).trans search
  have copy := @only_copy s .start child p search fun q user _ => users q user
  have picture : s.bytes p = picture s.core (s.seg p) := by
    simp [State.bytes, home.1, home.2, picture]
  exact {
    map := memory.map
    unowned := memory.unowned
    home := by
      rintro q ⟨here, system, loaded⟩
      by_cases same : q = child
      · simp only [same, update_self]
        exact home
      · simp only [update_of_ne same] at system loaded ⊢
        exact memory.home q ⟨(List.mem_cons.mp here).resolve_left same, system, loaded⟩
    saved := by
      intro q here other out _ _
      have same : q ≠ child := by
        rintro rfl
        exact nomatch (update_self ..).symm.trans out
      simp only [update_of_ne same] at out ⊢
      exact memory.saved_of_search search ((List.mem_cons.mp here).resolve_left same) other out
    leaving := fun v q pc swaps => nomatch search'.symm.trans swaps
    entering := fun q pc swaps => nomatch search'.symm.trans swaps
    copying := by
      intro c parent pc copies
      obtain ⟨rfl, rfl⟩ := copy c parent pc copies
      simp only [update_self]
      exact home
    forked := by
      intro c parent copies
      obtain ⟨rfl, -⟩ := copy c parent .start copies
      simp only [update_self]
      exact picture }

lemma exit_memory (seg : Seg) : Memory own (s.exit p seg) := by
  obtain ⟨-, search, users, only⟩ := place.user_alone runs user
  have once : s.allproc.Nodup := place.orderly.nodup.of_append_left.of_append_left
  refine Memory.of_shared memory.mapped search users ?_ ?_
  · rintro q ⟨still, rest⟩
    obtain ⟨other, here⟩ := once.mem_erase_iff.mp still
    exact absurd ((only q).mp ⟨here, rest⟩) other
  · intro q still other out
    obtain ⟨apart, here⟩ := once.mem_erase_iff.mp still
    simp only [State.exit, update_of_ne apart]
    exact memory.saved_of_search search here other out

lemma wait_memory (dead : q ∈ s.zombproc) : Memory own (s.reap q) := by
  obtain ⟨-, search, users, only⟩ := place.user_alone runs user
  have apart : List.Disjoint s.allproc s.zombproc :=
    List.disjoint_of_nodup_append place.orderly.nodup.of_append_left
  have other : ∀ {r}, r ∈ s.allproc → r ≠ q := fun here same => apart here (same ▸ dead)
  refine Memory.of_shared memory.mapped search users ?_ ?_
  · rintro r ⟨here, system, loaded⟩
    simp only [State.reap, update_of_ne (other here)] at system loaded
    exact memory.home r ⟨here, system, loaded⟩
  · intro r here notSwapper out
    simp only [State.reap, update_of_ne (other here)] at out
    exact memory.saved_of_search search here notSwapper out

end User

lemma sched_memory (runs : s.cur = some 0)
    (search : s.thread 0 = .search) (step : s.sched = some t) : Memory own t := by
  have o := place.orderly
  have after := sched_place place runs search step
  obtain rfl | ⟨q, here, out, none, rfl⟩ | ⟨v, q, here, out, inCore, unlocked, rfl⟩ :=
    sched_cases o step
  · exact ⟨memory.map, memory.unowned, memory.home, memory.saved, memory.leaving, memory.entering,
      memory.copying, memory.forked⟩
  · have at_ := goto_self s 0 (.swapin q .data)
    obtain ⟨-, users, empty, -⟩ := after.mode.of_swapin at_
    exact .of_entering memory.mapped at_ users empty
      (fun p there user _ out => memory.saved_of_search search there user out)
      (memory.saved_of_search search here (o.out_ne out) out)
  · have at_ := goto_self { s with sload := update s.sload v false, qs := s.qs.erase v } 0
      (.swapout v q .start)
    obtain ⟨-, users, empty, -⟩ := after.mode.of_swapout at_
    refine .of_leaving memory.mapped at_ users empty ?_ (memory.home v (inCore_some inCore))
    intro p there user other out
    exact memory.saved_of_search search there user ((update_of_ne other ..).symm.trans out)

lemma copies_memory (at_ : s.thread child = .newproc parent pc)
    (part : s.swapout child a pc = some (t, some pc')) :
    ∃ own', Memory own' (t.goto child (.newproc parent pc')) := by
  obtain ⟨childNe, search, users, -, pair, -⟩ := place.mode.of_newproc at_
  have loaded : s.sload child = true := ((pair child).mpr (.inr rfl)).2.2
  obtain ⟨own', ⟨mapped, spares⟩, leaving⟩ := leaving_next memory.mapped
    (memory.copying child parent pc at_) (by rintro rfl; exact memory.forked child parent at_) part
  have later : pc' ≠ .start := by
    rintro rfl
    exact swapout_started part
  obtain ⟨mp, lock, dev, rfl, -⟩ := swapout_next part
  have search' := (goto_other { s with swapmap := mp, slock := lock, swapdev := dev }
    (.newproc parent pc') childNe.symm).trans search
  have copy := @only_copy s pc' child parent search users
  refine ⟨own', mapped.map, mapped.unowned, memory.home, ?_, ?_, ?_, ?_, ?_⟩
  · intro p here user out _ _
    have other : p ≠ child := by
      rintro rfl
      exact nomatch loaded.symm.trans out
    exact (memory.saved_of_search search here user out).spared (spares p other)
  · exact fun v q pc swaps => nomatch search'.symm.trans swaps
  · exact fun q pc swaps => nomatch search'.symm.trans swaps
  · intro c parent' pc'' copies
    obtain ⟨rfl, rfl⟩ := copy c parent' pc'' copies
    exact leaving
  · intro c parent' copies
    exact absurd (copy c parent' .start copies).2.symm later

lemma copied_memory {f : Frame} (at_ : s.thread child = .newproc parent (.finish f)) :
    Memory own { (s.leave child f).goto child .user with
      p_stat := update s.p_stat parent .srun, cur := some parent } := by
  obtain ⟨childNe, search, users, -, -, -⟩ := place.mode.of_newproc at_
  refine Memory.of_shared memory.mapped ?_ ?_ ?_ ?_
  · exact (goto_other _ _ childNe.symm).trans search
  · intro p user
    by_cases same : p = child
    · exact same ▸ goto_self ..
    · exact (goto_other _ _ same).trans (users p user same)
  · rintro p ⟨here, system, loaded⟩
    have other : p ≠ child := by
      rintro rfl
      exact nomatch (update_self ..).symm.trans loaded
    simp only [State.goto, State.leave, update_of_ne other] at loaded ⊢
    exact memory.home p ⟨here, system, loaded⟩
  · intro p here user out
    by_cases same : p = child
    · subst same
      simp only [State.goto, State.leave, update_self]
      exact (memory.copying p parent _ at_).saved
    · simp only [State.goto, State.leave, update_of_ne same] at out ⊢
      exact memory.saved_of_search search here user out

lemma leaves_memory (at_ : s.thread p = .swapout v q pc)
    (part : (s.called v pc).swapout v a pc = some (t, some pc')) :
    ∃ own', Memory own' (t.goto p (.swapout v q pc')) := by
  obtain ⟨rfl, users, empty, -⟩ := place.mode.of_swapout at_
  obtain ⟨leaving, start⟩ := called_leaving (memory.leaving v q pc at_)
  have others : ∀ p, p ≠ v → (s.called v pc).image p = s.image p := fun p => called_image pc
  obtain ⟨image, called⟩ := called_eq s v pc
  rw [called] at part leaving start others
  obtain ⟨own', ⟨mapped, spares⟩, leaving'⟩ :=
    leaving_next (s := { s with image }) memory.mapped leaving start part
  obtain ⟨mp, lock, dev, rfl, -⟩ := swapout_next part
  refine ⟨own', .of_leaving mapped (goto_self ..) (users_goto users) empty ?_ leaving'⟩
  intro p here user other out
  have saved := memory.saved p here user out
    (fun q' pc'' swaps => other (by cases at_.symm.trans swaps; rfl))
    (fun pc'' swaps => nomatch at_.symm.trans swaps)
  rw [← others p other] at saved
  exact saved.spared (spares p other)

lemma left_memory {f : Frame} (at_ : s.thread p = .swapout v q (.finish f)) :
    Memory own ((s.leave v f).goto p (.swapin q .data)) := by
  have after := left_place place at_
  obtain ⟨rfl, -, empty, -, next, -⟩ := place.mode.of_swapout at_
  have at' := goto_self (s.leave v f) 0 (.swapin q .data)
  obtain ⟨-, users, empty', -⟩ := after.mode.of_swapin at'
  have saved : ∀ p ∈ s.allproc, p ≠ 0 → s.sload p = false →
      Saved own s.swapdev ((s.leave v f).seg p) (s.image p) p := by
    intro p here user out
    by_cases same : p = v
    · subst same
      simp only [State.leave, update_self]
      exact (memory.leaving p q _ at_).saved
    · simp only [State.leave, update_of_ne same]
      exact memory.saved p here user out
        (fun q' pc swaps => same (by cases at_.symm.trans swaps; rfl))
        (fun pc swaps => by cases at_.symm.trans swaps)
  have out : ∀ p ∈ s.allproc, p ≠ 0 → s.sload p = false := by
    intro p here user
    by_contra loaded
    exact empty p (place.orderly.resident here user (by simpa using loaded))
  exact .of_entering memory.mapped at' users empty'
    (fun p here user _ _ => saved p here user (out p here user)) (saved q next.1 next.2 (out q next.1 next.2))

lemma enters_memory {pc pc' : InPc}
    (at_ : s.thread p = .swapin q pc) (part : s.swapin u0 q pc = some (t, some pc')) :
    ∃ own', Memory own' (t.goto p (.swapin q pc')) := by
  obtain ⟨rfl, users, empty, -⟩ := place.mode.of_swapin at_
  obtain ⟨own', ⟨mapped, spares⟩, entering⟩ :=
    entering_next memory.mapped (memory.entering q pc at_) part
  obtain ⟨mp, core, rfl⟩ := swapin_next part
  refine ⟨own', .of_entering mapped (goto_self ..) (users_goto users) empty ?_ entering⟩
  intro p here user other out
  have saved := memory.saved p here user out (fun q' pc'' swaps => nomatch at_.symm.trans swaps)
    (fun pc'' swaps => other (by cases at_.symm.trans swaps; rfl))
  exact saved.spared (spares p other)

lemma entered_memory {saddr : ℕ} (runs : s.cur = some p)
    (at_ : s.thread p = .swapin q (.finish saddr)) :
    Memory own ((State.enter u0 s q saddr).goto p .search) := by
  obtain ⟨rfl, users, empty, -⟩ := place.mode.of_swapin at_
  obtain ⟨rfl, -⟩ := memory.entering q _ at_
  refine Memory.of_shared memory.mapped (goto_self ..) (users_goto users) ?_ ?_
  · rintro r ⟨here, system, loaded⟩
    by_cases same : r = q
    · subst same
      simp only [State.goto, State.enter, update_self]
      exact ⟨rfl, rfl⟩
    · simp only [State.goto, State.enter, update_of_ne same] at loaded
      exact absurd ⟨here, system, loaded⟩ (empty r)
  · intro r here user out
    have other : r ≠ q := by
      rintro rfl
      cases (update_self ..).symm.trans out
    simp only [State.goto, State.enter, update_of_ne other] at out ⊢
    exact memory.saved r here user out (fun q' pc swaps => by cases at_.symm.trans swaps)
      (fun pc swaps => other (by cases at_.symm.trans swaps; rfl))

lemma act_memory (act : Act u0 s t) : ∃ own', Memory own' t := by
  cases act with
  | queues => exact ⟨own, memory.map, memory.unowned, memory.home, memory.saved, memory.leaving,
      memory.entering, memory.copying, memory.forked⟩
  | compute runs user core p_dsize p_ssize =>
    exact ⟨own, compute_memory place memory runs user core p_dsize p_ssize⟩
  | newproc runs user step => exact ⟨own, newproc_memory place memory runs user step⟩
  | sched runs search step => exact ⟨own, sched_memory place memory runs search step⟩
  | exit runs user seg => exact ⟨own, exit_memory place memory runs user seg⟩
  | wait runs user dead => exact ⟨own, wait_memory place memory runs user dead⟩
  | moves moves =>
    cases moves with
    | copies _ at_ part => exact copies_memory place memory at_ part
    | copied _ at_ => exact ⟨own, copied_memory place memory at_⟩
    | leaves _ at_ part => exact leaves_memory place memory at_ part
    | left _ at_ => exact ⟨own, left_memory place memory at_⟩
    | enters _ at_ part => exact enters_memory place memory at_ part
    | entered runs at_ => exact ⟨own, entered_memory place memory runs at_⟩

end Steps

/-- Only the end of `swapin` gives the flag to a process that is on `allproc`. -/
lemma act_loads (place : Place s) (act : Act u0 s t) (here : p ∈ s.allproc)
    (out : s.sload p = false) (loads : t.sload p = true) :
    ∃ saddr, s.thread 0 = .swapin p (.finish saddr) ∧
      t = (State.enter u0 s p saddr).goto 0 .search := by
  by_contra no
  have same : ∀ {f : ℕ → Bool}, f p = true → f p = s.sload p → False :=
    fun loads same => nomatch loads.symm.trans (same.trans out)
  have cleared : ∀ {q}, update s.sload q false p = true → False := by
    intro q loads
    by_cases own : p = q
    · subst own
      exact nomatch (update_self ..).symm.trans loads
    · exact same loads (update_of_ne own ..)
  cases act with
  | queues => exact same loads rfl
  | compute => exact same loads rfl
  | newproc runs user step =>
    unfold State.newproc at step
    split at step
    · cases step
    rename_i child rest free
    cases step
    have other : p ≠ child := ne_of_mem_of_not_mem here (place.orderly.fresh free).1
    exact same loads (update_of_ne other ..)
  | sched runs search step =>
    obtain rfl | ⟨q, -, -, -, rfl⟩ | ⟨v, q, -, -, -, -, rfl⟩ := sched_cases place.orderly step
    · exact same loads rfl
    · exact same loads rfl
    · exact cleared loads
  | exit => exact same loads rfl
  | wait => exact cleared loads
  | moves moves =>
    cases moves with
    | copies _ at_ part =>
      obtain ⟨mp, lock, dev, rfl, -⟩ := swapout_next part
      exact same loads rfl
    | copied _ at_ => exact cleared loads
    | leaves _ at_ part =>
      obtain ⟨image, called⟩ := called_eq s _ _
      rw [called] at part
      obtain ⟨mp, lock, dev, rfl, -⟩ := swapout_next part
      exact same loads rfl
    | left _ at_ => exact cleared loads
    | enters _ at_ part =>
      obtain ⟨mp, core, rfl⟩ := swapin_next part
      exact same loads rfl
    | @entered r q saddr runs at_ =>
      obtain ⟨rfl, -⟩ := place.mode.of_swapin at_
      obtain rfl : p = q := by
        by_contra other
        exact same loads (update_of_ne other ..)
      exact no ⟨saddr, at_, rfl⟩

/-! ## Runs -/

lemma Started.place (started : Started s) : Place s := by
  have here : ∀ {p}, p ∈ s.allproc → p = 1 ∨ p = 0 := by
    intro p here
    simpa [started.allproc] using here
  constructor
  · refine ⟨?_, ⟨by simp [started.allproc], started.swapper.1⟩, ?_, ?_, by simp [started.qs], ?_,
      by simp [started.qs]⟩
    · rw [started.allproc, started.zombproc]
      exact started.freeproc
    · intro p there
      rcases here there with rfl | rfl
      · simp [started.init.2.1]
      · simp [started.swapper.2.1]
    · intro p there
      rcases here there with rfl | rfl
      · simp [started.stat.2]
      · simp [started.stat.1]
    · rintro p (queued | runs)
      · simp [started.qs] at queued
      · cases started.cur.symm.trans runs
        exact ⟨by simp [started.allproc], started.stat.1, started.swapper.1⟩
  · refine .shared started.swapper.2.2 started.users ?_
    have none : ∀ p, ¬ Resident s p := by
      rintro p ⟨there, system, loaded⟩
      rcases here there with rfl | rfl
      · exact nomatch started.init.1.symm.trans loaded
      · exact nomatch started.swapper.2.1.symm.trans system
    exact fun p q resident => absurd resident (none p)

lemma Started.memory (started : Started s) : ∃ own, Memory own s := by
  classical
  refine ⟨fun x => if x ∈ SwapSpace.range (s.seg 1).p_addr (btod USIZE) then some (1, 2) else none,
    Memory.of_shared ⟨started.map, ?_⟩ started.swapper.2.2 started.users ?_ ?_⟩
  · intro x unused
    exact if_neg (Set.disjoint_right.mp started.area unused)
  · rintro p ⟨here, system, loaded⟩
    have either : p = 1 ∨ p = 0 := by simpa [started.allproc] using here
    rcases either with rfl | rfl
    · exact nomatch started.init.1.symm.trans loaded
    · exact nomatch started.swapper.2.1.symm.trans system
  · intro p here user out
    have either : p = 1 ∨ p = 0 := by simpa [started.allproc] using here
    obtain rfl := either.resolve_right user
    obtain ⟨-, -, data, stack⟩ := started.init
    have nothing : ∀ addr n, Owns (fun x => if x ∈ SwapSpace.range (s.seg 1).p_addr (btod USIZE)
        then some (1, 2) else none) 1 n addr 0 := by
      intro addr n x low high
      simp only [btod, DEV_BSIZE] at high
      omega
    refine ⟨data ▸ nothing _ _, stack ▸ nothing _ _, ?_, ?_, ?_, s.core, ?_⟩
    · exact fun x low high => if_pos (Set.mem_Ico.mpr ⟨low, high⟩)
    · rw [data, started.image]
      rfl
    · rw [stack, started.image]
      rfl
    · rw [picture, data, stack, started.image]
      rfl

/-- Along every run at most one user process is resident while no child is copied,
and a process that is swapped in has its bytes again. -/
theorem single_resident (u0 : ℕ) {start s : State} (labels : List Label) (started : Started start)
    (run : Run (Step u0) (fun _ _ => True) start labels s) :
    ((∀ child parent pc, s.thread child ≠ .newproc parent pc) →
      ∀ p q, Resident s p → Resident s q → p = q) ∧
    ∀ a t p, Step u0 s a t → p ∈ s.allproc → s.sload p = false → t.sload p = true →
      window t.core USER_DATA_START (t.seg p).p_dsize = (s.image p).data ∧
      window t.core (USER_DATA_END - (t.seg p).p_ssize) (t.seg p).p_ssize = (s.image p).stack := by
  obtain ⟨place, own, memory⟩ : Place s ∧ ∃ own, Memory own s := by
    refine run_invariant (fun s => Place s ∧ ∃ own, Memory own s) ?_ run
      ⟨started.place, started.memory⟩
    rintro s a t ⟨place, own, memory⟩ - step
    have act := step_act place step
    exact ⟨act_place place act, act_memory place memory act⟩
  constructor
  · intro alone p q resident resident'
    cases place.mode with
    | shared _ _ only => exact only p q resident resident'
    | copying parent child pc _ copies => exact absurd copies (alone child parent pc)
    | leaving _ _ _ _ _ empty => exact absurd resident (empty p)
    | entering _ _ _ _ empty => exact absurd resident (empty p)
  · intro a t p step here out loads
    obtain ⟨saddr, at_, rfl⟩ := act_loads place (step_act place step) here out loads
    obtain ⟨-, whole⟩ := memory.entering p _ at_
    simp only [State.goto, State.enter, update_self, whole]
    exact ⟨rfl, rfl⟩

def sampleStart : State where
  p_stat := fun p => if p ≤ 1 then .srun else .free
  sload := fun p => p = 0
  ssys := fun p => p = 0
  slock := fun _ => false
  sintr := fun _ => false
  svfprnt := fun _ => false
  p_time := fun _ => 0
  p_nice := fun _ => 0
  seg := fun _ => ⟨0, 0, 0, 0, 1⟩
  allproc := [1, 0]
  zombproc := []
  freeproc := [2, 3]
  qs := []
  cur := some 0
  thread := fun p => if p = 0 then .search else .user
  swapmap := ⟨⟨100, 4⟩ :: List.replicate 9 terminator, 10⟩
  core := fun _ => 0
  swapdev := fun _ => 0
  image := fun _ => ⟨[], []⟩

lemma sampleStart_started : Started sampleStart where
  allproc := rfl
  zombproc := rfl
  freeproc := by decide
  qs := rfl
  cur := rfl
  stat := ⟨rfl, rfl⟩
  swapper := ⟨rfl, rfl, rfl⟩
  init := ⟨rfl, rfl, rfl, rfl⟩
  users := fun _ user => if_neg user
  map := ⟨⟨List.replicate 8 terminator, rfl⟩, by decide,
    show Apart [⟨100, 4⟩] from List.pairwise_singleton ..⟩
  area := by
    rw [Set.disjoint_left]
    rintro x inside ⟨e, here, low, high⟩
    have only : e ∈ [(⟨100, 4⟩ : MapEnt)] := here
    obtain rfl := List.mem_singleton.mp only
    simp only [SwapSpace.range, sampleStart, btod, USIZE, DEV_BSIZE, Set.mem_Ico] at inside low
    omega
  image := rfl

/-- Process 1 comes in, fills its region and forks; it waits while its child is
swapped in. -/
def sampleCalls : List Label :=
  [.sched, .transfer ![0, 0, 0], .transfer ![0, 0, 0], .transfer ![0, 0, 0], .transfer ![0, 0, 0],
    .sched, .swtch 1, .compute (fun a => UInt8.ofNat a) 3 2, .newproc,
    .transfer ![0, 0, 0], .sleep false, .setrun 2, .setrun 0, .swtch 0, .sched, .swtch 2,
    .transfer ![0, 0, 0], .transfer ![0, 0, 0], .transfer ![0, 0, 0], .transfer ![0, 0, 0],
    .sleep true, .setrun 0, .swtch 0, .sched,
    .transfer ![0, 0, 0], .transfer ![0, 0, 0], .transfer ![0, 0, 0], .transfer ![0, 0, 0],
    .transfer ![0, 0, 0],
    .transfer ![0, 0, 0], .transfer ![0, 0, 0], .transfer ![0, 0, 0]]

theorem single_resident_child : ∃ s t,
    Run (Step 0) (fun _ _ => True) sampleStart sampleCalls s ∧ Step 0 s (.transfer ![0, 0, 0]) t ∧
      (s.image 2 = ⟨[0, 1, 2], [254, 255]⟩ ∧ t.sload 2 = true) ∧
      window t.core USER_DATA_START (t.seg 2).p_dsize = (s.image 2).data ∧
      window t.core (USER_DATA_END - (t.seg 2).p_ssize) (t.seg 2).p_ssize = (s.image 2).stack := by
  obtain ⟨s, done, shown⟩ := Option.map_eq_some_iff.mp
    (show (follow (State.exec 0) (fun _ _ => True) sampleStart sampleCalls).map
      (fun s => (decide (2 ∈ s.allproc), s.sload 2, s.image 2,
        (s.exec 0 (.transfer ![0, 0, 0])).map (·.sload 2))) =
      some (true, false, ⟨[0, 1, 2], [254, 255]⟩, some true) by decide)
  simp only [Prod.mk.injEq, decide_eq_true_eq] at shown
  obtain ⟨here, out, image, next⟩ := shown
  obtain ⟨t, step, loads⟩ := Option.map_eq_some_iff.mp next
  have run := run_of_follow done
  exact ⟨s, t, run, step, ⟨image, loads⟩,
    (single_resident 0 sampleCalls sampleStart_started run).2 _ t 2 step here out loads⟩

end Swapper
