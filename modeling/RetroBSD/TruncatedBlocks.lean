import RetroBSD.BlockPlaces
import RetroBSD.Truncation

/-!
# The blocks that truncation frees

`itrunc` to a shorter length keeps the blocks of the file that hold its bytes
where they are, with the indirect blocks on the way to them, and returns all
others to the free list, each of them once.
-/

namespace BlockMap

open Words FreeList Volumes PointerTrees Multiset

section Slots

variable {v v' : Vol} {list : List Nat} {addr addr' : Nat → Nat}

def freed (v : Vol) (addr : Nat → Nat) (L : Nat) : Multiset Nat :=
  ((fileNodes v addr).filter (Behind NINDIR L)).map Node.cell

lemma owned_split (v : Vol) (addr : Nat → Nat) (L : Nat) :
    owned v addr = (front NINDIR L (fileNodes v addr)).map Node.cell + freed v addr L := by
  rw [freed, ← map_add, front, add_comm, filter_add_not, map_cell_fileNodes]

/-- The blocks from the new end on go to the free list. -/
lemma shorten_freed {list' : List Nat} {L : Nat}
    (moves : Moves v list (owned v addr) v' list' (owned v' addr'))
    (trims : Trims v (fileNodes v addr) v' (fileNodes v' addr') L) :
    (list' : Multiset Nat) = list + freed v addr L := by
  have total := moves.total
  rw [owned_split v, ← map_cell_fileNodes, trims.nodes, add_comm _ (freed _ _ _),
    ← add_assoc] at total
  exact add_right_cancel total

lemma bmap_missing_iff (ip : Inode) (bn : Nat) (clr : Bool)
    (holds : Holds v list (owned v ip.i_addr)) :
    (bmap v ip bn .write clr).1 = .missing ↔ list.length < needed v ip.i_addr bn := by
  obtain ⟨m, addr', v', -, call, _, _, _, _, lost⟩ := bmap_spec ip bn clr holds
  rw [call]
  exact lost

/-- The state in which the blocks behind the end are freed, when the length lies inside a
block: the block is there, it ends with zeroes, and `new` are the nodes that it took. -/
structure Zeroed (v : Vol) (list : List Nat) (addr : Nat → Nat) (length : Nat) (v₁ : Vol)
    (list₁ : List Nat) (addr₁ : Nat → Nat) (new : Multiset Node) : Prop where
  holds : Holds v₁ list₁ (owned v₁ addr₁)
  grown : fileNodes v₁ addr₁ = fileNodes v addr + new
  leads : ∀ n ∈ new, Leads (lblkno length) n
  kept : ∀ b, b ≠ lblkno length ∨ lookup v addr b ≠ 0 → lookup v₁ addr₁ b = lookup v addr b
  taken : (list₁ : Multiset Nat) + new.map Node.cell = list
  present : lookup v addr (lblkno length) ≠ 0 → new = 0
  found : lookup v₁ addr₁ (lblkno length) ≠ 0
  zeroes : ∀ k, blkoff length ≤ k → k < DEV_BSIZE →
    v₁.disk (lookup v₁ addr₁ (lblkno length)) k = 0

variable {length : Nat}

lemma shortenInside_blocks (ip : Inode) (word : length < 2 ^ 32)
    (signed : v.fs.fs_fsize ≤ 2 ^ 31) (holds : Holds v list (owned v ip.i_addr))
    (space : (bmap v ip (lblkno length) .write true).1 ≠ .missing) :
    ∃ v₁ list₁ addr₁ new, Zeroed v list ip.i_addr length v₁ list₁ addr₁ new ∧
      shortenInside v ip length = shorten v₁ { ip with i_addr := addr₁ } length := by
  obtain ⟨m, addr₁, v₁, list₁, call, moves, grows, given, _⟩ := bmap_spec ip _ true holds
  obtain ⟨new, grown, leads⟩ := grows.more
  rw [call] at space
  obtain ⟨rfl, found⟩ := (given (lblkno_lt word)).resolve_right fun none_ => space none_.1
  have held := moves.holds holds
  have nodup := (nodup_add.mp held.nodup).2.1
  have good := held.good _ (lookup_mem found)
  rw [badblock_size moves.size] at good
  generalize zeroed : zeroFrom (v₁.disk (lookup v₁ addr₁ (lblkno length))) _ = c
  obtain ⟨wrote, same, _⟩ := write_block held found c
  refine ⟨_, list₁, addr₁, new, ⟨wrote.holds held, (fileNodes_write nodup found c).trans grown,
    fun n member => (leads n member).1, ?_, ?_, ?_, ?_, ?_⟩, ?_⟩
  · intro b other
    rw [same, grows.lookup other]
  · have total := moves.total
    rw [← map_cell_fileNodes, grown, map_add, map_cell_fileNodes,
      add_comm (owned v ip.i_addr), ← add_assoc] at total
    exact add_right_cancel total
  · intro present
    rw [bmap_found ip present] at call
    have addresses : ip.i_addr = addr₁ := congrArg (fun r => r.2.1.i_addr) call
    have volume : v = v₁ := congrArg (fun r => r.2.2) call
    rw [← addresses, ← volume] at grown
    exact left_eq_add.mp grown
  · rw [same]
    exact found
  · intro k low high
    rw [same, write_self, ← zeroed]
    exact if_pos ⟨low, high⟩
  · rw [shortenInside, call]
    simp [block_positive signed good, zeroed]

/-! ## itrunc -/

def ceilBlocks (length : Nat) : Nat := (length + (DEV_BSIZE - 1)) / DEV_BSIZE

lemma blocksOf_eq (word : length < 2 ^ 31) : blocksOf length = ceilBlocks length := by
  rw [blocksOf, Nat.mod_eq_of_lt (by simp only [DEV_BSIZE]; omega)]
  rfl

lemma lblkno_lt_ceil (inside : blkoff length ≠ 0) : lblkno length < ceilBlocks length := by
  simp only [lblkno, ceilBlocks, blkoff, DEV_BSIZE] at *
  omega

/-- To a shorter length, `itrunc` comes to the part that frees blocks. -/
lemma itrunc_shorter {ip : Inode} (long : ip.i_size < 2 ^ 31)
    (pipe : ip.ipipe = true → ip.i_size ≤ MAXPIPSIZ) (shorter : (length : Int) < ip.i_size) :
    ∃ size, itrunc v ip length =
      if blkoff length = 0 then shorten v { ip with i_size := size } length
      else shortenInside v { ip with i_size := size } length := by
  by_cases piped : ip.ipipe = true
  · have bound := pipe piped
    have notLonger : ¬ ofInt32 MAXPIPSIZ < length := by
      simp only [ofInt32, MAXPIPSIZ, NDADDR, DEV_BSIZE] at *
      omega
    refine ⟨MAXPIPSIZ, ?_⟩
    simp only [itrunc, piped, if_true, Bool.true_eq_false, false_and, if_false, notLonger]
  · have different : ¬ ofInt32 ip.i_size = length := by
      simp only [ofInt32]
      omega
    have notLonger : ¬ ofInt32 ip.i_size < length := by
      simp only [ofInt32]
      omega
    refine ⟨ip.i_size, ?_⟩
    simp only [itrunc, if_neg piped, if_false, different, and_false, notLonger]

/-- What is left of the file when the blocks from `ceilBlocks length` on are freed, in
terms of the numbers of its blocks. `new` is what the partial block took. -/
structure Truncated (v : Vol) (list : List Nat) (addr : Nat → Nat) (length : Nat) (v' : Vol)
    (list' : List Nat) (addr' : Nat → Nat) (new : Multiset Node) : Prop where
  holds : Holds v' list' (owned v' addr')
  kept : ∀ b < ceilBlocks length,
    b ≠ lblkno length ∨ blkoff length = 0 ∨ lookup v addr b ≠ 0 →
      lookup v' addr' b = lookup v addr b
  gone : ∀ b, ceilBlocks length ≤ b → lookup v' addr' b = 0
  fresh : blkoff length ≠ 0 → lookup v addr (lblkno length) = 0 →
    lookup v' addr' (lblkno length) ∈ list
  total : (list' : Multiset Nat) + new.map Node.cell = list + freed v addr (ceilBlocks length)
  taken : new.map Node.cell ≤ list
  unused : blkoff length = 0 ∨ lookup v addr (lblkno length) ≠ 0 → new = 0
  found : blkoff length ≠ 0 → lookup v' addr' (lblkno length) ≠ 0
  zeroes : blkoff length ≠ 0 → ∀ k, blkoff length ≤ k → k < DEV_BSIZE →
    v'.disk (lookup v' addr' (lblkno length)) k = 0

lemma shorten_truncates (ip : Inode) (word : length < 2 ^ 31)
    (aligned : blkoff length = 0) (holds : Holds v list (owned v ip.i_addr)) :
    ∃ addr' v' list', shorten v ip length =
        ({ ip with i_size := toInt32 length, i_addr := addr' }, v') ∧
      Truncated v list ip.i_addr length v' list' addr' 0 := by
  obtain ⟨addr', v', list', call, moves, trims⟩ := shorten_spec ip length holds
  rw [blocksOf_eq word] at trims
  refine ⟨addr', v', list', call, moves.holds holds, ?_, ?_, ?_, ?_, ?_, fun _ => rfl, ?_, ?_⟩
  · intro b before _
    rw [trims.lookup, if_pos before]
  · intro b behind
    rw [trims.lookup, if_neg (not_lt.mpr behind)]
  · exact fun inside => absurd aligned inside
  · rw [shorten_freed moves trims, map_zero, add_zero]
  · exact zero_le
  · exact fun inside => absurd aligned inside
  · exact fun inside => absurd aligned inside

lemma shortenInside_truncates (ip : Inode) (word : length < 2 ^ 31)
    (signed : v.fs.fs_fsize ≤ 2 ^ 31) (inside : blkoff length ≠ 0)
    (holds : Holds v list (owned v ip.i_addr))
    (space : (bmap v ip (lblkno length) .write true).1 ≠ .missing) :
    ∃ addr' v' list' new, shortenInside v ip length =
        ({ ip with i_size := toInt32 length, i_addr := addr' }, v') ∧
      Truncated v list ip.i_addr length v' list' addr' new := by
  obtain ⟨v₁, list₁, addr₁, new, zeroed, next⟩ :=
    shortenInside_blocks ip (by omega) signed holds space
  obtain ⟨addr', v', list', call, moves, trims⟩ :=
    shorten_spec { ip with i_addr := addr₁ } length zeroed.holds
  rw [blocksOf_eq word] at trims
  have last := lblkno_lt_ceil inside
  have same : lookup v' addr' (lblkno length) = lookup v₁ addr₁ (lblkno length) := by
    rw [trims.lookup, if_pos last]
  -- what was taken lies on the way to the last block, so none of it is freed
  have cut : freed v₁ addr₁ (ceilBlocks length) = freed v ip.i_addr (ceilBlocks length) := by
    have nothing : new.filter (Behind NINDIR (ceilBlocks length)) = 0 := by
      apply filter_eq_nil.mpr
      intro n member behind
      have reached := (behind_iff nindir_pos n).mp behind
      have := (zeroed.leads n member).1
      omega
    rw [freed, zeroed.grown, filter_add, nothing, add_zero, freed]
  refine ⟨addr', v', list', new, next.trans call, moves.holds zeroed.holds, ?_, ?_, ?_, ?_, ?_, ?_,
    ?_, ?_⟩
  · intro b before other
    rw [trims.lookup, if_pos before]
    exact zeroed.kept b (other.imp_right fun other => other.resolve_left inside)
  · intro b behind
    rw [trims.lookup, if_neg (not_lt.mpr behind)]
  · intro _ hole
    have member := lookup_node zeroed.found
    rw [zeroed.grown] at member
    rcases mem_add.mp member with old | added
    · exact absurd ((lookup_eq_iff zeroed.found).mpr old).symm (by rw [hole]; exact zeroed.found)
    · rw [same, ← mem_coe, ← zeroed.taken]
      exact mem_add.mpr (.inr (mem_map_of_mem _ added))
  · rw [shorten_freed moves trims, cut, ← zeroed.taken]
    abel
  · rw [← zeroed.taken]
    exact le_add_left _ _
  · rintro (aligned | present)
    · exact absurd aligned inside
    · exact zeroed.present present
  · intro _
    rw [same]
    exact zeroed.found
  · intro _ k low high
    have found' : lookup v' addr' (lblkno length) ≠ 0 := same ▸ zeroed.found
    rw [← content_lookup found', trims.content, if_pos last, content_lookup zeroed.found]
    exact zeroed.zeroes k low high

end Slots

/-- `itrunc` to a shorter length. The blocks that hold the bytes left stay where they are,
with a new one for a hole at the end; there is none behind them; the free list gets the
blocks that no place of the rest belongs to, each of them once; and when the length lies
inside a block, the rest of that block is zero. -/
theorem itrunc_truncates {v : Vol} {list : List Nat} {ip : Inode} {length : Nat}
    (holds : Holds v list (owned v ip.i_addr)) (signed : v.fs.fs_fsize ≤ 2 ^ 31)
    (long : ip.i_size < 2 ^ 31) (pipe : ip.ipipe = true → ip.i_size ≤ MAXPIPSIZ)
    (shorter : (length : Int) < ip.i_size)
    (space : blkoff length ≠ 0 → (bmap v ip (lblkno length) .write true).1 ≠ .missing) :
    ∃ ip' v' list' taken, itrunc v ip length = (ip', v') ∧ ip'.i_size = length ∧
      Holds v' list' (owned v' ip'.i_addr) ∧ (∀ (b : Nat) (clr : Bool), b < ceilBlocks length →
        b ≠ lblkno length ∨ blkoff length = 0 ∨ (bmap v ip b .read clr).1 ≠ .missing →
        (bmap v' ip' b .read clr).1 = (bmap v ip b .read clr).1) ∧
      (∀ clr : Bool, blkoff length ≠ 0 → (bmap v ip (lblkno length) .read clr).1 = .missing →
        ∃ nb ∈ list, (bmap v' ip' (lblkno length) .read clr).1 = .block nb) ∧
      (∀ (b : Int) (clr : Bool) (nb : Nat), (ceilBlocks length : Int) ≤ b →
        (bmap v' ip' b .read clr).1 ≠ .block nb) ∧
      (list' : Multiset Nat) + taken = list + freed v ip.i_addr (ceilBlocks length) ∧ taken ≤ list ∧
      (∀ clr : Bool, blkoff length = 0 ∨ (bmap v ip (lblkno length) .read clr).1 ≠ .missing →
        taken = 0) ∧
      (∀ clr : Bool, blkoff length ≠ 0 → ∃ nb,
        (bmap v' ip' (lblkno length) .read clr).1 = .block nb ∧
        ∀ k, blkoff length ≤ k → k < DEV_BSIZE → v'.disk nb k = 0) := by
  have word : length < 2 ^ 31 := by omega
  have absent : ∀ b clr, b < maxBlocks →
      ((bmap v ip b .read clr).1 = .missing ↔ lookup v ip.i_addr b = 0) := by
    intro b clr small
    rw [bmap_read v ip small]
    split_ifs with hole
    · simp [hole]
    · simp [hole]
  obtain ⟨size, call⟩ := itrunc_shorter long pipe shorter
  obtain ⟨addr', v', list', new, result, done⟩ : ∃ addr' v' list' new, itrunc v ip length =
      ({ ip with i_size := toInt32 length, i_addr := addr' }, v') ∧
      Truncated v list ip.i_addr length v' list' addr' new := by
    rw [call]
    split_ifs with aligned
    · obtain ⟨addr', v', list', result, done⟩ :=
        shorten_truncates { ip with i_size := size } word aligned holds
      exact ⟨addr', v', list', 0, result, done⟩
    · have room : (bmap v { ip with i_size := size } (lblkno length) .write true).1 ≠ .missing := by
        have := space aligned
        rw [Ne, bmap_missing_iff ip _ _ holds] at this
        rw [Ne, bmap_missing_iff { ip with i_size := size } _ _ holds]
        exact this
      exact shortenInside_truncates { ip with i_size := size } word signed aligned holds room
  have last : lblkno length < maxBlocks := lblkno_lt (by omega)
  refine ⟨_, v', list', new.map Node.cell, result, ?_, done.holds, ?_, ?_, ?_, done.total, done.taken,
    ?_, ?_⟩
  · simp only [toInt32, word, if_true]
  · intro b clr before other
    have small : b < maxBlocks := lt_of_lt_of_le before (blocksOf_eq word ▸ blocksOf_le length)
    apply read_congr
    intro c same
    obtain rfl : b = c := by exact_mod_cast same
    exact done.kept b before (other.imp_right (Or.imp_right (absent b clr small).not.mp))
  · intro clr inside hole
    rw [absent _ clr last] at hole
    exact ⟨_, done.fresh inside hole, read_block_iff.mpr ⟨_, rfl, last, rfl, done.found inside⟩⟩
  · intro b clr nb behind read
    obtain ⟨c, rfl, _, rfl, found⟩ := read_block_iff.mp read
    exact found (done.gone c (by exact_mod_cast behind))
  · intro clr other
    rw [done.unused (other.imp_right (absent _ clr last).not.mp), map_zero]
  · intro clr inside
    exact ⟨_, read_block_iff.mpr ⟨_, rfl, last, rfl, done.found inside⟩, done.zeroes inside⟩

/-- A file of 2000 bytes that are all in holes, cut inside of its first block. -/
theorem hole_truncates : ∃ ip v,
    itrunc twoFree { emptyFile with i_size := 2000 } 1000 = (ip, v) ∧ ip.i_size = 1000 ∧
      ∃ nb, (bmap v ip (lblkno 1000) .read false).1 = .block nb ∧
        ∀ k, 1000 ≤ k → k < DEV_BSIZE → v.disk nb k = 0 := by
  have holds : Holds twoFree [3, 2] (owned twoFree { emptyFile with i_size := 2000 }.i_addr) :=
    twoFree_holds
  have shorter : 1000 < { emptyFile with i_size := 2000 }.i_size := by decide
  obtain ⟨ip, v, _, _, call, size, _, _, _, _, _, _, _, zero⟩ :=
    itrunc_truncates holds (by decide) (by decide)
      (fun piped => absurd piped Bool.false_ne_true) shorter (fun _ => by decide)
  exact ⟨ip, v, call, size, zero false (by decide)⟩

/-- The two blocks of a volume, full of ones, in a file. -/
def twoUsed : Vol := ⟨{ twoFree.fs with fs_nfree := 0 }, fun _ _ => 1⟩

def twoBlocks : Inode :=
  { emptyFile with i_size := 2000, i_addr := fun s => if s = 0 then 2 else if s = 1 then 3 else 0 }

lemma twoUsed_holds : Holds twoUsed [] (owned twoUsed twoBlocks.i_addr) := by
  have both : owned twoUsed twoBlocks.i_addr = {2, 3} := by
    rw [owned, Finset.sum_range_succ', Finset.sum_range_succ', Finset.sum_eq_zero]
    · decide
    · intro s _
      exact blocks_zero
  refine ⟨⟨⟨by decide, .empty, by decide, by decide, by decide, by decide⟩, ?_⟩, by decide, by decide⟩
  intro filled
  exact absurd filled (by decide)

/-- A block that is kept whole keeps its bytes. -/
theorem whole_block_keeps_bytes : ∃ v list ip, ∃ length : Nat, Holds v list (owned v ip.i_addr) ∧
    v.fs.fs_fsize ≤ 2 ^ 31 ∧ ip.i_size < 2 ^ 31 ∧ fmt ip = IFREG ∧ ip.ipipe = false ∧
    (length : Int) < ip.i_size ∧ 0 < ceilBlocks length ∧ ∃ nb,
      (bmap (itrunc v ip length).2 (itrunc v ip length).1 (ceilBlocks length - 1 : Nat) .read
        false).1 = .block nb ∧
      ∃ k, blkoff length ≤ k ∧ k < DEV_BSIZE ∧ (itrunc v ip length).2.disk nb k ≠ 0 :=
  ⟨twoUsed, [], twoBlocks, 1024, twoUsed_holds, by decide, by decide, by decide, rfl, by decide,
    by decide, 2, by decide, 0, by decide, by decide, by decide⟩

end BlockMap
