import RetroBSD.FreeList

/-!
# Volumes and what owns their blocks

A volume is a superblock together with the contents of its blocks. Its free list
is assumed to be stocked: no chain block holds an empty table, so that every
free block is handed out in turn. Between the free list and whoever else owns
blocks, an operation moves blocks and loses none; operations on one owner leave
the blocks of every other owner as they are.
-/

namespace Volumes

open Words FreeList Multiset
open Function (update update_of_ne update_self)

structure Vol where
  fs : Fs
  disk : Disk

def Vol.balloc (v : Vol) (clr : Bool) : Option Nat × Vol :=
  let r := FreeList.balloc v.fs v.disk clr
  (r.1, ⟨r.2.1, r.2.2⟩)

def Vol.free (v : Vol) (bno : Nat) : Vol :=
  let r := FreeList.free v.fs v.disk bno
  ⟨r.1, r.2⟩

def Vol.write (v : Vol) (bno : Nat) (contents : Block) : Vol :=
  { v with disk := update v.disk bno contents }

variable {list : List Nat} {c : Nat}

lemma write_other (v : Vol) {bno : Nat} (different : c ≠ bno) (contents : Block) :
    (v.write bno contents).disk c = v.disk c :=
  update_of_ne different _ _

lemma write_self (v : Vol) (bno : Nat) (contents : Block) :
    (v.write bno contents).disk bno = contents :=
  update_self _ _ _

/-! ## Stocked free lists -/

/-- The chain that slot 0 starts with `c` has an entry in every table. -/
inductive Backed (disk : Disk) : Nat → Prop where
  | last : Backed disk 0
  | link {c : Nat} (names : c ≠ 0) (filled : 0 < (getFblk (disk c)).df_nfree)
      (next : Backed disk ((getFblk (disk c)).df_free 0)) : Backed disk c

lemma Backed.uncons {disk : Disk} (backed : Backed disk c) (names : c ≠ 0) :
    0 < (getFblk (disk c)).df_nfree ∧ Backed disk ((getFblk (disk c)).df_free 0) := by
  cases backed with
  | last => exact absurd rfl names
  | link _ filled next => exact ⟨filled, next⟩

structure Stock (v : Vol) (list : List Nat) : Prop where
  wf : WellFormed v.fs v.disk list
  backed : 0 < v.fs.fs_nfree → Backed v.disk (v.fs.fs_free 0)

lemma entries_head {f : Fblk} (filled : 0 < f.df_nfree) :
    ∃ rest, entries f = f.df_free 0 :: rest := by
  obtain ⟨n, count⟩ : ∃ n : Nat, f.df_nfree.toNat = n + 1 := ⟨f.df_nfree.toNat - 1, by omega⟩
  exact ⟨((List.range n).map Nat.succ).map f.df_free,
    by simp [entries, count, List.range_succ_eq_map]⟩

lemma backed_congr {disk disk' : Disk} (backed : Backed disk c) {rest : List Nat}
    (chain : Chain disk (c :: rest) list) (same : ∀ b ∈ list, disk' b = disk b) :
    Backed disk' c := by
  induction backed generalizing rest list with
  | last => exact .last
  | @link c names filled next ih =>
    cases chain with
    | last => exact absurd rfl names
    | @link _ _ later _ counted chain =>
      have here : disk' c = disk c := same c (by simp)
      obtain ⟨tail, table⟩ := entries_head filled
      have after := ih (table ▸ chain) (fun b hb => same b (by simp [hb]))
      exact .link names (here ▸ filled) (here ▸ after)

/-- Blocks outside the list may change. -/
lemma stock_congr {v : Vol} (stock : Stock v list) {disk' : Disk}
    (same : ∀ b ∈ list, disk' b = v.disk b) : Stock ⟨v.fs, disk'⟩ list := by
  obtain ⟨wf, backed⟩ := stock
  constructor
  · exact ⟨wf.counted, chain_congr wf.chain same, wf.nodup, wf.good, wf.superb, wf.word⟩
  · intro filled
    obtain ⟨rest, table⟩ := entries_head (f := cache v.fs) filled
    exact backed_congr (backed filled) (table ▸ wf.chain) same

lemma refills_of_stock {v : Vol} (stock : Stock v list) : Refills v.fs v.disk := by
  intro one named
  exact ((stock.backed (by omega)).uncons named).1

section Calls

variable {v : Vol} {list : List Nat}

variable {b : Nat}

lemma balloc_backed (stock : Stock v (b :: list)) (clr : Bool) :
    (v.balloc clr).2.fs.fs_nfree > 0 → Backed v.disk ((v.balloc clr).2.fs.fs_free 0) := by
  rcases ballocEnter_spec stock.wf with ⟨shape, _⟩ | ⟨b', later, shape, some, next⟩
  · cases shape
  have filled : 0 < v.fs.fs_nfree := by
    by_contra none
    exact some (.inl (by omega))
  rcases next with ⟨n, -, enter, _⟩ | ⟨-, slot, enter, -, -⟩
  · intro _
    simpa only [Vol.balloc, balloc, enter, ballocFinish, ballocTake] using stock.backed filled
  · intro _
    obtain ⟨rfl, _⟩ := List.cons.inj shape
    have named := good_ne_zero stock.wf (stock.wf.good b (by simp))
    have backed := stock.backed filled
    rw [slot] at backed
    obtain ⟨filled, next⟩ := backed.uncons named
    have count : ¬ (getFblk (v.disk b)).df_nfree ≤ 0 := by omega
    simpa [Vol.balloc, balloc, enter, ballocUnlock, ballocSuper, ballocReload, setCache,
      count, ballocFinish, ballocTake] using next

lemma balloc_clears (v : Vol) (taken : (v.balloc true).1 = some b) :
    (v.balloc true).2.disk b = zeroBlock := by
  have finish : ∀ next : Alloc, (ballocFinish v.disk true next).1 = some b →
      (ballocFinish v.disk true next).2.2 b = zeroBlock := by
    intro next done
    cases next with
    | nospace => cases done
    | reload => cases done
    | take fs bno =>
      cases done
      simp [ballocFinish, ballocTake]
  simp only [Vol.balloc, balloc] at taken ⊢
  split at taken
  · exact finish _ taken
  · exact finish _ taken

def SameSize (v v' : Vol) : Prop :=
  v'.fs.fs_isize = v.fs.fs_isize ∧ v'.fs.fs_fsize = v.fs.fs_fsize

lemma SameSize.trans {v v' v'' : Vol} (first : SameSize v v') (second : SameSize v' v'') :
    SameSize v v'' :=
  ⟨second.1.trans first.1, second.2.trans first.2⟩

lemma balloc_some (stock : Stock v (b :: list)) (clr : Bool) :
    ∃ v', v.balloc clr = (some b, v') ∧ Stock v' list ∧ (∀ c, c ≠ b → v'.disk c = v.disk c) ∧
      (clr = true → v'.disk b = zeroBlock) ∧ SameSize v v' := by
  obtain ⟨fs', disk', call, wf', other, isize, fsize, _⟩ :=
    balloc_cons stock.wf (refills_of_stock stock) clr
  have result : v.balloc clr = (some b, ⟨fs', disk'⟩) := by simp [Vol.balloc, call]
  have fresh := (List.nodup_cons.mp stock.wf.nodup).1
  have backed := balloc_backed stock clr
  simp only [result] at backed
  refine ⟨_, result, ⟨wf', ?_⟩, other, ?_, isize, fsize⟩
  · intro filled
    obtain ⟨rest, table⟩ := entries_head (f := cache fs') filled
    have same : ∀ c ∈ list, disk' c = v.disk c := by
      intro c hc
      apply other
      rintro rfl
      exact fresh hc
    have chain := chain_congr wf'.chain (fun c hc => (same c hc).symm)
    exact backed_congr (backed filled) (table ▸ chain) same
  · rintro rfl
    have taken : (v.balloc true).1 = some b := by rw [result]
    have cleared := balloc_clears v taken
    simpa only [result] using cleared

lemma balloc_none (stock : Stock v []) (clr : Bool) :
    ∃ v', v.balloc clr = (none, v') ∧ Stock v' [] ∧ v'.disk = v.disk ∧ SameSize v v' := by
  have result : v.balloc clr = (none, ⟨{ v.fs with fs_nfree := 0, fs_tfree := 0 }, v.disk⟩) := by
    simp [Vol.balloc, balloc_empty stock.wf]
  refine ⟨_, result, ⟨wellFormed_nospace stock.wf, ?_⟩, rfl, rfl, rfl⟩
  intro filled
  exact absurd filled (lt_irrefl 0)

lemma free_backed (stock : Stock v list) (good : badblock v.fs b = false)
    (fresh : b ∉ list) : Backed (v.free b).disk ((v.free b).fs.fs_free 0) := by
  by_cases nothing : v.fs.fs_nfree ≤ 0
  · have slot : (v.free b).fs.fs_free 0 = 0 := by
      simp [Vol.free, free, good, freeEnter, nothing, NICFREE, freePush]
    rw [slot]
    exact .last
  · have filled : 0 < v.fs.fs_nfree := by omega
    have backed := stock.backed filled
    by_cases full : v.fs.fs_nfree ≥ NICFREE
    · have same : ∀ c ∈ list, (v.free b).disk c = v.disk c := by
        intro c hc
        have different : c ≠ b := by
          rintro rfl
          exact fresh hc
        simp [Vol.free, free, good, freeEnter, nothing, full, freeSpill, update_of_ne different]
      have stored : (v.free b).disk b = putFblk (v.disk b) (cache v.fs) := by
        simp [Vol.free, free, good, freeEnter, nothing, full, freeSpill, cache]
      have slot : (v.free b).fs.fs_free 0 = b := by
        simp [Vol.free, free, good, freeEnter, nothing, full, freeSpill, freeUnlock, freePush]
      obtain ⟨-, table⟩ := getFblk_putFblk (b := v.disk b) stock.wf.counted (entry_lt stock.wf)
      obtain ⟨rest, old⟩ := entries_head (f := cache v.fs) filled
      rw [old] at table
      have spilled : 0 < (getFblk (putFblk (v.disk b) (cache v.fs))).df_nfree := by
        by_contra none
        have := (entries_eq_nil (getFblk (putFblk (v.disk b) (cache v.fs)))).mpr (by omega)
        simp [this] at table
      obtain ⟨rest', new⟩ := entries_head spilled
      rw [new] at table
      have head := (List.cons.inj table).1
      rw [slot]
      refine .link (good_ne_zero stock.wf good) (by rw [stored]; exact spilled) ?_
      rw [stored, head]
      exact backed_congr backed (old ▸ stock.wf.chain) same
    · have disk : (v.free b).disk = v.disk := by
        simp [Vol.free, free, good, freeEnter, nothing, full]
      have top : 0 ≠ v.fs.fs_nfree.toNat := by omega
      have slot : (v.free b).fs.fs_free 0 = v.fs.fs_free 0 := by
        simp [Vol.free, free, good, freeEnter, nothing, full, freePush, update_of_ne top]
      rw [disk, slot]
      exact backed

lemma free_stock (stock : Stock v list) (good : badblock v.fs b = false)
    (fresh : b ∉ list) : Stock (v.free b) (b :: list) ∧
      (∀ c, c ≠ b → (v.free b).disk c = v.disk c) ∧ SameSize v (v.free b) := by
  obtain ⟨fs', disk', call, wf', other, isize, fsize, _⟩ := free_spec stock.wf good fresh
  have backed := free_backed stock good fresh
  simp only [Vol.free, call] at backed ⊢
  exact ⟨⟨wf', fun _ => backed⟩, other, isize, fsize⟩

end Calls

/-! ## Owners -/

/-- The free list and the blocks `mine` are disjoint, and all of them are good. -/
structure Holds (v : Vol) (list : List Nat) (mine : Multiset Nat) : Prop where
  stock : Stock v list
  nodup : ((list : Multiset Nat) + mine).Nodup
  good : ∀ b ∈ mine, badblock v.fs b = false

/-- Between two volumes, blocks have moved between the free list and one owner, and
no block of anyone else has changed. -/
structure Moves (v : Vol) (list : List Nat) (mine : Multiset Nat)
    (v' : Vol) (list' : List Nat) (mine' : Multiset Nat) : Prop where
  stock : Stock v' list'
  total : (list' : Multiset Nat) + mine' = list + mine
  frame : ∀ c, c ∉ list → c ∉ mine → v'.disk c = v.disk c
  size : SameSize v v'

section Owners

variable {v v' v'' : Vol} {list list' list'' : List Nat} {mine mine' mine'' rest : Multiset Nat}

variable {b : Nat}

lemma Holds.free_apart (holds : Holds v list mine) (member : b ∈ mine) : b ∉ list := by
  have disjoint := (nodup_add.mp holds.nodup).2.2
  intro listed
  exact disjoint_left.mp disjoint (mem_coe.mpr listed) member

lemma Holds.left (holds : Holds v list (mine + rest)) : Holds v list mine := by
  refine ⟨holds.stock, ?_, fun b hb => holds.good b (mem_add.mpr (.inl hb))⟩
  exact nodup_of_le (by simp) holds.nodup

lemma Holds.apart (holds : Holds v list (mine + rest)) (member : b ∈ rest) : b ∉ mine := by
  have nodup := (nodup_add.mp holds.nodup).2.1
  intro also
  exact disjoint_left.mp (nodup_add.mp nodup).2.2 also member

lemma badblock_size (size : SameSize v v') (b : Nat) : badblock v'.fs b = badblock v.fs b := by
  simp [badblock, size.1, size.2]

lemma Moves.holds (moves : Moves v list mine v' list' mine') (holds : Holds v list mine) :
    Holds v' list' mine' := by
  refine ⟨moves.stock, moves.total ▸ holds.nodup, ?_⟩
  intro b hb
  rw [badblock_size moves.size]
  have member : b ∈ list + mine := by
    rw [← moves.total]
    exact mem_add.mpr (.inr hb)
  rcases mem_add.mp member with listed | held
  · exact holds.stock.wf.good b (mem_coe.mp listed)
  · exact holds.good b held

lemma Moves.refl (stock : Stock v list) : Moves v list mine v list mine :=
  ⟨stock, rfl, fun _ _ _ => rfl, rfl, rfl⟩

lemma Moves.trans (first : Moves v list mine v' list' mine')
    (second : Moves v' list' mine' v'' list'' mine'') : Moves v list mine v'' list'' mine'' := by
  refine ⟨second.stock, second.total.trans first.total, ?_, first.size.trans second.size⟩
  intro c unlisted unheld
  have outside : c ∉ (list' : Multiset Nat) + mine' := by
    rw [first.total]
    simpa using ⟨unlisted, unheld⟩
  simp only [mem_add, not_or] at outside
  rw [second.frame c outside.1 outside.2, first.frame c unlisted unheld]

/-- What one owner does leaves the blocks of the others with them. -/
lemma Moves.beside (moves : Moves v list mine v' list' mine') (rest : Multiset Nat) :
    Moves v list (mine + rest) v' list' (mine' + rest) := by
  refine ⟨moves.stock, ?_, ?_, moves.size⟩
  · rw [← add_assoc, moves.total, add_assoc]
  · intro c unlisted unheld
    simp only [mem_add, not_or] at unheld
    exact moves.frame c unlisted unheld.1

/-- The blocks of the others do not change. -/
lemma Moves.untouched (moves : Moves v list mine v' list' mine')
    (holds : Holds v list (mine + rest)) (member : b ∈ rest) : v'.disk b = v.disk b :=
  moves.frame b (holds.free_apart (mem_add.mpr (.inr member))) (holds.apart member)

lemma Moves.of_eq {mine₁ mine₁' : Multiset Nat} (moves : Moves v list mine v' list' mine')
    (before : mine₁ = mine) (after : mine₁' = mine') : Moves v list mine₁ v' list' mine₁' := by
  subst before after
  exact moves

lemma moves_write (holds : Holds v list mine) (member : b ∈ mine) (contents : Block) :
    Moves v list mine (v.write b contents) list mine := by
  refine ⟨stock_congr holds.stock ?_, rfl, ?_, rfl, rfl⟩
  · intro c hc
    apply update_of_ne
    rintro rfl
    exact holds.free_apart member hc
  · intro c _ unheld
    apply write_other
    rintro rfl
    exact unheld member

lemma moves_balloc (stock : Stock v (b :: list)) (clr : Bool) :
    ∃ v', v.balloc clr = (some b, v') ∧ Moves v (b :: list) 0 v' list {b} ∧
      (clr = true → v'.disk b = zeroBlock) := by
  obtain ⟨v', call, stock', other, cleared, size⟩ := balloc_some stock clr
  refine ⟨v', call, ⟨stock', ?_, ?_, size⟩, cleared⟩
  · rw [← cons_coe, ← singleton_add]
    abel
  · intro c unlisted _
    apply other
    rintro rfl
    exact unlisted (by simp)

lemma moves_free (holds : Holds v list {b}) : Moves v list {b} (v.free b) (b :: list) 0 := by
  have good := holds.good b (by simp)
  have fresh := holds.free_apart (b := b) (by simp)
  obtain ⟨stock, other, size⟩ := free_stock holds.stock good fresh
  refine ⟨stock, ?_, fun c _ unheld => other c (by simpa using unheld), size⟩
  rw [← cons_coe, ← singleton_add]
  abel

end Owners

end Volumes
