import RetroBSD.BlockMap
import RetroBSD.PlacedTrees

/-!
# The blocks of a file

The addresses of an inode are the roots of seven trees of pointers, of height 0
for the direct blocks and of height 1, 2 and 3 for the others. The blocks of a
file are taken together with the blocks of the file that they stand for: a data
block with one, an indirect block with all that are reached through it. `bmap`
for writing only takes blocks from the free list into these trees, on the way to
the one asked for and also when it fails, and with a cleared block it leaves the
contents of the file as they are.
-/

namespace BlockMap

open Words FreeList Volumes PointerTrees Multiset
open Function (update update_of_ne update_self)

abbrev tree (v : Vol) (l b : Nat) : Multiset Nat :=
  PointerTrees.blocks NINDIR word v.disk l b

abbrev seek (v : Vol) (l b k : Nat) : Nat := find NINDIR word v.disk l b k

abbrev stored (v : Vol) (l b k : Nat) : Block := leaf NINDIR word zeroBlock v.disk l b k

abbrev treeNodes (v : Vol) (l b first : Nat) : Multiset Node :=
  nodes NINDIR word v.disk l b first

lemma nindir_pos : 0 < NINDIR := by decide

/-- A node on the way to block `bn` of the file. -/
def Leads (bn : Nat) (n : Node) : Prop := n.first ≤ bn ∧ bn < n.first + n.span NINDIR

variable {bn k s : Nat}

lemma Leads.at_leaf {n : Node} (leads : Leads bn n) (leaf : n.height = 0) : n.first = bn := by
  obtain ⟨low, high⟩ := leads
  rw [Node.span, leaf, pow_zero] at high
  omega

lemma leads_root (cell l first k : Nat) : Leads (first + k % NINDIR ^ l) ⟨cell, l, first⟩ :=
  ⟨Nat.le_add_right _ _, Nat.add_lt_add_left (Nat.mod_lt _ (Nat.pow_pos nindir_pos)) _⟩

/-- Nodes are added on the way to `bn`, and what was stored stays. A new data block is zero if
blocks are cleared. -/
structure Grows (v : Vol) (ns : Multiset Node) (v' : Vol) (ns' : Multiset Node) (bn : Nat)
    (clr : Bool) : Prop where
  more : ∃ new, ns' = ns + new ∧
    ∀ n ∈ new, Leads bn n ∧ (n.height = 0 → clr = true → v'.disk n.cell = zeroBlock)
  data : ∀ n ∈ ns, n.height = 0 → v'.disk n.cell = v.disk n.cell

lemma Grows.refl {v v' : Vol} {ns : Multiset Node} {clr : Bool}
    (same : v'.disk = v.disk) : Grows v ns v' ns bn clr :=
  ⟨⟨0, (add_zero _).symm, fun n member => absurd member (notMem_zero n)⟩,
    fun _ _ _ => by rw [same]⟩

lemma Grows.weaken {v v' : Vol} {ns ns' : Multiset Node} {clr clr' : Bool}
    (clears : clr = true → clr' = true) (grows : Grows v ns v' ns' bn clr') :
    Grows v ns v' ns' bn clr := by
  obtain ⟨⟨new, more, leads⟩, data⟩ := grows
  refine ⟨⟨new, more, fun n member => ?_⟩, data⟩
  obtain ⟨way, zero⟩ := leads n member
  exact ⟨way, fun leaf cleared => zero leaf (clears cleared)⟩

/-- The blocks that are missing on the way to a position of a tree. -/
def lacks (v : Vol) : Nat → Nat → Nat → Nat
  | 0, nb, _ => if nb = 0 then 1 else 0
  | l + 1, nb, k =>
    if nb = 0 then l + 2 else lacks v l (word (v.disk nb) (k / NINDIR ^ l % NINDIR)) k

/-! ## One tree -/

section Trees

variable {v v' : Vol} {list list' : List Nat} {l nb : Nat}

lemma lacks_zero (k : Nat) : lacks v l 0 k = l + 1 := by
  cases l <;> simp [lacks]

lemma lacks_child (named : nb ≠ 0) (k : Nat) : lacks v (l + 1) nb k =
    lacks v l (word (v.disk nb) (k / NINDIR ^ l % NINDIR)) k := by
  simp [lacks, named]

variable {b i : Nat}

lemma lacks_bare (named : b ≠ 0) (bare : l ≠ 0 → v.disk b = zeroBlock) (k : Nat) :
    lacks v l b k = l := by
  cases l with
  | zero => simp [lacks, named]
  | succ l => rw [lacks_child named, bare (Nat.succ_ne_zero l), word_zeroBlock, lacks_zero]

lemma lacks_le (k : Nat) : lacks v l nb k ≤ l + 1 := by
  induction l generalizing nb with
  | zero =>
    rw [lacks]
    split_ifs <;> omega
  | succ l ih =>
    by_cases named : nb = 0
    · rw [named, lacks_zero]
    · rw [lacks_child named]
      exact Nat.le_succ_of_le ih

lemma nodes_zeroed (named : b ≠ 0) (bare : l ≠ 0 → v.disk b = zeroBlock) (first : Nat) :
    treeNodes v l b first = {⟨b, l, first⟩} := by
  cases l with
  | zero => exact nodes_base named
  | succ l => exact nodes_bare named fun i _ => by rw [bare (Nat.succ_ne_zero l), word_zeroBlock]

lemma tree_zeroed (named : b ≠ 0) (bare : l ≠ 0 → v.disk b = zeroBlock) : tree v l b = {b} := by
  have cells := congrArg (map Node.cell) (nodes_zeroed named bare 0)
  rwa [map_cell] at cells

/-- The children of a block other than `i` have not changed. -/
def Beside (v v' : Vol) (l nb i : Nat) : Prop :=
  ∀ j < NINDIR, j ≠ i → word (v'.disk nb) j = word (v.disk nb) j ∧
    ∀ c ∈ tree v l (word (v.disk nb) j), v'.disk c = v.disk c

lemma Beside.nodes (beside : Beside v v' l nb i) (named : nb ≠ 0) (inside : i < NINDIR)
    (first : Nat) : treeNodes v' (l + 1) nb first +
        treeNodes v l (word (v.disk nb) i) (first + i * NINDIR ^ l) =
      treeNodes v (l + 1) nb first +
        treeNodes v' l (word (v'.disk nb) i) (first + i * NINDIR ^ l) := by
  apply nodes_exchange named inside
  intro j hj different first
  obtain ⟨table, below⟩ := beside j hj different
  rw [table]
  exact nodes_congr below

lemma Beside.exchange (beside : Beside v v' l nb i) (named : nb ≠ 0)
    (inside : i < NINDIR) : tree v' (l + 1) nb + tree v l (word (v.disk nb) i) =
      tree v (l + 1) nb + tree v' l (word (v'.disk nb) i) := by
  have cells := congrArg (map Node.cell) (beside.nodes named inside 0)
  simpa only [map_add, map_cell] using cells

/-- What is added to a child is added to the tree. -/
lemma Beside.grows {first bn : Nat} {clr : Bool} (beside : Beside v v' l nb i) (named : nb ≠ 0)
    (inside : i < NINDIR)
    (child : Grows v (treeNodes v l (word (v.disk nb) i) (first + i * NINDIR ^ l)) v'
      (treeNodes v' l (word (v'.disk nb) i) (first + i * NINDIR ^ l)) bn clr) :
    Grows v (treeNodes v (l + 1) nb first) v' (treeNodes v' (l + 1) nb first) bn clr := by
  obtain ⟨⟨new, more, leads⟩, data⟩ := child
  constructor
  · refine ⟨new, ?_, leads⟩
    have exchange := beside.nodes named inside first
    rw [more] at exchange
    apply add_right_cancel (exchange.trans _)
    abel
  · intro n member leaf
    rw [treeNodes, nodes_succ named, mem_cons, mem_sum] at member
    rcases member with rfl | ⟨j, hj, member⟩
    · cases leaf
    · by_cases same : j = i
      · subst same
        exact data n member leaf
      · exact (beside j (Finset.mem_range.mp hj) same).2 _ (cell_mem member)

/-- A new block at the root, and what is added below it. -/
lemma Grows.fresh {first bn : Nat} {clr : Bool} (named : b ≠ 0)
    (bare : l ≠ 0 ∨ clr = true → v.disk b = zeroBlock) {w : Vol}
    (below : Grows v (treeNodes v l b first) v' (treeNodes v' l b first)
      (first + bn % NINDIR ^ l) clr) :
    Grows w 0 v' (treeNodes v' l b first) (first + bn % NINDIR ^ l) clr := by
  obtain ⟨⟨new, more, leads⟩, data⟩ := below
  rw [nodes_zeroed named fun deep => bare (.inl deep)] at more data
  refine ⟨⟨{⟨b, l, first⟩} + new, more.trans (zero_add _).symm, ?_⟩,
    fun n member => absurd member (notMem_zero n)⟩
  intro n member
  rcases mem_add.mp member with root | later
  · obtain rfl := mem_singleton.mp root
    refine ⟨leads_root b l first bn, fun leaf clears => ?_⟩
    rw [data _ root leaf, bare (.inr clears)]
  · exact leads n later

/-- What happens in one child happens in the tree. -/
lemma moves_child (named : nb ≠ 0) (inside : i < NINDIR) (holds : Holds v list (tree v (l + 1) nb))
    (moves : Moves v list (tree v l (word (v.disk nb) i)) v' list'
      (tree v' l (word (v.disk nb) i))) :
    Moves v list (tree v (l + 1) nb) v' list' (tree v' (l + 1) nb) ∧ v'.disk nb = v.disk nb ∧
      Beside v v' l nb i := by
  have shape : tree v (l + 1) nb = tree v l (word (v.disk nb) i) +
      nb ::ₘ ∑ j ∈ (Finset.range NINDIR).erase i, tree v l (word (v.disk nb) j) := by
    rw [add_cons]
    exact blocks_split named inside
  have parts := holds
  rw [shape] at parts
  have root : v'.disk nb = v.disk nb := moves.untouched parts (by simp)
  have beside : Beside v v' l nb i := by
    intro j hj different
    refine ⟨by rw [root], fun c hc => moves.untouched parts (mem_cons_of_mem ?_)⟩
    exact mem_sum.mpr ⟨j, Finset.mem_erase.mpr ⟨different, Finset.mem_range.mpr hj⟩, hc⟩
  refine ⟨(moves.beside _).of_eq shape ?_, root, beside⟩
  have exchange := beside.exchange named inside
  rw [root, shape] at exchange
  apply add_right_cancel (exchange.trans _)
  abel

lemma moves_nospace {mine : Multiset Nat} (stock : Stock v' []) (same : v'.disk = v.disk)
    (size : SameSize v v') : Moves v [] mine v' [] mine :=
  ⟨stock, rfl, fun _ _ _ => by rw [same], size⟩

/-- What is left when a block has been asked for: it is at the position asked for, or
the free list is empty. -/
def Got (v' : Vol) (list' : List Nat) (l nb k : Nat) (m : Mapped) : Prop :=
  (m = .block (seek v' l nb k) ∧ seek v' l nb k ≠ 0) ∨ (m = .missing ∧ list' = [])

/-- The free list is shorter by the blocks that were needed, or they were too many. -/
def Counts (list list' : List Nat) (need : Nat) (m : Mapped) : Prop :=
  list'.length = list.length - need ∧ (m = .missing ↔ list.length < need)

/-- A new block under a missing pointer: first the pointer, then what is done below. -/
lemma moves_extend (named : nb ≠ 0) (inside : i < NINDIR)
    (holds : Holds v (b :: list) (tree v (l + 1) nb)) (absent : word (v.disk nb) i = 0) :
    ∃ v₁ v₂, v.balloc true = (some b, v₁) ∧ v₂ = v₁.write nb (setWord (v₁.disk nb) i b) ∧
      b ≠ 0 ∧ Holds v₂ list (tree v₂ l b) ∧ v₂.disk b = zeroBlock ∧
      ∀ v' list', Moves v₂ list (tree v₂ l b) v' list' (tree v' l b) →
        Moves v (b :: list) (tree v (l + 1) nb) v' list' (tree v' (l + 1) nb) ∧
        word (v'.disk nb) i = b ∧ Beside v v' l nb i := by
  obtain ⟨v₁, call, taken, cleared⟩ := moves_balloc holds.stock true
  have member : nb ∈ tree v (l + 1) nb := root_mem named
  have unlisted : nb ∉ b :: list := holds.free_apart member
  obtain ⟨apart, unlisted⟩ := not_or.mp (mt List.mem_cons.mpr unlisted)
  have good := holds.stock.wf.good b (by simp)
  have fresh : b ≠ 0 := good_ne_zero holds.stock.wf good
  generalize wrote : v₁.write nb (setWord (v₁.disk nb) i b) = v₂
  have elsewhere : ∀ c, c ≠ nb → v₂.disk c = v₁.disk c := by
    intro c different
    rw [← wrote]
    exact write_other _ different _
  have zeroed : v₂.disk b = zeroBlock := by rw [elsewhere b (Ne.symm apart), cleared rfl]
  have single : tree v₂ l b = {b} := tree_zeroed fresh fun _ => zeroed
  have stock : Stock v₂ list := by
    rw [← wrote]
    apply stock_congr taken.stock
    intro c hc
    apply update_of_ne
    rintro rfl
    exact unlisted hc
  have owns : Holds v₂ list (tree v₂ l b) := by
    rw [single]
    refine ⟨stock, ?_, ?_⟩
    · have nodup := holds.stock.wf.nodup
      rw [← coe_nodup, ← cons_coe, ← singleton_add, add_comm] at nodup
      exact nodup
    · intro c hc
      rw [mem_singleton.mp hc, ← wrote]
      exact (badblock_size taken.size b).trans good
  have size : SameSize v v₂ := by
    rw [← wrote]
    exact taken.size
  refine ⟨v₁, v₂, call, wrote.symm, fresh, owns, zeroed, ?_⟩
  intro v' list' moves
  rw [single] at moves
  have root : v'.disk nb = setWord (v.disk nb) i b := by
    have before : v₁.disk nb = v.disk nb := taken.frame nb (by simp [apart, unlisted]) (by simp)
    rw [moves.frame nb unlisted (by simpa using apart), ← wrote, write_self, before]
  have small : b < 2 ^ 32 := by
    have := (badblock_eq_false v.fs b).mp good
    have := holds.stock.wf.word
    omega
  have word_root : ∀ j, word (v'.disk nb) j = if j = i then b else word (v.disk nb) j := by
    intro j
    rw [root, word_setWord, Nat.mod_eq_of_lt small]
  have frame : ∀ c, c ≠ nb → c ∉ b :: list → v'.disk c = v.disk c := by
    intro c different outside
    obtain ⟨notFirst, notListed⟩ := not_or.mp (mt List.mem_cons.mpr outside)
    rw [moves.frame c notListed (by simpa using notFirst), elsewhere c different,
      taken.frame c outside (by simp)]
  have beside : Beside v v' l nb i := by
    intro j hj different
    refine ⟨by rw [word_root, if_neg different], fun c hc => ?_⟩
    have nodup := (nodup_add.mp holds.nodup).2.1
    exact frame c (child_ne named nodup hj hc) (holds.free_apart (child_mem named hj hc))
  have exchange := beside.exchange named inside
  have here : word (v'.disk nb) i = b := by rw [word_root, if_pos rfl]
  refine ⟨⟨moves.stock, ?_, ?_, size.trans moves.size⟩, here, beside⟩
  · simp only [absent, tree, blocks_zero, add_zero, here] at exchange
    rw [tree, exchange, ← cons_coe, ← singleton_add]
    have total := moves.total
    calc (list' : Multiset Nat) + (tree v (l + 1) nb + tree v' l b)
        = (list' + tree v' l b) + tree v (l + 1) nb := by abel
      _ = {b} + list + tree v (l + 1) nb := by rw [total]; abel
  · intro c outside unheld
    apply frame c ?_ outside
    rintro rfl
    exact unheld member

lemma fetch_spec (bn : Nat) (named : nb ≠ 0) (holds : Holds v list (tree v l nb)) :
    ∃ m v' list', fetch .write bn l nb v = (m, v') ∧
      Moves v list (tree v l nb) v' list' (tree v' l nb) ∧
      (∀ first, Grows v (treeNodes v l nb first) v' (treeNodes v' l nb first)
        (first + bn % NINDIR ^ l) true) ∧
      Got v' list' l nb bn m ∧ Counts list list' (lacks v l nb bn) m := by
  induction l generalizing nb v list with
  | zero =>
    refine ⟨_, v, list, rfl, .refl holds.stock, fun _ => .refl rfl, .inl ⟨rfl, named⟩, ?_⟩
    simp [Counts, lacks, named]
  | succ l ih =>
    have inside : bn / NINDIR ^ l % NINDIR < NINDIR := Nat.mod_lt _ nindir_pos
    rw [lacks_child named]
    generalize index : bn / NINDIR ^ l % NINDIR = i at inside
    have below first :
        first + i * NINDIR ^ l + bn % NINDIR ^ l = first + bn % NINDIR ^ (l + 1) := by
      rw [Nat.mod_pow_succ, index, mul_comm]
      omega
    by_cases absent : word (v.disk nb) i = 0
    · rw [absent, lacks_zero]
      match list with
      | [] =>
        obtain ⟨v', call, stock, same, size⟩ := balloc_none holds.stock true
        have trees : tree v' (l + 1) nb = tree v (l + 1) nb := by simp [tree, same]
        refine ⟨.missing, v', [], ?_, (moves_nospace stock same size).of_eq rfl trees, ?_,
          .inr ⟨rfl, rfl⟩, (Nat.zero_sub _).symm, by simp⟩
        · simp [fetch, index, absent, call]
        · intro first
          have nodes : treeNodes v' (l + 1) nb first = treeNodes v (l + 1) nb first := by
            simp [treeNodes, same]
          rw [nodes]
          exact .refl same
      | b :: list =>
        obtain ⟨v₁, v₂, call, wrote, fresh, owns, zeroed, extend⟩ :=
          moves_extend named inside holds absent
        obtain ⟨m, v', list', fetched, moves, grows, got, count, lost⟩ := ih fresh owns
        obtain ⟨moves', here, beside⟩ := extend v' list' moves
        rw [lacks_bare fresh fun _ => zeroed] at count lost
        refine ⟨m, v', list', ?_, moves', ?_, ?_, ?_, ?_⟩
        · simp [fetch, index, absent, call, ← wrote, fetched]
        · intro first
          apply beside.grows named inside
          rw [absent, here, treeNodes, nodes_zero, ← below]
          exact .fresh fresh (fun _ => zeroed) (grows _)
        · simpa only [Got, seek, find_succ named, index, here] using got
        · rw [count, List.length_cons]
          omega
        · rw [lost, List.length_cons]
          omega
    · have parts := holds
      rw [tree, blocks_split named inside, ← add_cons] at parts
      obtain ⟨m, v', list', call, moves, grows, got, count⟩ := ih absent parts.left
      obtain ⟨moves', root, beside⟩ := moves_child named inside holds moves
      refine ⟨m, v', list', ?_, moves', ?_, ?_, count⟩
      · simp [fetch, index, absent, call]
      · intro first
        apply beside.grows named inside
        rw [root, ← below]
        exact grows _
      · simpa only [Got, seek, find_succ named, index, root] using got

end Trees

/-! ## One inode -/

/-- The levels of indirection below an address of the inode. -/
def depth (s : Nat) : Nat := s - (NADDR - 4)

def owned (v : Vol) (addr : Nat → Nat) : Multiset Nat :=
  ∑ s ∈ Finset.range NADDR, tree v (depth s) (addr s)

/-- Which address a block of the file is under, and where. -/
def place (bn : Nat) : Option (Nat × Nat) :=
  if bn < NADDR - 3 then some (bn, 0)
  else (levels 3 1 (bn - (NADDR - 3))).map (fun p => (NADDR - p.1, p.2))

def content (v : Vol) (addr : Nat → Nat) (bn : Nat) : Block :=
  match place bn with
  | some (s, k) => stored v (depth s) (addr s) k
  | none => zeroBlock

def lookup (v : Vol) (addr : Nat → Nat) (bn : Nat) : Nat :=
  match place bn with
  | some (s, k) => seek v (depth s) (addr s) k
  | none => 0

/-- The block numbers from here on are too large for `bmap`. -/
def maxBlocks : Nat := NDADDR + NINDIR + NINDIR ^ 2 + NINDIR ^ 3

lemma place_cases (bn : Nat) : (bn < 4 ∧ place bn = some (bn, 0)) ∨
    (4 ≤ bn ∧ bn < 260 ∧ place bn = some (4, bn - 4)) ∨
    (260 ≤ bn ∧ bn < 65796 ∧ place bn = some (5, bn - 260)) ∨
    (65796 ≤ bn ∧ bn < maxBlocks ∧ place bn = some (6, bn - 65796)) ∨
    (maxBlocks ≤ bn ∧ place bn = none) := by
  have total : maxBlocks = 16843012 := by decide
  simp only [place, levels, NADDR, NINDIR, Nat.reduceSub]
  split_ifs <;> simp <;> omega

lemma place_bound (placed : place bn = some (s, k)) : s < NADDR ∧ k < NINDIR ^ depth s := by
  have total : maxBlocks = 16843012 := by decide
  rcases place_cases bn with ⟨h, p⟩ | ⟨_, h, p⟩ | ⟨_, h, p⟩ | ⟨_, h, p⟩ | ⟨_, p⟩
  all_goals
    rw [p] at placed
    cases placed
  · exact ⟨by simp only [NADDR]; omega, Nat.pow_pos nindir_pos⟩
  all_goals
    simp only [depth, NADDR, NINDIR, Nat.reduceLT, true_and]
    omega

lemma place_ne_none (small : bn < maxBlocks) : place bn ≠ none := by
  rcases place_cases bn with ⟨_, p⟩ | ⟨_, _, p⟩ | ⟨_, _, p⟩ | ⟨_, _, p⟩ | ⟨large, _⟩
  · simp [p]
  · simp [p]
  · simp [p]
  · simp [p]
  · omega

def base (s : Nat) : Nat :=
  match s with
  | 4 => 4
  | 5 => 260
  | 6 => 65796
  | s => s

lemma place_base {n : Nat} (placed : place n = some (s, k)) : n = base s + k := by
  rcases place_cases n with ⟨small, p⟩ | ⟨_, _, p⟩ | ⟨_, _, p⟩ | ⟨_, _, p⟩ | ⟨_, p⟩
  · rw [p] at placed
    cases placed
    interval_cases s <;> rfl
  all_goals
    rw [p] at placed
    cases placed
  all_goals
    simp only [base]
    omega

lemma base_succ : ∀ s < NADDR - 1, base s + NINDIR ^ depth s = base (s + 1) := by
  decide

lemma base_mono : ∀ t < NADDR, ∀ s ≤ t, base s ≤ base t := by
  decide

/-- The blocks under one address end before those under a later one begin. -/
lemma base_add_le {t : Nat} (ht : t < NADDR) (before : s < t) :
    base s + NINDIR ^ depth s ≤ base t := by
  rw [base_succ s (by simp only [NADDR] at *; omega)]
  exact base_mono t ht _ before

/-- The blocks under the last address end with the last block of a file. -/
lemma base_bound : ∀ s < NADDR, base s + NINDIR ^ depth s ≤ maxBlocks := by
  decide

def fileNodes (v : Vol) (addr : Nat → Nat) : Multiset Node :=
  ∑ s ∈ Finset.range NADDR, treeNodes v (depth s) (addr s) (base s)

def needed (v : Vol) (addr : Nat → Nat) (bn : Nat) : Nat :=
  match place bn with
  | some (s, k) => lacks v (depth s) (addr s) k
  | none => 0

lemma depth_le (hs : s < NADDR) : depth s ≤ 3 := by
  simp only [depth] at hs ⊢
  omega

lemma needed_le (v : Vol) (addr : Nat → Nat) (bn : Nat) : needed v addr bn ≤ 4 := by
  rw [needed]
  cases placed : place bn with
  | none => exact Nat.zero_le 4
  | some p => exact (lacks_le _).trans (Nat.succ_le_succ (depth_le (place_bound placed).1))

section Inodes

variable {v v' : Vol} {list list' : List Nat} {addr addr' : Nat → Nat}

lemma map_cell_fileNodes : (fileNodes v addr).map Node.cell = owned v addr := by
  rw [fileNodes, ← coe_mapAddMonoidHom, map_sum]
  apply Finset.sum_congr rfl
  intro s _
  exact map_cell _

lemma owned_congr (same : fileNodes v' addr' = fileNodes v addr) : owned v' addr' = owned v addr := by
  rw [← map_cell_fileNodes, same, map_cell_fileNodes]

variable {clr : Bool} {bn c nb s : Nat}

/-- The number of a block of the file is that of the data block placed there. -/
lemma lookup_eq_iff {x : Nat} (named : x ≠ 0) :
    lookup v addr bn = x ↔ ⟨x, 0, bn⟩ ∈ fileNodes v addr := by
  rw [fileNodes, mem_sum]
  cases placed : place bn with
  | none =>
    have large : maxBlocks ≤ bn := by
      by_contra small
      exact place_ne_none (Nat.lt_of_not_le small) placed
    simp only [lookup, placed]
    refine ⟨fun zero => absurd zero.symm named, ?_⟩
    rintro ⟨s, hs, member⟩
    have within := (node_within member).2
    have bound := base_bound s (Finset.mem_range.mp hs)
    simp only [Node.span, pow_zero] at within
    omega
  | some p =>
    obtain ⟨s, k⟩ := p
    obtain ⟨hs, hk⟩ := place_bound placed
    simp only [lookup, placed]
    rw [place_base placed, ← mem_nodes_iff named hk]
    refine ⟨fun member => ⟨s, Finset.mem_range.mpr hs, member⟩, ?_⟩
    rintro ⟨t, ht, member⟩
    have ht := Finset.mem_range.mp ht
    obtain ⟨low, high⟩ := node_within member
    simp only [Node.span, pow_zero] at low high
    -- no block of the file is under two addresses
    rcases Nat.lt_trichotomy t s with less | rfl | more
    · have := base_add_le hs less
      omega
    · exact member
    · have := base_add_le ht more
      omega

lemma lookup_node (found : lookup v addr bn ≠ 0) : ⟨lookup v addr bn, 0, bn⟩ ∈ fileNodes v addr :=
  (lookup_eq_iff found).mp rfl

lemma lookup_mem (found : lookup v addr bn ≠ 0) : lookup v addr bn ∈ owned v addr := by
  rw [← map_cell_fileNodes]
  exact mem_map_of_mem Node.cell (lookup_node found)

lemma lookup_inj {b : Nat} (nodup : (owned v addr).Nodup) (found : lookup v addr b ≠ 0)
    (same : lookup v addr b = lookup v addr c) : b = c := by
  rw [← map_cell_fileNodes] at nodup
  have second := (lookup_eq_iff found).mp same.symm
  exact congrArg Node.first (inj_on_of_nodup_map nodup _ (lookup_node found) _ second rfl)

lemma lookup_congr (same : ∀ x, ⟨x, 0, c⟩ ∈ fileNodes v' addr' ↔
    ⟨x, 0, c⟩ ∈ fileNodes v addr) : lookup v' addr' c = lookup v addr c := by
  by_cases found : lookup v addr c = 0
  · rw [found]
    by_contra appears
    have old := (same _).mp (lookup_node appears)
    exact appears (((lookup_eq_iff appears).mpr old).symm.trans found)
  · exact (lookup_eq_iff found).mpr ((same _).mpr (lookup_node found))

lemma content_eq (v : Vol) (addr : Nat → Nat) (bn : Nat) : content v addr bn =
    if lookup v addr bn = 0 then zeroBlock else v.disk (lookup v addr bn) := by
  cases placed : place bn <;> simp [content, lookup, placed, leaf]

lemma content_lookup (found : lookup v addr bn ≠ 0) :
    content v addr bn = v.disk (lookup v addr bn) := by
  rw [content_eq, if_neg found]

/-- Blocks added on the way to `bn` leave the numbers of the other blocks as they are. -/
lemma Grows.lookup (grows : Grows v (fileNodes v addr) v' (fileNodes v' addr') bn clr)
    (other : c ≠ bn ∨ lookup v addr c ≠ 0) :
    BlockMap.lookup v' addr' c = BlockMap.lookup v addr c := by
  obtain ⟨new, more, leads⟩ := grows.more
  rcases other with different | found
  · apply lookup_congr
    intro x
    rw [more, mem_add]
    refine ⟨?_, Or.inl⟩
    rintro (old | added)
    · exact old
    · exact absurd ((leads _ added).1.at_leaf rfl).symm different.symm
  · rw [lookup_eq_iff found, more]
    exact mem_add.mpr (Or.inl (lookup_node found))

/-- With a cleared block the contents stay everywhere. -/
lemma Grows.content (grows : Grows v (fileNodes v addr) v' (fileNodes v' addr') bn clr) {n : Nat}
    (changed : n ≠ bn ∨ clr = true) : content v' addr' n = BlockMap.content v addr n := by
  rw [content_eq, content_eq]
  by_cases found : BlockMap.lookup v addr n = 0
  · split_ifs with hole
    · rfl
    obtain ⟨new, more, leads⟩ := grows.more
    have member := lookup_node hole
    rw [more] at member
    rcases mem_add.mp member with old | added
    · exact absurd (((lookup_eq_iff hole).mpr old).symm.trans found) hole
    · obtain ⟨way, zero⟩ := leads _ added
      exact zero rfl (changed.resolve_left (not_not.mpr (way.at_leaf rfl)))
  · rw [grows.lookup (Or.inr found), if_neg found, if_neg found]
    exact grows.data _ (lookup_node found) rfl

/-- What happens under one address leaves the trees under the others as they are. -/
lemma slot_untouched {mine : Multiset Nat} (hs : s < NADDR) (holds : Holds v list (owned v addr))
    (moves : Moves v list (tree v (depth s) (addr s)) v' list' mine) {t : Nat} (ht : t < NADDR)
    (different : t ≠ s) : ∀ c ∈ tree v (depth t) (addr t), v'.disk c = v.disk c := by
  intro c hc
  rw [owned, ← Finset.add_sum_erase _ _ (Finset.mem_range.mpr hs)] at holds
  exact moves.untouched holds (mem_sum.mpr
    ⟨t, Finset.mem_erase.mpr ⟨different, Finset.mem_range.mpr ht⟩, hc⟩)

lemma moves_slot (addr' : Nat → Nat) (hs : s < NADDR) (holds : Holds v list (owned v addr))
    (same : ∀ t, t ≠ s → addr' t = addr t)
    (moves : Moves v list (tree v (depth s) (addr s)) v' list' (tree v' (depth s) (addr' s))) :
    Moves v list (owned v addr) v' list' (owned v' addr') := by
  have split : ∀ w a, owned w a = tree w (depth s) (a s) +
      ∑ t ∈ (Finset.range NADDR).erase s, tree w (depth t) (a t) := fun w a =>
    (Finset.add_sum_erase _ _ (Finset.mem_range.mpr hs)).symm
  apply (moves.beside _).of_eq (split v addr)
  rw [split]
  congr 1
  apply Finset.sum_congr rfl
  intro t ht
  obtain ⟨different, ht⟩ := Finset.mem_erase.mp ht
  rw [same t different]
  exact blocks_congr (slot_untouched hs holds moves (Finset.mem_range.mp ht) different)

/-- What is added under one address is added to the file. -/
lemma Grows.slot (addr' : Nat → Nat) (hs : s < NADDR) (same : ∀ t, t ≠ s → addr' t = addr t)
    (others : ∀ t < NADDR, t ≠ s → ∀ c ∈ tree v (depth t) (addr t), v'.disk c = v.disk c)
    (here : Grows v (treeNodes v (depth s) (addr s) (base s)) v'
      (treeNodes v' (depth s) (addr' s) (base s)) bn clr) :
    Grows v (fileNodes v addr) v' (fileNodes v' addr') bn clr := by
  obtain ⟨⟨new, more, leads⟩, data⟩ := here
  constructor
  · refine ⟨new, ?_, leads⟩
    have exchange := References.sum_exchange (Finset.mem_range.mpr hs)
      (f := fun t => treeNodes v _ (addr t) (base t))
      (g := fun t => treeNodes v' _ (addr' t) (base t)) fun t ht different => by
        rw [same t different]
        exact nodes_congr (others t (Finset.mem_range.mp ht) different)
    rw [more] at exchange
    apply add_right_cancel (exchange.trans _)
    rw [fileNodes]
    abel
  · intro n member leaf
    obtain ⟨t, ht, member⟩ := mem_sum.mp member
    by_cases different : t = s
    · subst different
      exact data n member leaf
    · exact others t (Finset.mem_range.mp ht) different _ (cell_mem member)

lemma levels_bound {j j' k : Nat} (counted : levels j nb bn = some (j', k)) : j' ≤ j := by
  induction j generalizing nb bn with
  | zero => cases counted
  | succ j ih =>
    simp only [levels] at counted
    split_ifs at counted with last
    · cases counted
      omega
    · have := ih counted
      omega

/-- `bmap` under one address. -/
def slotMap (v : Vol) (ip : Inode) (s k : Nat) (rwflg : Rw) (clr : Bool) : Mapped × Inode × Vol :=
  fetchFrom v ip s (depth s) k rwflg clr

lemma bmap_eq (v : Vol) (ip : Inode) (bn : Nat) (rwflg : Rw) (clr : Bool) :
    bmap v ip bn rwflg clr = match place bn with
      | some (s, k) => slotMap v ip s k rwflg (clr || decide (4 ≤ s))
      | none => (.efbig, ip, v) := by
  have nonneg : ¬ (bn : Int) < 0 := by omega
  by_cases direct : bn < 4
  · have small : (bn : Int) < NADDR - 3 := by simp only [NADDR]; omega
    have flat : depth bn = 0 := by simp only [depth]; omega
    have first : ¬ 4 ≤ bn := by omega
    simp only [bmap, nonneg, if_false, small, if_true, place, NADDR, direct,
      slotMap, fetchFrom, flat, fetch, first, decide_false, Bool.or_false]
    split <;> simp_all
  · have large : ¬ (bn : Int) < NADDR - 3 := by simp only [NADDR]; omega
    replace direct : ¬ bn < NADDR - 3 := direct
    cases counted : levels 3 1 (bn - (NADDR - 3)) with
    | none =>
      simp only [bmap, nonneg, if_false, large, Int.toNat_natCast, place, direct, counted,
        Option.map_none]
    | some p =>
      obtain ⟨j, k⟩ := p
      have high := levels_bound counted
      have below : depth (NADDR - j) = 4 - j := by simp only [depth, NADDR]; omega
      have indirect : 4 ≤ NADDR - j := by simp only [NADDR]; omega
      have root : (clr || decide (4 ≤ NADDR - j)) = true := by
        simp only [indirect, decide_true, Bool.or_true]
      simp only [bmap, nonneg, if_false, large, Int.toNat_natCast, place, direct, counted,
        Option.map_some, slotMap, below, root]

lemma slotMap_spec {ip : Inode} (k : Nat) (hs : s < NADDR) (clr : Bool)
    (holds : Holds v list (owned v ip.i_addr)) (deep : depth s ≠ 0 → clr = true) :
    ∃ m addr' v' list', slotMap v ip s k .write clr = (m, { ip with i_addr := addr' }, v') ∧
      Moves v list (owned v ip.i_addr) v' list' (owned v' addr') ∧
      Grows v (fileNodes v ip.i_addr) v' (fileNodes v' addr') (base s + k % NINDIR ^ depth s) clr ∧
      Got v' list' (depth s) (addr' s) k m ∧
      Counts list list' (lacks v (depth s) (ip.i_addr s) k) m := by
  have parts := holds
  rw [owned, ← Finset.add_sum_erase _ _ (Finset.mem_range.mpr hs)] at parts
  by_cases absent : ip.i_addr s = 0
  · rw [absent, lacks_zero]
    match list with
    | [] =>
      obtain ⟨v', call, stock, same, size⟩ := balloc_none holds.stock clr
      have nodes : fileNodes v' ip.i_addr = fileNodes v ip.i_addr := by
        simp [fileNodes, treeNodes, same]
      refine ⟨.missing, ip.i_addr, v', [], ?_, ?_, ?_, .inr ⟨rfl, rfl⟩,
        (Nat.zero_sub _).symm, by simp⟩
      · simp [slotMap, fetchFrom, fetchAddr, absent, call]
      · exact (moves_nospace stock same size).of_eq rfl (owned_congr nodes)
      · rw [nodes]
        exact .refl same
    | b :: list =>
      obtain ⟨v₁, call, taken, cleared⟩ := moves_balloc holds.stock clr
      have fresh : b ≠ 0 := good_ne_zero holds.stock.wf (holds.stock.wf.good b (by simp))
      have bare : depth s ≠ 0 ∨ clr = true → v₁.disk b = zeroBlock :=
        fun clears => cleared (clears.elim deep id)
      have single : tree v₁ (depth s) b = {b} := tree_zeroed fresh fun below => bare (.inl below)
      have nothing : tree v (depth s) (ip.i_addr s) = 0 := by simp [absent]
      have before : Holds v (b :: list) 0 := nothing ▸ parts.left
      obtain ⟨m, v', list', fetched, moves, grows, got, count, lost⟩ :=
        fetch_spec k fresh (single ▸ taken.holds before)
      have here : update ip.i_addr s b s = b := update_self _ _ _
      have others : ∀ t, t ≠ s → update ip.i_addr s b t = ip.i_addr t :=
        fun t different => update_of_ne different _ _
      have whole := (taken.trans (moves.of_eq single.symm rfl)).of_eq nothing rfl
      rw [lacks_bare fresh fun below => bare (.inl below)] at count lost
      refine ⟨m, update ip.i_addr s b, v', list', ?_, ?_, ?_, ?_, ?_, ?_⟩
      · simp [slotMap, fetchFrom, fetchAddr, absent, call, fetched]
      · exact moves_slot _ hs holds others (here.symm ▸ whole)
      · apply Grows.slot _ hs others fun t ht different => slot_untouched hs holds whole ht different
        rw [here, absent, treeNodes, nodes_zero]
        exact .fresh fresh bare ((grows _).weaken fun _ => rfl)
      · rw [here]
        exact got
      · rw [count, List.length_cons]
        omega
      · rw [lost, List.length_cons]
        omega
  · obtain ⟨m, v', list', fetched, moves, grows, got, count⟩ := fetch_spec k absent parts.left
    refine ⟨m, ip.i_addr, v', list', ?_, moves_slot _ hs holds (fun _ _ => rfl) moves, ?_, got, count⟩
    · simp [slotMap, fetchFrom, fetchAddr, absent, fetched]
    · exact Grows.slot _ hs (fun _ _ => rfl)
        (fun t ht different => slot_untouched hs holds moves ht different)
        ((grows _).weaken fun _ => rfl)

lemma deep_clears (clr : Bool) : depth s ≠ 0 → (clr || decide (4 ≤ s)) = true := by
  intro below
  have indirect : 4 ≤ s := by
    simp only [depth, NADDR] at below
    omega
  simp [indirect]

/-- What `bmap` for writing gives: the block is in the file, or no block is free. -/
def Given (v' : Vol) (list' : List Nat) (addr' : Nat → Nat) (bn : Nat) (m : Mapped) : Prop :=
  (m = .block (lookup v' addr' bn) ∧ lookup v' addr' bn ≠ 0) ∨ (m = .missing ∧ list' = [])

lemma bmap_spec (ip : Inode) (bn : Nat) (clr : Bool) (holds : Holds v list (owned v ip.i_addr)) :
    ∃ m addr' v' list', bmap v ip bn .write clr = (m, { ip with i_addr := addr' }, v') ∧
      Moves v list (owned v ip.i_addr) v' list' (owned v' addr') ∧
      Grows v (fileNodes v ip.i_addr) v' (fileNodes v' addr') bn clr ∧
      (bn < maxBlocks → Given v' list' addr' bn m) ∧ Counts list list' (needed v ip.i_addr bn) m := by
  rw [bmap_eq, needed]
  cases placed : place bn with
  | none =>
    refine ⟨.efbig, ip.i_addr, v, list, rfl, .refl holds.stock, .refl rfl, ?_, rfl, by simp⟩
    intro small
    exact absurd placed (place_ne_none small)
  | some p =>
    obtain ⟨s, k⟩ := p
    obtain ⟨hs, hk⟩ := place_bound placed
    obtain ⟨m, addr', v', list', call, moves, grows, got, count⟩ :=
      slotMap_spec k hs _ holds (deep_clears clr)
    rw [Nat.mod_eq_of_lt hk, ← place_base placed] at grows
    refine ⟨m, addr', v', list', call, moves, grows.weaken fun clears => ?_, ?_, count⟩
    · rw [clears, Bool.true_or]
    · intro _
      simpa only [Given, Got, lookup, placed] using got

lemma block_positive (signed : v.fs.fs_fsize ≤ 2 ^ 31) (good : badblock v.fs nb = false) :
    (Mapped.block nb).failed = false := by
  have := (badblock_eq_false v.fs nb).mp good
  simp only [Mapped.failed, decide_eq_false_iff_not]
  omega

/-- A block of the file holds no pointers to other blocks of it. -/
lemma fileNodes_write (nodup : (owned v addr).Nodup) (found : lookup v addr bn ≠ 0)
    (c : Block) : fileNodes (v.write (lookup v addr bn) c) addr = fileNodes v addr := by
  rw [← map_cell_fileNodes] at nodup
  apply Finset.sum_congr rfl
  intro s hs
  apply nodes_congr_tables
  intro n member table
  apply write_other
  intro same
  have whole : n ∈ fileNodes v addr := mem_sum.mpr ⟨s, hs, member⟩
  exact table (congrArg Node.height (inj_on_of_nodup_map nodup _ whole _ (lookup_node found) same))

/-- Writing a block of the file changes the contents there and nothing else. -/
lemma write_block (holds : Holds v list (owned v addr)) (found : lookup v addr bn ≠ 0) (c : Block) :
    Moves v list (owned v addr) (v.write (lookup v addr bn) c) list
        (owned (v.write (lookup v addr bn) c) addr) ∧
      (∀ n, lookup (v.write (lookup v addr bn) c) addr n = lookup v addr n) ∧
      ∀ n, content (v.write (lookup v addr bn) c) addr n =
        if n = bn then c else content v addr n := by
  have nodup := (nodup_add.mp holds.nodup).2.1
  have nodes := fileNodes_write nodup found c
  have numbers : ∀ n, lookup (v.write (lookup v addr bn) c) addr n = lookup v addr n :=
    fun n => lookup_congr fun x => by rw [nodes]
  refine ⟨(moves_write holds (lookup_mem found) c).of_eq rfl (owned_congr nodes), numbers, ?_⟩
  intro n
  rw [content_eq, content_eq, numbers]
  by_cases here : n = bn
  · subst here
    rw [if_neg found, if_pos rfl, write_self]
  · split_ifs with hole
    · rfl
    · exact write_other _ (fun same => here (lookup_inj nodup hole same)) _

/-- `bmap` for writing, and then a change `f` of the block that it gives: the file
changes there and nowhere else. With a cleared block, `f` is applied to what the
file had. -/
lemma bmap_write {ip : Inode} (small : bn < maxBlocks) (clr : Bool) (f : Block → Block)
    (holds : Holds v list (owned v ip.i_addr)) :
    ∃ m addr' v₁ list', bmap v ip bn .write clr = (m, { ip with i_addr := addr' }, v₁) ∧
      Moves v list (owned v ip.i_addr) v₁ list' (owned v₁ addr') ∧ list.length ≤ list'.length + 4 ∧
      ((m = .missing ∧ list' = []) ∨ ∃ nb, m = .block nb ∧ badblock v.fs nb = false ∧
        Moves v list (owned v ip.i_addr) (v₁.write nb (f (v₁.disk nb))) list'
          (owned (v₁.write nb (f (v₁.disk nb))) addr') ∧
        (clr = true → v₁.disk nb = content v ip.i_addr bn) ∧
        ∀ n, content (v₁.write nb (f (v₁.disk nb))) addr' n =
          if n = bn then f (v₁.disk nb) else content v ip.i_addr n) := by
  obtain ⟨m, addr', v₁, list', call, moves, grows, given, count, _⟩ := bmap_spec ip bn clr holds
  have few := needed_le v ip.i_addr bn
  refine ⟨m, addr', v₁, list', call, moves, by omega, ?_⟩
  rcases given small with ⟨rfl, found⟩ | none
  · have held := moves.holds holds
    have good := held.good _ (lookup_mem found)
    rw [badblock_size moves.size] at good
    obtain ⟨wrote, _, changed⟩ := write_block held found _
    refine .inr ⟨_, rfl, good, moves.trans wrote, ?_, ?_⟩
    · intro clears
      rw [← content_lookup found, grows.content (.inr clears)]
    · intro n
      rw [changed]
      split_ifs with here
      · rfl
      · exact grows.content (.inl here)
  · exact .inl none

lemma fetch_read (k : Nat) {l : Nat} (named : nb ≠ 0) (v : Vol) : fetch .read k l nb v =
    (if seek v l nb k = 0 then .missing else .block (seek v l nb k), v) := by
  induction l generalizing nb with
  | zero => simp [fetch, find, named]
  | succ l ih =>
    by_cases absent : word (v.disk nb) (k / NINDIR ^ l % NINDIR) = 0
    · simp [fetch, absent, find_succ named]
    · simp [fetch, absent, ih, seek, find_succ named]

lemma bmap_read (v : Vol) (ip : Inode) (small : bn < maxBlocks) (clr : Bool) :
    bmap v ip bn .read clr =
      (if lookup v ip.i_addr bn = 0 then .missing else .block (lookup v ip.i_addr bn), ip, v) := by
  rw [bmap_eq]
  cases placed : place bn with
  | none => exact absurd placed (place_ne_none small)
  | some p =>
    obtain ⟨s, k⟩ := p
    by_cases absent : ip.i_addr s = 0
    · simp [slotMap, fetchFrom, fetchAddr, absent, lookup, placed]
    · simp [slotMap, fetchFrom, fetchAddr, absent, lookup, placed, fetch_read]

lemma fetch_found (rwflg : Rw) (k : Nat) {l : Nat} (found : seek v l nb k ≠ 0) :
    fetch rwflg k l nb v = (.block (seek v l nb k), v) := by
  induction l generalizing nb with
  | zero => rfl
  | succ l ih =>
    have named : nb ≠ 0 := by
      rintro rfl
      exact found find_zero
    have present : word (v.disk nb) (k / NINDIR ^ l % NINDIR) ≠ 0 := by
      intro absent
      apply found
      rw [seek, find_succ named, absent, find_zero]
    rw [seek, find_succ named] at found ⊢
    simp only [fetch, present, ne_eq]
    exact ih found

/-- `bmap` for writing changes nothing when the block is there. -/
lemma bmap_found (ip : Inode) (found : lookup v ip.i_addr bn ≠ 0) (rwflg : Rw)
    (clr : Bool) : bmap v ip bn rwflg clr = (.block (lookup v ip.i_addr bn), ip, v) := by
  rw [bmap_eq]
  cases placed : place bn with
  | none => simp [lookup, placed] at found
  | some p =>
    obtain ⟨s, k⟩ := p
    simp only [lookup, placed] at found ⊢
    have named : ip.i_addr s ≠ 0 := by
      intro absent
      rw [absent] at found
      exact found find_zero
    simp [slotMap, fetchFrom, fetchAddr, named, fetch_found rwflg k found]

end Inodes

end BlockMap
