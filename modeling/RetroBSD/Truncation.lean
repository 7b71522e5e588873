import RetroBSD.FileBlocks

/-!
# Truncation

`indirtrunc` clears the pointers behind the last block that is kept, and returns
to the free list exactly the blocks that were below them. `itrunc` does so for
every address of an inode. Both keep what is stored up to the last block and
leave holes after it.
-/

namespace BlockMap

open Words FreeList Volumes PointerTrees List
open Function (update update_of_ne update_self)

def dispose : Nat → Vol → Nat → Vol
  | 0, v, nb => if nb ≠ 0 then v.free nb else v
  | l + 1, v, nb => if nb ≠ 0 then (indirtrunc l v nb (-1)).free nb else v

/-- `indirtrunc` for the blocks below a tree of any height; a data block has none. -/
def prune : Nat → Vol → Nat → Int → Vol
  | 0, v, _, _ => v
  | l + 1, v, nb, lastbn => indirtrunc l v nb lastbn

/-- The pointers from `keep` on are cleared and the trees below them disposed of. -/
def detach (l : Nat) (v : Vol) (nb keep : Nat) : Vol :=
  ((List.range' keep (NINDIR - keep)).reverse.map (word (v.disk nb))).foldl (dispose l)
    (v.write nb (zeroFrom (v.disk nb) (4 * keep)))

lemma detach_eq (l : Nat) (v : Vol) (nb keep : Nat) : detach l v nb keep =
    (after (keep - 1)).foldl (fun v' i => dispose l v' (word (v.disk nb) i))
      (v.write nb (zeroFrom (v.disk nb) (4 * keep))) := by
  simp only [detach, after, foldl_map, Int.sub_add_cancel, Int.toNat_natCast]

lemma indirtrunc_all (l : Nat) (v : Vol) (nb : Nat) : indirtrunc l v nb (-1) = detach l v nb 0 := by
  cases l <;> simp [indirtrunc, trsingle, detach_eq, dispose]

lemma indirtrunc_part (l : Nat) (v : Vol) (nb lastbn : Nat) : indirtrunc l v nb lastbn =
      if word (v.disk nb) (lastbn / NINDIR ^ l) ≠ 0 then
        prune l (detach l v nb (lastbn / NINDIR ^ l + 1)) (word (v.disk nb) (lastbn / NINDIR ^ l))
          ((lastbn % NINDIR ^ l : Nat) : Int)
      else detach l v nb (lastbn / NINDIR ^ l + 1) := by
  cases l with
  | zero => simp [indirtrunc, trsingle, detach_eq, dispose, prune]
  | succ l =>
    have last : (if (lastbn : Int) > 0 then lastbn / ((NINDIR ^ (l + 1) : Nat) : Int)
        else lastbn) = ((lastbn / NINDIR ^ (l + 1) : Nat) : Int) := by
      split_ifs with positive
      · exact (Int.natCast_div _ _).symm
      · have : lastbn = 0 := by omega
        simp [this]
    have count : ∀ n : Nat, ((n : Int) + 1).toNat = n + 1 := by
      intro n
      omega
    have kept : (lastbn : Int) ≥ 0 := by omega
    have before : ∀ n : Nat, ((n + 1 : Nat) : Int) - 1 = n := by
      intro n
      omega
    simp only [indirtrunc, last, count, Int.toNat_natCast, detach_eq, dispose, prune, kept, true_and,
      before, Int.natCast_emod]

/-- Of the nodes those with places before `L` are left, and what was stored stays. -/
structure Trims (v : Vol) (ns : Multiset Node) (v' : Vol) (ns' : Multiset Node) (L : Nat) :
    Prop where
  nodes : ns' = front NINDIR L ns
  data : ∀ n ∈ ns', n.height = 0 → v'.disk n.cell = v.disk n.cell

/-- What `dispose` does to trees of height `l`. -/
def Disposes (l : Nat) : Prop :=
  ∀ v list nb, Holds v list (tree v l nb) →
    ∃ list', Moves v list (tree v l nb) (dispose l v nb) list' 0

/-- What `prune` does to trees of height `l`. -/
def Prunes (l : Nat) : Prop :=
  ∀ v list nb lastbn, nb ≠ 0 → lastbn < NINDIR ^ l → Holds v list (tree v l nb) →
    ∃ list', Moves v list (tree v l nb) (prune l v nb (lastbn : Nat)) list'
        (tree (prune l v nb (lastbn : Nat)) l nb) ∧
      ∀ first, Trims v (treeNodes v l nb first) (prune l v nb (lastbn : Nat))
        (treeNodes (prune l v nb (lastbn : Nat)) l nb first) (first + lastbn + 1)

section Steps

variable {v v' : Vol} {list : List Nat} {l nb : Nat}

variable {L first : Nat}

/-- A tree that ends before the cut, or begins behind it. -/
lemma Trims.side {b : Nat} (apart : L ≤ first ∧ b = 0 ∨ first + NINDIR ^ l ≤ L ∧ b = nb ∧
      ∀ c ∈ tree v l nb, v'.disk c = v.disk c) :
    Trims v (treeNodes v l nb first) v' (treeNodes v' l b first) L := by
  rcases apart with ⟨behind, rfl⟩ | ⟨before, rfl, same⟩
  · rw [treeNodes, treeNodes, nodes_zero]
    exact ⟨(front_behind nindir_pos behind).symm,
      fun n member => absurd member (Multiset.notMem_zero n)⟩
  · have nodes : treeNodes v' l b first = treeNodes v l b first := nodes_congr same
    rw [nodes]
    exact ⟨(front_before nindir_pos before).symm, fun n member _ => same _ (cell_mem member)⟩

lemma Trims.of_same {w : Vol} {ns : Multiset Node} (same : ∀ c ∈ tree v l nb, v'.disk c = v.disk c)
    (trims : Trims v' (treeNodes v' l nb first) w ns L) :
    Trims v (treeNodes v l nb first) w ns L := by
  have nodes : treeNodes v' l nb first = treeNodes v l nb first := nodes_congr same
  rw [nodes] at trims
  refine ⟨trims.nodes, fun n member leaf => (trims.data n member leaf).trans ?_⟩
  rw [trims.nodes] at member
  exact same _ (cell_mem (Multiset.mem_of_mem_filter member))

/-- A tree is cut when each child is. -/
lemma Trims.children (named : nb ≠ 0) (kept : first < L)
    (each : ∀ i < NINDIR, Trims v (treeNodes v l (word (v.disk nb) i) (first + i * NINDIR ^ l)) v'
      (treeNodes v' l (word (v'.disk nb) i) (first + i * NINDIR ^ l)) L) :
    Trims v (treeNodes v (l + 1) nb first) v' (treeNodes v' (l + 1) nb first) L := by
  refine ⟨nodes_cut nindir_pos named kept fun i hi => (each i hi).nodes, ?_⟩
  intro n member leaf
  rw [treeNodes, nodes_succ named, Multiset.mem_cons, Multiset.mem_sum] at member
  rcases member with rfl | ⟨i, hi, member⟩
  · cases leaf
  · exact (each i (Finset.mem_range.mp hi)).data n member leaf

lemma dispose_all (disposes : Disposes l) (roots : List Nat)
    (holds : Holds v list (roots.map (tree v l)).sum) :
    ∃ list', Moves v list (roots.map (tree v l)).sum (roots.foldl (dispose l) v) list' 0 := by
  induction roots generalizing v list with
  | nil => exact ⟨list, .refl holds.stock⟩
  | cons root roots ih =>
    obtain ⟨list₁, first⟩ := disposes v list root holds.left
    have rest : roots.map (tree (dispose l v root) l) = roots.map (tree v l) := by
      apply map_congr_left
      intro other hother
      apply blocks_congr
      intro c hc
      exact first.untouched holds (Multiset.mem_of_le
        (single_le_sum (fun _ _ => zero_le) _ (mem_map.mpr ⟨other, hother, rfl⟩)) hc)
    have begun := first.beside (roots.map (tree v l)).sum
    rw [zero_add] at begun
    obtain ⟨list₂, second⟩ := ih (rest ▸ begun.holds holds)
    exact ⟨list₂, begun.trans (rest ▸ second)⟩

lemma word_zeroFrom (b : Block) (keep : Nat) {j : Nat} (inside : j < NINDIR) :
    word (zeroFrom b (4 * keep)) j = if j < keep then word b j else 0 := by
  simp only [NINDIR] at inside
  split_ifs with kept
  · apply word_congr
    intro k hk
    have before : ¬ 4 * keep ≤ k := by omega
    simp [zeroFrom, before]
  · have bytes : ∀ k, k / 4 = j → zeroFrom b (4 * keep) k = byteOf 0 (k % 4) := by
      intro k hk
      have cleared : 4 * keep ≤ k ∧ k < DEV_BSIZE := by
        simp only [DEV_BSIZE]
        omega
      simp [zeroFrom, cleared, byteOf]
    simpa using word_of_bytes bytes

lemma tree_children (named : nb ≠ 0) {keep : Nat} (fits : keep ≤ NINDIR) (v : Vol) :
    tree v (l + 1) nb = nb ::ₘ (∑ i ∈ Finset.range keep, tree v l (word (v.disk nb) i) +
      (((List.range' keep (NINDIR - keep)).reverse.map (word (v.disk nb))).map (tree v l)).sum) := by
  have tail : (((range' keep (NINDIR - keep)).reverse.map (word (v.disk nb))).map
      (tree v l)).sum = ∑ i ∈ Finset.Ico keep NINDIR, tree v l (word (v.disk nb) i) := by
    rw [map_map, map_reverse, sum_reverse]
    rfl
  rw [tail, Finset.sum_range_add_sum_Ico _ fits]
  exact blocks_succ named

lemma detach_spec (disposes : Disposes l) (named : nb ≠ 0) {keep : Nat} (fits : keep ≤ NINDIR)
    (holds : Holds v list (tree v (l + 1) nb)) :
    ∃ list', Moves v list (tree v (l + 1) nb) (detach l v nb keep) list'
        (tree (detach l v nb keep) (l + 1) nb) ∧
      (∀ j < NINDIR, word ((detach l v nb keep).disk nb) j =
        if j < keep then word (v.disk nb) j else 0) ∧
      ∀ j < keep, ∀ c ∈ tree v l (word (v.disk nb) j), (detach l v nb keep).disk c = v.disk c := by
  have nodup := (Multiset.nodup_add.mp holds.nodup).2.1
  generalize roots_eq : (range' keep _).reverse.map _ = roots
  generalize wrote : v.write nb _ = v₁
  have result : detach l v nb keep = roots.foldl (dispose l) v₁ := by rw [detach, roots_eq, wrote]
  have table : ∀ j < NINDIR, word (v₁.disk nb) j = if j < keep then word (v.disk nb) j else 0 := by
    intro j hj
    rw [← wrote, write_self, word_zeroFrom _ _ hj]
  have child : ∀ j < NINDIR, ∀ c ∈ tree v l (word (v.disk nb) j), v₁.disk c = v.disk c := by
    intro j hj c hc
    rw [← wrote]
    exact write_other _ (child_ne named nodup hj hc) _
  have children : ∀ j < NINDIR, tree v₁ l (word (v.disk nb) j) = tree v l (word (v.disk nb) j) :=
    fun j hj => blocks_congr (child j hj)
  have kept : tree v₁ (l + 1) nb =
      nb ::ₘ ∑ i ∈ Finset.range keep, tree v l (word (v.disk nb) i) := by
    rw [tree_children named fits]
    have front : ∑ i ∈ Finset.range keep, tree v₁ l (word (v₁.disk nb) i) =
        ∑ i ∈ Finset.range keep, tree v l (word (v.disk nb) i) := by
      apply Finset.sum_congr rfl
      intro i hi
      have hi := Finset.mem_range.mp hi
      rw [table i (by omega), if_pos hi, children i (by omega)]
    have back : (((range' keep (NINDIR - keep)).reverse.map (word (v₁.disk nb))).map
        (tree v₁ l)).sum = 0 := by
      apply sum_eq_zero
      intro x hx
      simp only [map_map, mem_map, mem_reverse, mem_range'_1, Function.comp] at hx
      obtain ⟨i, ⟨low, high⟩, rfl⟩ := hx
      rw [table i (by omega), if_neg (by omega), tree, blocks_zero]
    rw [front, back, add_zero]
  have detached : (roots.map (tree v₁ l)).sum = (roots.map (tree v l)).sum := by
    congr 1
    apply map_congr_left
    intro root hroot
    rw [← roots_eq] at hroot
    simp only [mem_map, mem_reverse, mem_range'_1] at hroot
    obtain ⟨i, ⟨-, high⟩, rfl⟩ := hroot
    exact children i (by omega)
  have whole : tree v (l + 1) nb = (roots.map (tree v₁ l)).sum + tree v₁ (l + 1) nb := by
    rw [tree_children named fits v, roots_eq, detached, kept, ← Multiset.singleton_add,
      ← Multiset.singleton_add]
    abel
  have first : Moves v list (tree v (l + 1) nb) v₁ list
      ((roots.map (tree v₁ l)).sum + tree v₁ (l + 1) nb) := by
    rw [← wrote]
    refine (moves_write holds (root_mem named) _).of_eq rfl ?_
    rw [wrote, whole]
  have held := first.holds holds
  obtain ⟨list', disposed⟩ := dispose_all disposes roots held.left
  have second := disposed.beside (tree v₁ (l + 1) nb)
  rw [zero_add] at second
  have same : ∀ c ∈ tree v₁ (l + 1) nb, (roots.foldl (dispose l) v₁).disk c = v₁.disk c :=
    fun c hc => disposed.untouched held hc
  rw [result]
  refine ⟨list', (first.trans second).of_eq rfl (blocks_congr same), ?_, ?_⟩
  · intro j hj
    rw [same nb (root_mem named), table j hj]
  · intro j hj c hc
    have inside : j < NINDIR := by omega
    have member : c ∈ tree v₁ (l + 1) nb := by
      apply child_mem named inside
      rw [table j inside, if_pos hj]
      have moved : c ∈ tree v₁ l (word (v.disk nb) j) := by
        rw [children j inside]
        exact hc
      exact moved
    rw [same c member, child j inside c hc]

lemma disposes_of (named : ∀ v list nb, nb ≠ 0 → Holds v list (tree v l nb) →
    ∃ list', Moves v list (tree v l nb) (dispose l v nb) list' 0) : Disposes l := by
  intro v list nb holds
  by_cases none : nb = 0
  · have same : dispose l v 0 = v := by cases l <;> simp [dispose]
    rw [none, same, tree, blocks_zero]
    exact ⟨list, .refl holds.stock⟩
  · exact named v list nb none holds

lemma disposes (l : Nat) : Disposes l := by
  induction l with
  | zero =>
    refine disposes_of fun v list nb named holds => ?_
    have single : tree v 0 nb = {nb} := blocks_base named
    rw [single] at holds ⊢
    simp only [dispose, named, ne_eq]
    exact ⟨_, moves_free holds⟩
  | succ l ih =>
    refine disposes_of fun v list nb named holds => ?_
    obtain ⟨list₁, moves, table, _⟩ := detach_spec ih named (Nat.zero_le _) holds
    have bare : tree (detach l v nb 0) (l + 1) nb = {nb} := by
      apply blocks_bare named
      intro j hj
      rw [table j hj, if_neg (by omega)]
    rw [bare] at moves
    simp only [dispose, named, ne_eq, not_false_eq_true, if_true, indirtrunc_all]
    exact ⟨_, moves.trans (moves_free (moves.holds holds))⟩

lemma indirtrunc_spec (prunes : Prunes l) (named : nb ≠ 0) (holds : Holds v list (tree v (l + 1) nb))
    {lastbn : Nat} (inside : lastbn < NINDIR ^ (l + 1)) :
    ∃ list', Moves v list (tree v (l + 1) nb) (indirtrunc l v nb lastbn) list'
        (tree (indirtrunc l v nb lastbn) (l + 1) nb) ∧
      ∀ first, Trims v (treeNodes v (l + 1) nb first) (indirtrunc l v nb lastbn)
        (treeNodes (indirtrunc l v nb lastbn) (l + 1) nb first) (first + lastbn + 1) := by
  have positive : 0 < NINDIR ^ l := Nat.pow_pos nindir_pos
  have index : lastbn / NINDIR ^ l < NINDIR := by
    rw [Nat.div_lt_iff_lt_mul positive, ← pow_succ']
    exact inside
  have below : lastbn % NINDIR ^ l < NINDIR ^ l := Nat.mod_lt _ positive
  have split := Nat.div_add_mod' lastbn (NINDIR ^ l)
  obtain ⟨list₁, moves, table, kept⟩ :=
    detach_spec (disposes l) named (Nat.succ_le_of_lt index) holds
  rw [indirtrunc_part]
  generalize lastbn / NINDIR ^ l = last at *
  generalize lastbn % NINDIR ^ l = rest at *
  generalize detach l v nb _ = v₁ at *
  -- the children before the last stay, and those behind it are gone
  have outer : ∀ v₂ first, v₂.disk nb = v₁.disk nb → Beside v₁ v₂ l nb last →
      Trims v (treeNodes v l (word (v.disk nb) last) (first + last * NINDIR ^ l)) v₂
        (treeNodes v₂ l (word (v₁.disk nb) last) (first + last * NINDIR ^ l)) (first + lastbn + 1) →
      Trims v (treeNodes v (l + 1) nb first) v₂ (treeNodes v₂ (l + 1) nb first)
        (first + lastbn + 1) := by
    intro v₂ first root beside middle
    apply Trims.children named (by omega)
    intro i hi
    rw [root]
    rcases Nat.lt_trichotomy i last with less | rfl | more
    · have pointer : word (v₁.disk nb) i = word (v.disk nb) i := by
        rw [table i hi, if_pos (by omega)]
      have same : ∀ c ∈ tree v l (word (v.disk nb) i), v₁.disk c = v.disk c := kept i (by omega)
      have later := (beside i hi (by omega)).2
      rw [pointer, tree, blocks_congr same] at later
      have room : (i + 1) * NINDIR ^ l ≤ last * NINDIR ^ l := Nat.mul_le_mul_right _ less
      rw [Nat.succ_mul] at room
      exact .side (.inr ⟨by omega, pointer, fun c hc => (later c hc).trans (same c hc)⟩)
    · exact middle
    · have room : (last + 1) * NINDIR ^ l ≤ i * NINDIR ^ l := Nat.mul_le_mul_right _ more
      rw [Nat.succ_mul] at room
      exact .side (.inl ⟨by omega, by rw [table i hi, if_neg (by omega)]⟩)
  have child : word (v₁.disk nb) last = word (v.disk nb) last := by
    rw [table last index, if_pos (Nat.lt_succ_self last)]
  by_cases absent : word (v.disk nb) last = 0
  · rw [if_neg (not_not.mpr absent)]
    refine ⟨list₁, moves, fun first => outer v₁ first rfl (fun _ _ _ => ⟨rfl, fun _ _ => rfl⟩) ?_⟩
    rw [child, absent, treeNodes, treeNodes, nodes_zero, nodes_zero]
    exact ⟨rfl, fun n member => absurd member (Multiset.notMem_zero n)⟩
  · rw [if_pos absent]
    have held := moves.holds holds
    have parts := held
    rw [tree, blocks_split named index, ← Multiset.add_cons, child] at parts
    obtain ⟨list₂, pruned, cut⟩ := prunes v₁ list₁ _ rest absent below parts.left
    generalize prune l v₁ _ rest = v₂ at *
    rw [← child] at pruned
    obtain ⟨moves', root, beside⟩ := moves_child named index held pruned
    refine ⟨list₂, moves.trans moves', fun first => outer v₂ first root beside ?_⟩
    have position : first + last * NINDIR ^ l + rest + 1 = first + lastbn + 1 := by omega
    rw [child, ← position]
    exact (cut _).of_same (kept last (Nat.lt_succ_self last))

lemma prunes (l : Nat) : Prunes l := by
  induction l with
  | zero =>
    intro v list nb lastbn named inside holds
    obtain rfl : lastbn = 0 := by simpa using inside
    exact ⟨list, .refl holds.stock, fun first => .side (.inr ⟨le_rfl, rfl, fun _ _ => rfl⟩)⟩
  | succ l ih =>
    intro v list nb lastbn named inside holds
    exact indirtrunc_spec ih named holds inside

end Steps

/-! ## The addresses of an inode -/

def without (addr : Nat → Nat) (ss : List Nat) : Nat → Nat :=
  fun s => if s ∈ ss then 0 else addr s

section Slots

variable {v v' : Vol} {list : List Nat} {addr addr' : Nat → Nat}

variable {ss : List Nat} {L length : Nat}

/-- A file is cut when the tree under each address is. -/
lemma Trims.file (each : ∀ s < NADDR, Trims v (treeNodes v (depth s) (addr s) (base s)) v'
    (treeNodes v' (depth s) (addr' s) (base s)) L) :
    Trims v (fileNodes v addr) v' (fileNodes v' addr') L := by
  constructor
  · rw [fileNodes, fileNodes, front, filter_sum]
    apply Finset.sum_congr rfl
    intro s hs
    exact (each s (Finset.mem_range.mp hs)).nodes
  · intro n member
    obtain ⟨s, hs, member⟩ := Multiset.mem_sum.mp member
    exact (each s (Finset.mem_range.mp hs)).data n member

lemma Trims.lookup (trims : Trims v (fileNodes v addr) v' (fileNodes v' addr') L)
    (b : Nat) : lookup v' addr' b = if b < L then BlockMap.lookup v addr b else 0 := by
  have kept : ∀ x, ⟨x, 0, b⟩ ∈ fileNodes v' addr' ↔ ⟨x, 0, b⟩ ∈ fileNodes v addr ∧ b < L := by
    intro x
    rw [trims.nodes, front, Multiset.mem_filter, behind_iff nindir_pos, Nat.not_le]
  split_ifs with before
  · apply lookup_congr
    intro x
    rw [kept, and_iff_left before]
  · by_contra appears
    exact before ((kept _).mp (lookup_node appears)).2

lemma Trims.content (trims : Trims v (fileNodes v addr) v' (fileNodes v' addr') L)
    (b : Nat) : content v' addr' b = if b < L then BlockMap.content v addr b else zeroBlock := by
  have data := fun found : BlockMap.lookup v' addr' b ≠ 0 => trims.data _ (lookup_node found) rfl
  rw [content_eq, content_eq]
  rw [trims.lookup] at data ⊢
  split_ifs with before hole
  · rfl
  · rw [if_pos before] at data
    exact data hole
  · rfl
  · contradiction

/-- The trees under the given addresses returned to the free list. -/
def disposeSlots (v : Vol) (addr : Nat → Nat) (ss : List Nat) : Vol :=
  ss.foldl (fun v s => dispose (depth s) v (addr s)) v

lemma disposeSlots_spec {old : Nat → Nat} (distinct : ss.Nodup)
    (inside : ∀ s ∈ ss, s < NADDR) (agree : ∀ s ∈ ss, old s = addr s)
    (holds : Holds v list (owned v addr)) :
    ∃ list', Moves v list (owned v addr) (disposeSlots v old ss) list'
        (owned (disposeSlots v old ss) (without addr ss)) ∧
      ∀ t < NADDR, t ∉ ss → ∀ c ∈ tree v (depth t) (addr t),
        (disposeSlots v old ss).disk c = v.disk c := by
  induction ss generalizing v list addr with
  | nil =>
    refine ⟨list, ?_, fun _ _ _ _ _ => rfl⟩
    have whole : without addr [] = addr := by
      funext s
      simp [without]
    exact .refl holds.stock
  | cons s ss ih =>
    obtain ⟨fresh, distinct⟩ := nodup_cons.mp distinct
    have hs := inside s (by simp)
    have split := Finset.add_sum_erase _ (fun t => tree v (depth t) (addr t))
      (Finset.mem_range.mpr hs)
    have parts := holds
    rw [owned, ← split] at parts
    obtain ⟨list₁, disposed⟩ := disposes _ v list _ parts.left
    have step : disposeSlots v old (s :: ss) = disposeSlots (dispose (depth s) v (addr s)) old ss := by
      simp [disposeSlots, agree]
    have gone : tree (dispose (depth s) v (addr s)) (depth s) (update addr s 0 s) = 0 := by
      rw [update_self, tree, blocks_zero]
    have moves := moves_slot _ hs holds
      (fun t different => update_of_ne different _ _) (disposed.of_eq rfl gone)
    have different : ∀ t ∈ ss, t ≠ s := by
      rintro t ht rfl
      exact fresh ht
    obtain ⟨list₂, rest, kept⟩ := ih distinct (fun t ht => inside t (by simp [ht]))
      (fun t ht => by rw [update_of_ne (different t ht), agree t (by simp [ht])])
      (moves.holds holds)
    have both : without (update addr s 0) ss = without addr (s :: ss) := by
      funext t
      by_cases here : t = s
      · simp [without, here]
      · simp [without, here]
    rw [step, ← both]
    refine ⟨list₂, moves.trans rest, ?_⟩
    intro t ht apart c hc
    have here : t ≠ s := by
      rintro rfl
      exact apart (by simp)
    have first := slot_untouched hs holds disposed ht here
    have second := kept t ht (fun h => apart (by simp [h])) c
    rw [update_of_ne here, tree, blocks_congr first] at second
    exact (second hc).trans (first c hc)

lemma lastiblock_eq {level : Nat} (indirect : level < 3) :
    lastiblock (L - 1) level = max (-1) (L - 1 - base (NDADDR + level) : Int) := by
  interval_cases level <;> simp only [lastiblock, base, NDADDR, NINDIR] <;> omega

lemma freeLevels_gone (level : Nat) (indirect : level < 3) (gone : L ≤ base (NDADDR + level)) :
    freeLevels v addr (L - 1) (level + 1) =
      freeLevels (dispose (level + 1) v (addr (NDADDR + level))) addr (L - 1) level := by
  have low : lastiblock (L - 1) level = -1 := by
    rw [lastiblock_eq indirect]
    omega
  simp [freeLevels, low, dispose]

lemma freeLevels_kept (level last : Nat) (indirect : level < 3)
    (kept : L = base (NDADDR + level) + last + 1) : freeLevels v addr (L - 1) (level + 1) =
      if addr (NDADDR + level) ≠ 0 then prune (level + 1) v (addr (NDADDR + level)) last else v := by
  have high : lastiblock (L - 1) level = last := by
    rw [lastiblock_eq indirect]
    omega
  have nonneg : ¬ (last : Int) < 0 := by omega
  simp [freeLevels, high, prune, nonneg]

lemma freeDirect_eq {i : Nat} (direct : i ≤ NDADDR) :
    freeDirect v addr (L - 1) i = disposeSlots v addr (List.range' L (i - L)).reverse := by
  induction i generalizing v with
  | zero => simp [freeDirect, disposeSlots]
  | succ i ih =>
    by_cases behind : (i : Int) > L - 1
    · have count : i + 1 - L = (i - L) + 1 := by omega
      have flat : depth i = 0 := by
        simp only [depth, NADDR, NDADDR] at direct ⊢
        omega
      have top : L + (i - L) = i := by omega
      have first : dispose (depth i) v (addr i) = if addr i ≠ 0 then v.free (addr i) else v := by
        rw [flat, dispose]
      simp only [freeDirect, behind, if_true, count, range'_concat, reverse_append,
        reverse_singleton, singleton_append, Nat.one_mul, top, disposeSlots, foldl_cons, first]
      rw [ih (by omega), disposeSlots]
    · have count : i + 1 - L = 0 := by omega
      simp [freeDirect, behind, count, disposeSlots]

lemma keepAddr_eq {s : Nat} (hs : s < NADDR) :
    keepAddr addr (L - 1) s = if L ≤ base s then 0 else addr s := by
  by_cases direct : s < NDADDR
  · have first : base s = s := by interval_cases s <;> rfl
    have behind : (s : Int) > L - 1 ↔ L ≤ s := by omega
    simp [keepAddr, direct, first]
  · obtain ⟨level, rfl⟩ := Nat.exists_eq_add_of_le (Nat.le_of_not_lt direct)
    have behind : lastiblock (L - 1) level < 0 ↔ L ≤ base (NDADDR + level) := by
      rw [lastiblock_eq (Nat.lt_of_add_lt_add_left hs)]
      omega
    simp [keepAddr, behind]

/-- What is freed from block `L` on lies under whole addresses. -/
structure Whole (L : Nat) (ss : List Nat) : Prop where
  distinct : ss.Nodup
  inside : ∀ s ∈ ss, s < NADDR
  behind : ∀ s < NADDR, s ∈ ss ↔ L ≤ base s
  short : ∀ s < NADDR, base s < L → base s + NINDIR ^ depth s ≤ L
  loop : ∀ v addr, freeLevels v addr (L - 1) 3 = disposeSlots v addr ss

/-- The tree under address `c` is cut behind position `last`, and what lies under later
addresses is freed. -/
structure Divided (L : Nat) (ss : List Nat) (c last : Nat) : Prop where
  slot : c < NADDR
  distinct : ss.Nodup
  inside : ∀ s ∈ ss, s < NADDR
  later : ∀ s < NADDR, s ∈ ss ↔ c < s
  fits : last < NINDIR ^ depth c
  length : L = base c + last + 1
  loop : ∀ v addr, freeLevels v addr (L - 1) 3 =
    if addr c ≠ 0 then prune (depth c) (disposeSlots v addr ss) (addr c) last
    else disposeSlots v addr ss

lemma Divided.behind {c last : Nat} (cut : Divided L ss c last) :
    ∀ s < NADDR, s ∈ ss ↔ L ≤ base s := by
  intro s hs
  rw [cut.later s hs, cut.length]
  have fits := cut.fits
  constructor
  · intro more
    have := base_add_le hs more
    omega
  · intro far
    by_contra before
    have := base_mono c cut.slot s (by omega)
    omega

lemma freeLevels_cases (small : L ≤ maxBlocks) :
    (∃ ss, Whole L ss) ∨ ∃ ss c last, Divided L ss c last := by
  by_cases direct : L ≤ 4
  · refine .inl ⟨6 :: 5 :: 4 :: (List.range' L (4 - L)).reverse, ?_, ?_, ?_, ?_, ?_⟩
    · interval_cases L <;> decide
    · interval_cases L <;> decide
    · interval_cases L <;> decide
    · interval_cases L <;> decide
    · intro v addr
      rw [freeLevels_gone 2 (by decide) (direct.trans (by decide)),
        freeLevels_gone 1 (by decide) (direct.trans (by decide)),
        freeLevels_gone 0 (by decide) direct, freeLevels, freeDirect_eq le_rfl]
      rfl
  by_cases single : L ≤ 260
  · obtain ⟨last, rfl⟩ : ∃ last, L = base 4 + last + 1 := ⟨L - 5, by simp only [base]; omega⟩
    refine .inr ⟨[6, 5], 4, last, by decide, by decide, by decide, by decide, ?_, rfl, ?_⟩
    · simp only [base, depth, NADDR, NINDIR] at single ⊢
      omega
    · intro v addr
      rw [freeLevels_gone 2 (by decide) (single.trans (by decide)), freeLevels_gone 1 (by decide) single,
        freeLevels_kept 0 last (by decide) rfl]
      rfl
  by_cases double : L ≤ 65796
  · obtain ⟨last, rfl⟩ : ∃ last, L = base 5 + last + 1 := ⟨L - 261, by simp only [base]; omega⟩
    refine .inr ⟨[6], 5, last, by decide, by decide, by decide, by decide, ?_, rfl, ?_⟩
    · simp only [base, depth, NADDR, NINDIR] at double ⊢
      omega
    · intro v addr
      rw [freeLevels_gone 2 (by decide) double, freeLevels_kept 1 last (by decide) rfl]
      rfl
  · obtain ⟨last, rfl⟩ : ∃ last, L = base 6 + last + 1 := ⟨L - 65797, by simp only [base]; omega⟩
    have total : maxBlocks = 16843012 := by decide
    refine .inr ⟨[], 6, last, by decide, by decide, by decide, by decide, ?_, rfl, ?_⟩
    · simp only [base, depth, NADDR, NINDIR] at small ⊢
      omega
    · intro v addr
      rw [freeLevels_kept 2 last (by decide) rfl]
      rfl

/-- The addresses that `itrunc` keeps, once the others are disposed of. -/
lemma owned_keepAddr (behind : ∀ s < NADDR, s ∈ ss ↔ L ≤ base s) :
    owned v (keepAddr addr (L - 1)) = owned v (without addr ss) := by
  apply Finset.sum_congr rfl
  intro s hs
  have hs := Finset.mem_range.mp hs
  rw [keepAddr_eq hs, without]
  simp [behind s hs]

/-- `itrunc` after the partial block: of the blocks of the file, those with places before
`L` are left. -/
lemma freeLevels_spec (small : L ≤ maxBlocks) (holds : Holds v list (owned v addr)) :
    ∃ list', Moves v list (owned v addr) (freeLevels v addr (L - 1) 3) list'
        (owned (freeLevels v addr (L - 1) 3) (keepAddr addr (L - 1))) ∧
      Trims v (fileNodes v addr) (freeLevels v addr (L - 1) 3)
        (fileNodes (freeLevels v addr (L - 1) 3) (keepAddr addr (L - 1))) L := by
  have positive : ∀ s, 0 < NINDIR ^ depth s := fun s => Nat.pow_pos nindir_pos
  rcases freeLevels_cases small with ⟨ss, whole⟩ | ⟨ss, c, last, divided⟩
  · obtain ⟨list₁, moves, kept⟩ := disposeSlots_spec whole.distinct whole.inside (fun _ _ => rfl) holds
    rw [whole.loop, owned_keepAddr whole.behind]
    refine ⟨list₁, moves, .file fun s hs => ?_⟩
    rw [keepAddr_eq hs]
    split_ifs with far
    · exact .side (.inl ⟨far, rfl⟩)
    · exact .side (.inr ⟨whole.short s hs (Nat.lt_of_not_le far), rfl,
        kept s hs ((whole.behind s hs).not.mpr far)⟩)
  · obtain ⟨list₁, moves, kept⟩ :=
      disposeSlots_spec divided.distinct divided.inside (fun _ _ => rfl) holds
    have hc := divided.slot
    have fits := divided.fits
    have length := divided.length
    have stays : ∀ s < NADDR, s ≤ c → s ∉ ss :=
      fun s hs before member => absurd ((divided.later s hs).mp member) (not_lt.mpr before)
    have same : ∀ s < NADDR, s ≤ c → without addr ss s = addr s :=
      fun s hs before => if_neg (stays s hs before)
    rw [divided.loop, owned_keepAddr divided.behind]
    generalize disposeSlots v addr ss = v₁ at *
    -- the tree under `c` is cut, and those under the addresses before it stay
    have cut : ∀ v₂ : Vol, (∀ s < c, ∀ b ∈ tree v₁ (depth s) (addr s), v₂.disk b = v₁.disk b) →
        Trims v₁ (treeNodes v₁ (depth c) (addr c) (base c)) v₂
          (treeNodes v₂ (depth c) (addr c) (base c)) L →
        Trims v (fileNodes v addr) v₂ (fileNodes v₂ (keepAddr addr (L - 1))) L := by
      intro v₂ others middle
      refine .file fun s hs => ?_
      rw [keepAddr_eq hs]
      rcases Nat.lt_trichotomy s c with less | rfl | more
      · have room := base_add_le hc less
        have first := kept s hs (stays s hs less.le)
        have second := others s less
        rw [tree, blocks_congr first] at second
        rw [if_neg (by have := positive s; omega)]
        exact .side (.inr ⟨by omega, rfl, fun b hb => (second b hb).trans (first b hb)⟩)
      · rw [if_neg (by omega)]
        exact middle.of_same (kept s hs (stays s hs le_rfl))
      · have far := (divided.behind s hs).mp ((divided.later s hs).mpr more)
        rw [if_pos far]
        exact .side (.inl ⟨far, rfl⟩)
    by_cases absent : addr c = 0
    · rw [if_neg (not_not.mpr absent)]
      refine ⟨list₁, moves, cut v₁ (fun _ _ _ _ => rfl) ?_⟩
      rw [absent, treeNodes, nodes_zero]
      exact ⟨rfl, fun n member => absurd member (Multiset.notMem_zero n)⟩
    · rw [if_pos absent]
      have held := moves.holds holds
      have parts := held
      rw [owned, ← Finset.add_sum_erase _ _ (Finset.mem_range.mpr hc), same c hc le_rfl] at parts
      obtain ⟨list₂, pruned, trims⟩ := prunes _ v₁ list₁ _ last absent fits parts.left
      generalize prune _ v₁ _ last = v₂ at *
      rw [← same c hc le_rfl] at pruned
      refine ⟨list₂, moves.trans (moves_slot _ hc held (fun _ _ => rfl) pruned), cut v₂ ?_ ?_⟩
      · intro s less
        have hs := less.trans hc
        have frame := slot_untouched hc held pruned hs less.ne
        rw [same s hs less.le] at frame
        exact frame
      · rw [length]
        exact trims _

def blocksOf (length : Nat) : Nat := lblkno ((length + DEV_BSIZE - 1) % 2 ^ 32)

lemma blocksOf_le (length : Nat) : blocksOf length ≤ maxBlocks := by
  have total : maxBlocks = 16843012 := by decide
  simp only [blocksOf, lblkno, DEV_BSIZE] at *
  omega

lemma shorten_spec (ip : Inode) (length : Nat) (holds : Holds v list (owned v ip.i_addr)) :
    ∃ addr' v' list', shorten v ip length =
        ({ ip with i_size := toInt32 length, i_addr := addr' }, v') ∧
      Moves v list (owned v ip.i_addr) v' list' (owned v' addr') ∧
      Trims v (fileNodes v ip.i_addr) v' (fileNodes v' addr') (blocksOf length) := by
  obtain ⟨list', moves, trims⟩ := freeLevels_spec (blocksOf_le length) holds
  exact ⟨_, _, list', rfl, moves, trims⟩

lemma lblkno_lt (word : length < 2 ^ 32) : lblkno length < maxBlocks := by
  have total : maxBlocks = 16843012 := by decide
  simp only [lblkno, DEV_BSIZE] at *
  omega

/-- The partial block and what follows it. -/
lemma shorten_partial (ip : Inode) (word : length < 2 ^ 32)
    (holds : Holds v list (owned v ip.i_addr)) :
    ∃ m addr₁ v₁ list₁, bmap v ip (lblkno length) .write true =
        (m, { ip with i_addr := addr₁ }, v₁) ∧
      Moves v list (owned v ip.i_addr) v₁ list₁ (owned v₁ addr₁) ∧ list.length ≤ list₁.length + 4 ∧
      ((m = .missing ∧ list₁ = []) ∨ ∃ bn, m = .block bn ∧
        (badblock v.fs bn = false) ∧ ∃ addr' v' list',
        shorten (v₁.write bn (zeroFrom (v₁.disk bn) (blkoff length)))
            { ip with i_addr := addr₁ } length =
          ({ ip with i_size := toInt32 length, i_addr := addr' }, v') ∧
        Moves v list (owned v ip.i_addr) v' list' (owned v' addr') ∧
        ∀ n, content v' addr' n = if n < blocksOf length then
            (if n = lblkno length then zeroFrom (content v ip.i_addr n) (blkoff length)
              else content v ip.i_addr n)
          else zeroBlock) := by
  obtain ⟨m, addr₁, v₁, list₁, call, moves, count, outcome⟩ :=
    bmap_write (lblkno_lt word) true (fun b => zeroFrom b _) holds
  refine ⟨m, addr₁, v₁, list₁, call, moves, count, ?_⟩
  rcases outcome with none | ⟨nb, rfl, good, wrote, old, changed⟩
  · exact .inl none
  · obtain ⟨addr', v', list', short, trimmed, trims⟩ :=
      shorten_spec { ip with i_addr := addr₁ } length (wrote.holds holds)
    refine .inr ⟨nb, rfl, good, addr', v', list', short, wrote.trans trimmed, ?_⟩
    intro n
    rw [trims.content, changed]
    split_ifs with before here
    · rw [here, old rfl]
    · rfl
    · rfl

/-- `itrunc` only moves blocks between the inode and the free list. -/
lemma itrunc_moves (ip : Inode) (word : length < 2 ^ 32)
    (holds : Holds v list (owned v ip.i_addr)) : ∃ size addr' v' list', itrunc v ip length =
        ({ ip with i_size := size, i_addr := addr' }, v') ∧
      Moves v list (owned v ip.i_addr) v' list' (owned v' addr') := by
  obtain ⟨size, pipe⟩ : ∃ size, (if ip.ipipe then { ip with i_size := MAXPIPSIZ } else ip) =
      { ip with i_size := size } := by
    split_ifs
    · exact ⟨_, rfl⟩
    · exact ⟨ip.i_size, rfl⟩
  obtain ⟨m, addr₀, v₀, list₀, grown, moved, _⟩ :=
    bmap_spec { ip with i_size := size } (lblkno _) true holds
  simp only [itrunc, pipe]
  split_ifs with same longer failed whole
  · exact ⟨size, ip.i_addr, v, list, rfl, .refl holds.stock⟩
  · exact ⟨size, addr₀, v₀, list₀, by rw [grown], moved⟩
  · exact ⟨toInt32 length, addr₀, v₀, list₀, by rw [grown], moved⟩
  · obtain ⟨addr', v', list', call, moves, _⟩ :=
      shorten_spec { ip with i_size := size } length holds
    exact ⟨toInt32 length, addr', v', list', call, moves⟩
  · obtain ⟨m, addr₁, v₁, list₁, call, moves, _, outcome⟩ :=
      shorten_partial { ip with i_size := size } word holds
    rw [shortenInside, call]
    rcases outcome with ⟨rfl, _⟩ | ⟨bn, rfl, _, addr', v', list', short, moves', _⟩
    · exact ⟨size, addr₁, v₁, list₁, rfl, moves⟩
    · by_cases negative : (Mapped.block bn).failed
      · exact ⟨size, addr₁, v₁, list₁, by simp [negative], moves⟩
      · exact ⟨toInt32 length, addr', v', list', by simp [negative, short], moves'⟩

end Slots

end BlockMap
