import RetroBSD.AllocatorSearch

/-!
# Whole sequences of calls

Every call but one keeps the arena linked and the search pointer on a link. The exception is
a `malloc` that fails while the search pointer stands on a free block directly behind a free
block: the block is joined with the one in front of it, and the pointer is left inside. The
results exclude it, and a `realloc` that fails, which has freed its block by then.
-/

namespace Allocator

open Arenas Runs List Prod
open Function (update update_of_ne update_self)

/-- The arena is linked from the static array to the top, which lies below the break. -/
structure Good (h : Heap) (bs : List Block) : Prop where
  linked : Linked h.mem h.alloct bs
  begins : start bs h.alloct = h.allocs
  closed : h.mem h.alloct = link h.allocs true
  above : h.alloct < h.brk
  inside : h.brk < WORDS

def OnChain (h : Heap) (bs : List Block) (x : ℕ) : Prop := x ∈ bs.map Prod.fst ∨ x = h.alloct

/-- What has become of an arena: blocks in use stay, links are old or lie from the old top on,
and below it no other words change. -/
structure Later (h : Heap) (bs : List Block) (h' : Heap) (cs : List Block) : Prop where
  keeps : ∀ r ∈ held bs h.alloct, r ∈ held cs h'.alloct
  fresh : ∀ a, OnChain h' cs a → a ∈ bs.map Prod.fst ∨ h.alloct ≤ a
  off : ∀ a < h.alloct, a ∉ bs.map Prod.fst → h'.mem a = h.mem a
  top : h.alloct ≤ h'.alloct
  allocp : h'.allocp = h.allocp
  allocs : h'.allocs = h.allocs

namespace Later

variable {h h' h'' : Heap} {bs cs ds : List Block}

lemma trans (one : Later h bs h' cs) (two : Later h' cs h'' ds) : Later h bs h'' ds where
  keeps r inside := two.keeps r (one.keeps r inside)
  fresh a inside := by
    rcases two.fresh a inside with old | high
    · exact one.fresh a (.inl old)
    · exact .inr (one.top.trans high)
  off a low away := by
    have away' : a ∉ cs.map fst := by
      intro inside
      rcases one.fresh a (.inl inside) with old | high
      · exact away old
      · omega
    exact (two.off a (low.trans_le one.top) away').trans (one.off a low away)
  top := one.top.trans two.top
  allocp := two.allocp.trans one.allocp
  allocs := two.allocs.trans one.allocs

lemma merge {mem' : Memory} (m : Merge bs cs) (off : Off bs h.mem mem') :
    Later h bs { h with mem := mem' } cs where
  keeps r inside := by
    rw [m.held_eq]
    exact inside
  fresh a inside := inside.imp m.subset ge_of_eq
  off a _ away := off a away
  top := le_rfl
  allocp := rfl
  allocs := rfl

end Later

variable {h : Heap} {bs : List Block} {s : State}

lemma onChain_next (pre : List Block) (b : Block) (post : List Block) :
    OnChain h (pre ++ b :: post) (start post h.alloct) := by
  cases post with
  | nil => exact .inr rfl
  | cons c post =>
    left
    simp

lemma Good.merge {cs : List Block} (good : Good h bs) {mem' : Memory}
    (m : Merge bs cs) (linked : Linked mem' h.alloct cs) (off : Off bs h.mem mem') :
    Good { h with mem := mem' } cs where
  linked := linked
  begins := (m.start_eq _).trans good.begins
  closed := by
    have away : h.alloct ∉ bs.map fst := fun inside =>
      absurd (good.linked.lt_top inside) (lt_irrefl _)
    exact (off _ away).trans good.closed
  above := good.above
  inside := good.inside

/-! ### Growth -/

section Growth

variable {temp : ℕ}

def grown (h : Heap) (bs : List Block) : List Block :=
  bs ++ [(h.alloct, decide (h.brk ≠ h.alloct + 1)), (h.brk, false)]

lemma good_grow (good : Good h bs) (two : 2 ≤ temp) (room : h.brk + temp < WORDS) :
    Good (grow h temp) (grown h bs) ∧ Later h bs (grow h temp) (grown h bs) := by
  have above := good.above
  have top : (grow h temp).alloct = h.brk + temp - 1 := rfl
  have low : ∀ a < h.alloct, (grow h temp).mem a = h.mem a := by
    intro a small
    simp only [grow]
    rw [update_of_ne (by omega), update_of_ne (by omega), update_of_ne (by omega)]
  have gap : (grow h temp).mem h.alloct = link h.brk (decide (h.brk ≠ h.alloct + 1)) := by
    simp only [grow]
    rw [update_of_ne (by omega), update_of_ne (by omega), update_self]
  have new : (grow h temp).mem h.brk = link (h.brk + temp - 1) false := by
    simp only [grow]
    rw [update_of_ne (by omega), update_self]
  have linked : Linked (grow h temp).mem (grow h temp).alloct (grown h bs) := by
    refine (linked_append _ _).mpr ⟨?_, gap, above, new, ?_, trivial⟩
    · exact good.linked.congr fun a inside => low a (good.linked.lt_top inside)
    · change h.brk < h.brk + temp - 1
      omega
  refine ⟨⟨linked, ?_, update_self .., ?_, room⟩, ⟨?_, ?_, ?_, ?_, rfl, rfl⟩⟩
  · rw [grown, start_append]
    exact good.begins
  · change h.brk + temp - 1 < h.brk + temp
    omega
  · intro r inside
    rw [grown, held_append]
    exact mem_append_left _ inside
  · intro a inside
    simp only [OnChain, grown, map_append, map_cons, map_nil, mem_append,
      mem_cons, not_mem_nil, or_false] at inside
    rcases inside with (old | rfl | rfl) | rfl
    · exact .inl old
    · exact .inr le_rfl
    · exact .inr above.le
    · exact .inr (by omega)
  · exact fun a small _ => low a small
  · rw [top]
    omega

variable {nw : ℕ}

/-- The number of words asked for, unless the addresses run out. -/
lemma increment_spec {brk : ℕ} (inside : brk < WORDS) (small : nw ≤ 2 ^ 29 + 1)
    (room : ¬ (brk + increment brk nw) % WORDS < brk) :
    nw ≤ increment brk nw ∧ brk + increment brk nw < WORDS := by
  simp only [increment, WORDS] at *
  omega

lemma increment_room {brk : ℕ} (room : brk + nw + 256 ≤ WORDS) :
    ¬ (brk + increment brk nw) % WORDS < brk ∧ increment brk nw ≤ nw + 255 := by
  simp only [increment, WORDS] at *
  omega

/-- A growth that leaves no gap makes room for the request. -/
lemma not_done_grown {cs : List Block} (good : Good h bs)
    (contiguous : h.brk = h.alloct + 1) (enough : nw ≤ temp) (two : 2 ≤ temp)
    (merge : Merge (grown h bs) cs) : ¬ Done nw (grow h temp).alloct cs := by
  intro done
  have top : (grow h temp).alloct = h.alloct + temp := by
    simp only [grow]
    omega
  have shape : grown h bs = bs ++ [(h.alloct, false), (h.brk, false)] := by
    rw [grown, contiguous]
    simp
  have ends : held cs (grow h temp).alloct = held bs h.alloct := by
    rw [merge.held_eq, shape, held_append]
    exact append_nil _
  have low : ∀ e ∈ (held bs h.alloct).map snd, e ≤ h.alloct := by
    intro e inside
    obtain ⟨r, member, rfl⟩ := mem_map.mp inside
    exact (good.linked.held_apart member).2.2.1
  have some_ : cs ≠ [] := by
    rintro rfl
    have first := merge.head_eq
    cases bs <;> cases first
  rcases done_last done some_ with last | ⟨a, place, short⟩
  · rw [ends] at last
    have := low _ last
    omega
  · have bound : a ≤ h.alloct := by
      rcases place with head | last
      · have here : start cs (grow h temp).alloct = a := by
          cases cs with
          | nil => cases head
          | cons c cs =>
            cases Option.some.inj head
            rfl
        rw [merge.start_eq, shape, start_append] at here
        rw [← here]
        exact good.linked.start_le
      · exact low a (ends ▸ last)
    omega

/-- A growth that leaves a gap keeps the search pointer where it is safe. -/
lemma firm_grown {x : ℕ} (gap : h.brk ≠ h.alloct + 1) {prev : Bool}
    (firm : Firm h.alloct x prev bs) (top : ℕ) : Firm top x prev (grown h bs) := by
  induction bs generalizing prev with
  | nil =>
    cases firm
    exact .inl ⟨rfl, .inr (decide_eq_true gap)⟩
  | cons b bs ih =>
    rcases firm with here | later
    · exact .inl here
    · exact .inr (ih later)

end Growth

/-! ### The block that is found -/

section Found

variable {pre rest : List Block} {p nw : ℕ}

/-- The blocks after `found`: what is left over is a free block. -/
def taken (top : ℕ) (pre : List Block) (p nw : ℕ) (rest : List Block) : List Block :=
  pre ++ (p, true) :: (if p + nw < start rest top then (p + nw, false) :: rest else rest)

lemma allocate_fields (h : Heap) (p q nw : ℕ) : (allocate h p q nw).alloct = h.alloct ∧
    (allocate h p q nw).allocs = h.allocs ∧ (allocate h p q nw).brk = h.brk := by
  simp only [allocate]
  split_ifs <;> exact ⟨rfl, rfl, rfl⟩

lemma allocate_mem (h : Heap) (q : ℕ) {a : ℕ} (other : a ≠ p) (away : a ≠ p + nw ∨ q ≤ p + nw) :
    (allocate h p q nw).mem a = h.mem a := by
  simp only [allocate]
  rw [update_of_ne other]
  split_ifs with split
  · exact update_of_ne (by omega) _ _
  · rfl

lemma good_allocate (good : Good h (pre ++ (p, false) :: rest)) (some_ : 0 < nw)
    (long : p + nw ≤ start rest h.alloct) :
    Good (allocate h p (start rest h.alloct) nw) (taken h.alloct pre p nw rest) := by
  set q := start rest h.alloct with hq
  obtain ⟨front, here, -, behind⟩ := (linked_append _ _).mp good.linked
  obtain ⟨alloct, allocs, brk⟩ := allocate_fields h p q nw
  have high : q ≤ h.alloct := behind.start_le
  have front' : Linked (allocate h p q nw).mem p pre := by
    refine front.congr fun a inside => ?_
    have := front.lt_top inside
    have : a < p := this
    exact allocate_mem h q (by omega) (.inl (by omega))
  have behind' : Linked (allocate h p q nw).mem h.alloct rest := by
    refine behind.congr fun a inside => ?_
    have := behind.start_le_of_mem inside
    exact allocate_mem h q (by omega) (by omega)
  refine ⟨?_, ?_, ?_, ?_, ?_⟩
  · rw [alloct]
    refine (linked_append _ _).mpr ⟨front', ?_⟩
    split_ifs with split
    · refine ⟨?_, by simp; omega, ?_, split, behind'⟩
      · exact update_self ..
      · simp only [allocate, if_pos (show p + nw < q from split)]
        rw [update_of_ne (by omega), update_self]
        exact here
    · have exact_ : q = p + nw := by omega
      refine ⟨?_, by omega, behind'⟩
      simp only [allocate]
      rw [update_self, ← hq, exact_]
  · rw [allocs, taken, start_append]
    have begins := good.begins
    rw [start_append] at begins
    exact begins
  · rw [alloct, allocs]
    have far : h.alloct ≠ p ∧ (h.alloct ≠ p + nw ∨ q ≤ p + nw) := by omega
    rw [allocate_mem h q far.1 far.2]
    exact good.closed
  · rw [alloct, brk]
    exact good.above
  · rw [brk]
    exact good.inside

lemma held_taken (top : ℕ) (pre : List Block) (p nw : ℕ) (rest : List Block)
    (long : p + nw ≤ start rest top) : (p, p + nw) ∈ held (taken top pre p nw rest) top ∧
      ∀ r ∈ held (pre ++ (p, false) :: rest) top, r ∈ held (taken top pre p nw rest) top := by
  have shape : held (taken top pre p nw rest) top = held pre p ++ (p, p + nw) :: held rest top := by
    rw [taken, held_append]
    split_ifs with split
    · rfl
    · have exact_ : start rest top = p + nw := by omega
      simp [held, exact_]
  rw [shape, held_append]
  constructor
  · exact mem_append_right _ mem_cons_self
  · intro r inside
    rcases mem_append.mp inside with front | behind
    · exact mem_append_left _ front
    · exact mem_append_right _ (mem_cons_of_mem _ behind)

lemma allocp_taken (long : p + nw ≤ start rest h.alloct) :
    OnChain (allocate h p (start rest h.alloct) nw) (taken h.alloct pre p nw rest) (p + nw) := by
  rw [OnChain, (allocate_fields ..).1, taken]
  split_ifs with split
  · left
    simp
  · have exact_ : start rest h.alloct = p + nw := by omega
    exact exact_ ▸ onChain_next pre _ rest

end Found

/-! ### malloc -/

section Malloc

variable {nw : ℕ}

/-- The block `p` that was found, in an arena that the old one has become. -/
def FoundIn (nw : ℕ) (h : Heap) (bs : List Block) (h' : Heap) (p : ℕ) : Prop :=
  ∃ g pre rest, Good g (pre ++ (p, false) :: rest) ∧
    Later h bs g (pre ++ (p, false) :: rest) ∧ p + nw ≤ start rest g.alloct ∧
    h' = allocate g p (start rest g.alloct) nw

/-- Nothing was found: the arena is linked, and the search pointer is on it if it was safe. -/
def Missed (h : Heap) (bs : List Block) (h' : Heap) : Prop :=
  ∃ cs, Good h' cs ∧ Later h bs h' cs ∧
    (Firm h.alloct h.allocp true bs → Firm h'.alloct h.allocp true cs)

variable {p : ℕ}

lemma FoundIn.later {g h' : Heap} {cs : List Block} (later : Later h bs g cs)
    (found : FoundIn nw g cs h' p) : FoundIn nw h bs h' p := by
  obtain ⟨k, pre, rest, good, more, long, rfl⟩ := found
  exact ⟨k, pre, rest, good, later.trans more, long, rfl⟩

lemma turn (good : Good h bs) (onto : OnChain h bs p) (small : nw < WORDS) :
    (∃ h' q, (∀ grants, rounds nw grants h p = some (h', some (q + 1))) ∧ FoundIn nw h bs h' q) ∨
    ∃ mem cs, look h.allocs h.alloct nw TURNS h.mem p 0 = some (.around mem) ∧
      Good { h with mem } cs ∧ Later h bs { h with mem } cs ∧ Merge bs cs ∧
      Done nw h.alloct cs := by
  obtain ⟨pre, post, rfl, rfl⟩ : ∃ pre post, bs = pre ++ post ∧ p = start post h.alloct := by
    rcases onto with inside | rfl
    · obtain ⟨b, member, rfl⟩ := mem_map.mp inside
      obtain ⟨pre, post, rfl⟩ := append_of_mem member
      exact ⟨pre, b :: post, rfl, rfl⟩
    · exact ⟨bs, [], (append_nil bs).symm, rfl⟩
  have count := good.linked.length_le
  have above := good.above
  have inside := good.inside
  have enough : (pre ++ post).length + post.length + 1 < TURNS := by
    rw [length_append] at count ⊢
    simp only [TURNS, WORDS] at *
    omega
  have first := look_first good.linked good.begins good.closed (above.trans inside) small enough
  generalize searched : look h.allocs h.alloct nw TURNS h.mem _ 0 = r at first
  cases first with
  | found pre' rest q merge linked off long =>
    refine .inl ⟨_, q, fun grants => ?_, _, pre', rest, good.merge merge linked off,
      .merge merge off, long, rfl⟩
    unfold rounds
    rw [searched]
  | around merge linked off done =>
    exact .inr ⟨_, _, rfl, good.merge merge linked off, .merge merge off, merge, done⟩

lemma rounds_around {mem : Memory}
    (round : look h.allocs h.alloct nw TURNS h.mem p 0 = some (.around mem)) (grants : List Bool) :
    rounds nw grants h p = match grants with
      | [] => some ({ h with mem }, none)
      | granted :: grants =>
        if (h.brk + increment h.brk nw) % WORDS < h.brk ∨ granted = false then
          some ({ h with mem }, none)
        else rounds nw grants (grow { h with mem } (increment h.brk nw)) h.allocs := by
  cases grants with
  | nil => rw [rounds, round]
  | cons granted grants => rw [rounds, round]

lemma onChain_allocs (good : Good h bs) : OnChain h bs h.allocs := by
  rw [← good.begins]
  cases bs with
  | nil => exact .inr rfl
  | cons b bs => exact .inl mem_cons_self

/-- After a growth without a gap the next search succeeds. -/
lemma rounds_grown {temp : ℕ} (good : Good h bs) (contiguous : h.brk = h.alloct + 1)
    (two : 2 ≤ nw) (enough : nw ≤ temp) (room : h.brk + temp < WORDS) (grants : List Bool) :
    ∃ h' q, rounds nw grants (grow h temp) h.allocs = some (h', some (q + 1)) ∧
      FoundIn nw h bs h' q := by
  obtain ⟨good', later⟩ := good_grow good (two.trans enough) room
  rcases turn good' (onChain_allocs good') (show nw < WORDS by omega) with
    ⟨h', q, found, place⟩ | ⟨mem, cs, -, -, -, merge, done⟩
  · exact ⟨h', q, found grants, place.later later⟩
  · exact absurd done (not_done_grown good contiguous enough (two.trans enough) merge)

section

variable (good : Good h bs) (onto : OnChain h bs p) (two : 2 ≤ nw)
include good onto two

lemma rounds_spec (small : nw ≤ 2 ^ 29 + 1) (grants : List Bool) :
    ∃ h' r, rounds nw grants h p = some (h', r) ∧
      ((∃ q, r = some (q + 1) ∧ FoundIn nw h bs h' q) ∨ r = none ∧ Missed h bs h') := by
  induction grants generalizing h bs p with
  | nil =>
    rcases turn good onto (show nw < WORDS by simp only [WORDS]; omega) with
      ⟨h', q, found, place⟩ | ⟨mem, cs, round, good', later, merge, -⟩
    · exact ⟨h', _, found [], .inl ⟨q, rfl, place⟩⟩
    · exact ⟨_, _, rounds_around round [], .inr ⟨rfl, cs, good', later, Firm.merge merge⟩⟩
  | cons granted grants ih =>
    rcases turn good onto (show nw < WORDS by simp only [WORDS]; omega) with
      ⟨h', q, found, place⟩ | ⟨mem, cs, round, good', later, merge, -⟩
    · exact ⟨h', _, found _, .inl ⟨q, rfl, place⟩⟩
    · rw [rounds_around round]
      simp only
      split_ifs with refused
      · exact ⟨_, _, rfl, .inr ⟨rfl, cs, good', later, Firm.merge merge⟩⟩
      · obtain ⟨enough, room⟩ := increment_spec good.inside small fun h => refused (.inl h)
        by_cases contiguous : h.brk = h.alloct + 1
        · obtain ⟨h', q, found, place⟩ := rounds_grown good' contiguous two enough room grants
          exact ⟨h', _, found, .inl ⟨q, rfl, place.later later⟩⟩
        · obtain ⟨good'', later'⟩ := good_grow good' (two.trans enough) room
          obtain ⟨h', -, answer, ⟨q, rfl, place⟩ | ⟨rfl, ds, good₃, later₃, firm⟩⟩ :=
            ih good'' (onChain_allocs good'')
          · exact ⟨h', _, answer, .inl ⟨q, rfl, place.later (later.trans later')⟩⟩
          · refine ⟨h', none, answer, .inr ⟨rfl, ds, good₃, (later.trans later').trans later₃, ?_⟩⟩
            intro safe
            exact firm (firm_grown contiguous (safe.merge merge) _)

/-- Without a gap in front of the break, one growth is enough. -/
lemma rounds_contiguous (small : nw ≤ 2 ^ 29 + 1) (contiguous : h.brk = h.alloct + 1)
    (room : h.brk + nw + 256 ≤ WORDS) (grants : List Bool) :
    ∃ h' q, rounds nw (true :: grants) h p = some (h', some (q + 1)) ∧ FoundIn nw h bs h' q := by
  rcases turn good onto (show nw < WORDS by omega) with
    ⟨h', q, found, place⟩ | ⟨mem, cs, round, good', later, -, -⟩
  · exact ⟨h', q, found _, place⟩
  · obtain ⟨fits, -⟩ := increment_room room
    obtain ⟨enough, space⟩ := increment_spec good.inside small fits
    obtain ⟨h', q, found, place⟩ := rounds_grown good' contiguous two enough space grants
    refine ⟨h', q, ?_, place.later later⟩
    rw [rounds_around round]
    simp only [fits]
    exact found

lemma rounds_granted (room : h.brk + 2 * nw + 512 ≤ WORDS) (grants : List Bool) :
    ∃ h' q, rounds nw (true :: true :: grants) h p = some (h', some (q + 1)) ∧
      FoundIn nw h bs h' q := by
  have small : nw ≤ 2 ^ 29 + 1 := by
    simp only [WORDS] at room
    omega
  rcases turn good onto (show nw < WORDS by omega) with
    ⟨h', q, found, place⟩ | ⟨mem, cs, round, good', later, -, -⟩
  · exact ⟨h', q, found _, place⟩
  · obtain ⟨fits, bound⟩ := increment_room (show h.brk + nw + 256 ≤ WORDS by omega)
    obtain ⟨enough, space⟩ := increment_spec good.inside small fits
    rw [rounds_around round]
    simp only [fits]
    obtain ⟨good'', later'⟩ := good_grow good' (two.trans enough) space
    have ends : (grow { h with mem } (increment h.brk nw)).brk =
        (grow { h with mem } (increment h.brk nw)).alloct + 1 := by
      simp only [grow]
      omega
    obtain ⟨h', q, found, place⟩ := rounds_contiguous good'' (onChain_allocs good'') two small ends
      (show h.brk + increment h.brk nw + nw + 256 ≤ WORDS by omega) grants
    exact ⟨h', q, found, place.later (later.trans later')⟩

end

end Malloc

/-! ### Regions -/

section Regions

variable {live : List (ℕ × ℕ)}

/-- The region lies in a block in use, of which it has the first word behind the link. -/
def Inside (h : Heap) (bs : List Block) (r : ℕ × ℕ) (e : ℕ) : Prop :=
  0 < r.1 ∧ (r.1 - 1, e) ∈ held bs h.alloct ∧ r.1 + (r.2 + 3) / 4 ≤ e

/-- Every region has a block in use of its own. -/
structure Live (h : Heap) (bs : List Block) (live : List (ℕ × ℕ)) : Prop where
  distinct : (live.map Prod.fst).Nodup
  inside : ∀ r ∈ live, ∃ e, Inside h bs r e

variable {a e : ℕ}

lemma Inside.off {r : ℕ × ℕ} (good : Good h bs) (inside : Inside h bs r e)
    (covered : Covers r a) : ¬ OnChain h bs a ∧ a < h.alloct := by
  obtain ⟨pos, member, fits⟩ := inside
  obtain ⟨-, -, high, apart⟩ := good.linked.held_apart member
  obtain ⟨low, up⟩ := covered
  have below : a < h.alloct := by omega
  refine ⟨?_, below⟩
  rintro (link | rfl)
  · have := apart a link
    omega
  · omega

lemma Inside.disjoint {r r' : ℕ × ℕ} {e' : ℕ} (good : Good h bs) (one : Inside h bs r e)
    (two : Inside h bs r' e') (differ : r.1 ≠ r'.1) (covered : Covers r a) : ¬ Covers r' a := by
  intro covered'
  have apart := good.linked.held_disjoint one.2.1 two.2.1 (by have := one.1; have := two.1; omega)
  have := one.2.2
  have := two.2.2
  simp only [Covers] at covered covered'
  omega

lemma header_onChain (good : Good h bs) (header : Header h a) : OnChain h bs a := by
  induction header with
  | first => exact onChain_allocs good
  | next _ below ih =>
    obtain ⟨b, member, rfl⟩ := mem_map.mp (ih.resolve_right below)
    obtain ⟨pre, post, rfl⟩ := append_of_mem member
    have here := ((linked_append _ _).mp good.linked).2
    rw [here.1, target_link]
    exact onChain_next pre b post

lemma apart_of_live {s : State} (good : Good s.heap bs) (live : Live s.heap bs s.live) :
    Apart s := by
  constructor
  · refine List.Pairwise.imp_of_mem ?_ (pairwise_map.mp live.distinct)
    intro r r' one two differ a covered
    obtain ⟨e, inside⟩ := live.inside r one
    obtain ⟨e', inside'⟩ := live.inside r' two
    exact inside.disjoint good inside' differ covered
  · intro r member a covered header
    obtain ⟨e, inside⟩ := live.inside r member
    exact (inside.off good covered).1 (header_onChain good header)

lemma not_held_free {mem : Memory} {top p : ℕ} {pre rest : List Block}
    (linked : Linked mem top (pre ++ (p, false) :: rest)) :
    (p, e) ∉ held (pre ++ (p, false) :: rest) top := by
  intro inside
  obtain ⟨front, -, up, behind⟩ := (linked_append _ _).mp linked
  rw [held_append] at inside
  rcases mem_append.mp inside with before | after
  · exact absurd (front.lt_top (front.held_apart before).1) (lt_irrefl p)
  · exact absurd (behind.start_le_of_mem (behind.held_apart after).1) (not_le.mpr up)

lemma found_live {nw n q : ℕ} {h' : Heap} (words : nw = (n + 3) / 4 + 1) (good : Good h bs)
    (old : Live h bs live) (found : FoundIn nw h bs h' q) :
    ∃ cs, Good h' cs ∧ OnChain h' cs h'.allocp ∧ Live h' cs ((q + 1, n) :: live) ∧
      (q, q + nw) ∈ held cs h'.alloct ∧ ∀ r ∈ live, ∀ a, Covers r a → h'.mem a = h.mem a := by
  obtain ⟨g, pre, rest, good', later, long, rfl⟩ := found
  have after := good_allocate good' (by omega) long
  have alloct := (allocate_fields g q (start rest g.alloct) nw).1
  have allocp : (allocate g q (start rest g.alloct) nw).allocp = q + nw := rfl
  have onto : OnChain (allocate g q (start rest g.alloct) nw) (taken g.alloct pre q nw rest)
      (q + nw) := allocp_taken long
  obtain ⟨new, kept⟩ := held_taken g.alloct pre q nw rest long
  have inside : ∀ r ∈ live, ∃ e, Inside g (pre ++ (q, false) :: rest) r e ∧
      Inside (allocate g q (start rest g.alloct) nw) (taken g.alloct pre q nw rest) r e := by
    intro r member
    obtain ⟨e, pos, block, fits⟩ := old.inside r member
    have mid := later.keeps _ block
    refine ⟨e, ⟨pos, mid, fits⟩, pos, ?_, fits⟩
    rw [alloct]
    exact kept _ mid
  refine ⟨_, after, ?_, ⟨?_, ?_⟩, ?_, ?_⟩
  · exact onto
  · refine nodup_cons.mpr ⟨?_, old.distinct⟩
    intro member
    obtain ⟨r, member, same⟩ := mem_map.mp member
    obtain ⟨e, ⟨-, block, -⟩, -⟩ := inside r member
    rw [same] at block
    exact not_held_free good'.linked block
  · intro r member
    rcases mem_cons.mp member with rfl | member
    · refine ⟨q + nw, Nat.succ_pos q, ?_, ?_⟩
      · rw [alloct]
        exact new
      · simp only
        omega
    · obtain ⟨e, -, now⟩ := inside r member
      exact ⟨e, now⟩
  · rw [alloct]
    exact new
  · intro r member a covered
    obtain ⟨e, mid, now⟩ := inside r member
    obtain ⟨e', first⟩ := old.inside r member
    obtain ⟨away, -⟩ := mid.off good' covered
    obtain ⟨away', -⟩ := now.off after covered
    obtain ⟨away'', low⟩ := first.off good covered
    have notq : a ≠ q := by
      rintro rfl
      exact away (.inl (by simp))
    have notend : a ≠ q + nw := by
      rintro rfl
      exact away' onto
    rw [allocate_mem g _ notq (.inl notend)]
    exact later.off a low fun link => away'' (.inl link)

end Regions

/-! ### The invariant -/

/-- Nothing was called yet, or the arena is linked, with the search pointer and the regions
on it. -/
inductive Inv (s : State) : Prop where
  | fresh (started : Started s)
  | used (bs : List Block) (good : Good s.heap bs) (onto : OnChain s.heap bs s.heap.allocp)
      (live : Live s.heap bs s.live)

lemma Inv.used_of_live (inv : Inv s) {r : ℕ × ℕ} (member : r ∈ s.live) :
    ∃ bs, Good s.heap bs ∧ Live s.heap bs s.live := by
  cases inv with
  | fresh started =>
    rw [started.none] at member
    cases member
  | used bs good _ live => exact ⟨bs, good, live⟩

lemma apart_of_inv (inv : Inv s) : Apart s := by
  cases inv with
  | fresh started =>
    rw [Apart, started.none]
    exact ⟨List.Pairwise.nil, nofun⟩
  | used bs good _ live => exact apart_of_live good live

lemma good_ne_zero (good : Good h bs) : h.mem h.allocs ≠ 0 := by
  have begins := good.begins
  cases bs with
  | nil =>
    have closed := good.closed
    rw [← begins]
    intro zero
    have zero : h.mem h.alloct = 0 := zero
    rw [closed, link, Bool.toNat_true] at zero
    omega
  | cons b bs =>
    obtain ⟨here, up, -⟩ := good.linked
    rw [← begins, start_cons, here, link]
    omega

lemma first_of_good (good : Good h bs) : first h = h := if_neg (good_ne_zero good)

/-- A pointer that is not on a free block behind a free block. -/
lemma firm_of_links {mem : Memory} {top x : ℕ} (linked : Linked mem top bs)
    (onto : x ∈ bs.map fst ∨ x = top) {prev : Bool}
    (before : prev = false → start bs top = x → testbusy (mem x) = true)
    (safe : ∀ a ∈ bs.map fst, mem a = link x false → testbusy (mem x) = true) :
    Firm top x prev bs := by
  induction bs generalizing prev with
  | nil => exact onto.resolve_left nofun
  | cons b bs ih =>
    by_cases here : b.1 = x
    · refine .inl ⟨here, ?_⟩
      cases prev with
      | true => exact .inl rfl
      | false =>
        have busy := before rfl here
        rw [← here, linked.1, testbusy_link] at busy
        exact .inr busy
    · refine .inr (ih linked.2.2 ?_ ?_ fun a inside => safe a (mem_cons_of_mem _ inside))
      · refine onto.imp_left fun inside => ?_
        rcases mem_cons.mp inside with same | inside
        · exact absurd same.symm here
        · exact inside
      · intro free next
        apply safe b.1 mem_cons_self
        rw [linked.1, next, free]

lemma header_of_onChain (good : Good h bs) {a : ℕ} (onto : OnChain h bs a) : Header h a := by
  obtain ⟨linked, begins, -, -, -⟩ := good
  suffices reach : ∀ cs : List Block, Linked h.mem h.alloct cs → Header h (start cs h.alloct) →
      OnChain h cs a → Header h a from reach bs linked (begins ▸ .first) onto
  intro cs
  induction cs with
  | nil =>
    rintro - here (none | rfl)
    · cases none
    · exact here
  | cons c cs ih =>
    intro linked here onto
    have next := Header.next here (linked.lt_top mem_cons_self).ne
    rw [start_cons, linked.1, target_link] at next
    rcases onto with inside | top
    · rcases mem_cons.mp inside with rfl | inside
      · exact here
      · exact ih linked.2.2 next (.inl inside)
    · exact ih linked.2.2 next (.inr top)

lemma first_spec (inv : Inv s) :
    ∃ bs, Good (first s.heap) bs ∧ OnChain (first s.heap) bs (first s.heap).allocp ∧
      Live (first s.heap) bs s.live ∧ (first s.heap).brk = s.heap.brk ∧
      (∀ r ∈ s.live, ∀ a, Covers r a → (first s.heap).mem a = s.heap.mem a) ∧
      (¬ AfterFree s.heap → Firm (first s.heap).alloct (first s.heap).allocp true bs) := by
  cases inv with
  | fresh started =>
    have below := started.below
    have shape : first s.heap = { s.heap with
        mem := update (update s.heap.mem s.heap.allocs
          (link (s.heap.allocs + 1) true)) (s.heap.allocs + 1) (link s.heap.allocs true)
        alloct := s.heap.allocs + 1
        allocp := s.heap.allocs } := if_pos started.zero
    rw [shape, started.none]
    refine ⟨[(s.heap.allocs, true)], ⟨⟨?_, Nat.lt_succ_self _, trivial⟩, rfl, ?_, ?_, ?_⟩,
      .inl mem_cons_self, ⟨nodup_nil, nofun⟩, rfl, nofun, fun _ => .inl ⟨rfl, .inl rfl⟩⟩
    · simp only
      rw [update_of_ne (by omega), update_self]
      rfl
    · exact update_self ..
    · change s.heap.allocs + 1 < s.heap.brk
      omega
    · exact started.inside
  | used bs good onto live =>
    rw [first_of_good good]
    refine ⟨bs, good, onto, live, rfl, fun _ _ _ _ => rfl, fun safe => ?_⟩
    refine firm_of_links good.linked onto (fun free => nomatch free) ?_
    intro a inside next
    by_contra free
    rw [Bool.not_eq_true] at free
    exact safe ⟨good_ne_zero good, free, a, header_of_onChain good (.inl inside), next⟩

/-! ### The steps -/

section Steps

variable {h' : Heap}

lemma words_eq (n : ℕ) : (n + 4 + 4 - 1) / 4 = (n + 3) / 4 + 1 := by omega

/-- `malloc` under its condition: it returns, and all regions are kept. -/
lemma malloc_step (inv : Inv s) {n : ℕ} (size : 0 < n ∧ n < 2 ^ 31) {grants : List Bool}
    (safe : Granted s.heap n grants ∨ ¬ AfterFree s.heap) :
    ∃ h' r, malloc s.heap n grants = some (h', r) ∧
      Inv ⟨h', (r.toList.map fun p => (p, n)) ++ s.live, r⟩ ∧
      ∀ r ∈ s.live, ∀ a, Covers r a → h'.mem a = s.heap.mem a := by
  obtain ⟨bs, good, onto, live, brk, same, firm⟩ := first_spec inv
  have whole : malloc s.heap n grants =
      rounds ((n + 4 + 4 - 1) / 4) grants (first s.heap) (first s.heap).allocp :=
    if_neg (by omega)
  have two : 2 ≤ (n + 4 + 4 - 1) / 4 := by omega
  have small : (n + 4 + 4 - 1) / 4 ≤ 2 ^ 29 + 1 := by omega
  rw [whole]
  obtain ⟨h', r, answer, ⟨q, rfl, found⟩ | ⟨rfl, cs, good', later, stays⟩⟩ :=
    rounds_spec good onto two small grants
  · obtain ⟨cs, good', onto', live', -, kept⟩ := found_live (words_eq n) good live found
    refine ⟨h', _, answer, .used cs good' onto' live', fun r member a covered => ?_⟩
    exact (kept r member a covered).trans (same r member a covered)
  · have safe' : ¬ AfterFree s.heap := by
      refine safe.resolve_left ?_
      rintro ⟨⟨rest, rfl⟩, room⟩
      obtain ⟨h'', q, answer', -⟩ := rounds_granted good onto two (brk ▸ room) rest
      cases answer.symm.trans answer'
    have onto' := (stays (firm safe')).mem
    rw [← later.allocp] at onto'
    have live' : Live h' cs s.live := by
      refine ⟨live.distinct, fun r member => ?_⟩
      obtain ⟨e, pos, block, fits⟩ := live.inside r member
      exact ⟨e, pos, later.keeps _ block, fits⟩
    refine ⟨h', none, answer, .used cs good' onto' live', fun r member a covered => ?_⟩
    obtain ⟨e, inside⟩ := live.inside r member
    obtain ⟨away, low⟩ := inside.off good covered
    exact (later.off a low fun link => away (.inl link)).trans (same r member a covered)

variable {p : ℕ}

/-- The arena after `free`, with the end of the block that is free now. -/
lemma free_spec {bs : List Block} {old : ℕ} (good : Good s.heap bs)
    (live : Live s.heap bs s.live) (member : (p, old) ∈ s.live) :
    ∃ cs e, Good (free s.heap p) cs ∧ OnChain (free s.heap p) cs (free s.heap p).allocp ∧
      Live (free s.heap p) cs (s.live.filter (·.1 ≠ p)) ∧ Inside s.heap bs (p, old) e ∧
      (free s.heap p).mem (p - 1) = link e false ∧
      (∀ a ≠ p - 1, (free s.heap p).mem a = s.heap.mem a) ∧ e ≤ (free s.heap p).alloct ∧
      ∀ a ∈ cs.map fst, a ≤ p - 1 ∨ e ≤ a := by
  obtain ⟨e, inside⟩ := live.inside _ member
  obtain ⟨pos, block, fits⟩ := inside
  obtain ⟨-, -, high, apart⟩ := good.linked.held_apart block
  have shape : free s.heap p = { s.heap with
      allocp := p - 1
      mem := update s.heap.mem (p - 1) (s.heap.mem (p - 1) / 2 * 2) } :=
    if_neg (Nat.pos_iff_ne_zero.mp pos)
  obtain ⟨pre, post, rfl, rfl⟩ := held_split block
  obtain ⟨front, here, up, behind⟩ := (linked_append _ _).mp good.linked
  have cleared : s.heap.mem (p - 1) / 2 * 2 = link (start post s.heap.alloct) false := by
    rw [here, link, link, Bool.toNat_true, Bool.toNat_false]
    omega
  rw [shape, cleared]
  refine ⟨pre ++ (p - 1, false) :: post, start post s.heap.alloct, ⟨?_, ?_, ?_, good.above, good.inside⟩,
    .inl (by simp), ⟨?_, ?_⟩, ⟨pos, block, fits⟩, update_self .., ?_, high, ?_⟩
  · refine (linked_append _ _).mpr ⟨?_, update_self .., up, ?_⟩
    · exact front.update (fun inside => absurd (front.lt_top inside) (lt_irrefl _)) _
    · exact behind.update (fun inside => absurd (behind.start_le_of_mem inside) (not_le.mpr up)) _
  · have begins := good.begins
    rw [start_append] at begins ⊢
    exact begins
  · have far : s.heap.alloct ≠ p - 1 := by omega
    exact (update_of_ne far _ _).trans good.closed
  · exact live.distinct.sublist (filter_sublist.map _)
  · intro r kept
    obtain ⟨kept, other⟩ := mem_filter.mp kept
    obtain ⟨e', pos', block', fits'⟩ := live.inside r kept
    refine ⟨e', pos', ?_, fits'⟩
    rw [held_append] at block' ⊢
    rcases mem_append.mp block' with before | after
    · exact mem_append_left _ before
    · refine mem_append_right _ ?_
      rcases mem_cons.mp after with same | after
      · have equal := congrArg fst same
        simp only [decide_eq_true_eq] at other pos
        omega
      · exact after
  · exact fun a other => update_of_ne other _ _
  · intro a link
    apply apart a
    simpa using link

/-- Words that are no links may change. -/
lemma Good.congr {h : Heap} {cs : List Block} (good : Good h cs) {mem : Memory}
    (same : ∀ a, OnChain h cs a → mem a = h.mem a) : Good { h with mem } cs where
  linked := good.linked.congr fun a inside => same a (.inl inside)
  begins := good.begins
  closed := (same _ (.inr rfl)).trans good.closed
  above := good.above
  inside := good.inside

/-- Copying downwards, or to a place behind. -/
lemma copy_spec (mem : Memory) {t src k : ℕ} (clear : t ≤ src ∨ src + k ≤ t) :
    (∀ i < k, copy mem t src k (t + i) = mem (src + i)) ∧
      ∀ a, (a < t ∨ t + k ≤ a) → copy mem t src k a = mem a := by
  induction k with
  | zero => exact ⟨nofun, fun _ _ => rfl⟩
  | succ k ih =>
    obtain ⟨done, rest⟩ := ih (by omega)
    constructor
    · intro i small
      rw [copy]
      by_cases last : i = k
      · rw [last, update_self]
        exact rest _ (by omega)
      · rw [update_of_ne (by omega)]
        exact done i (by omega)
    · intro a away
      rw [copy, update_of_ne (by omega)]
      exact rest a (by omega)

/-- The words that `realloc` writes, and what it writes there. -/
lemma move_spec (h : Heap) (q p nw onw : ℕ) {k : ℕ} (count : k = if nw < onw then nw else onw)
    (clear : q < p ∨ p + k ≤ q) : (∀ i < k, (move h q p nw onw).mem (q + i) =
      if p + i = q + nw ∧ q < p then h.allocx else h.mem (p + i)) ∧
      ∀ a, (a < q ∨ q + nw ≤ a) → (move h q p nw onw).mem a = h.mem a := by
  have short : k ≤ nw := by
    rw [count]
    split_ifs <;> omega
  obtain ⟨done, rest⟩ := copy_spec h.mem (clear.imp_left le_of_lt)
  simp only [move, ← count]
  constructor
  · intro i small
    split_ifs with down here here
    · rw [show q + i = q + (q + nw - p) by omega, update_self]
    · rw [update_of_ne (by omega)]
      exact done i small
    · omega
    · exact done i small
  · intro a away
    have outside := rest a (by omega)
    split_ifs with down
    · rw [update_of_ne (by omega)]
      exact outside
    · exact outside

/-- What finding a block does to the contents of a block that was freed before. -/
lemma found_contents {f h₂ : Heap} {cs : List Block} {nw q e : ℕ}
    (found : FoundIn nw f cs h₂ q) (pos : 0 < p) (high : e ≤ f.alloct)
    (apart : ∀ a ∈ cs.map fst, a ≤ p - 1 ∨ e ≤ a) :
    (q < p ∨ e ≤ q) ∧ (∀ x, p ≤ x → x < e → x ≠ q + nw → h₂.mem x = f.mem x) ∧
      (p ≤ q + nw → q + nw < e → h₂.allocx = f.mem (q + nw)) := by
  obtain ⟨g, pre, rest, -, later, long, rfl⟩ := found
  have place : ∀ a, OnChain g (pre ++ (q, false) :: rest) a → a < p ∨ e ≤ a := by
    intro a link
    rcases later.fresh a link with old | new
    · have := apart a old
      omega
    · exact .inr (high.trans new)
  have here := place q (.inl (by simp))
  have off : ∀ x, p ≤ x → x < e → g.mem x = f.mem x := by
    intro x low up
    refine later.off x (up.trans_le high) fun link => ?_
    have := apart x link
    omega
  refine ⟨here, fun x low up other => ?_, fun low up => ?_⟩
  · rw [allocate_mem g _ (by omega) (.inl other)]
    exact off x low up
  · have split : q + nw < start rest g.alloct := by
      have := place _ (onChain_next pre _ rest)
      omega
    simp only [allocate, if_pos split]
    exact off _ low up

/-- `realloc` with its growths granted: it returns a block with the old contents, and the
other regions are kept. -/
lemma realloc_step {bs : List Block} (good : Good s.heap bs) (live : Live s.heap bs s.live)
    {n old : ℕ} (size : 0 < n ∧ n < 2 ^ 31) (member : (p, old) ∈ s.live) {grants : List Bool}
    (granted : Granted s.heap n grants) : ∃ h' q, realloc s.heap p n grants = some (h', some q) ∧
      Inv ⟨h', (q, n) :: s.live.filter (·.1 ≠ p), some q⟩ ∧
      (∀ r ∈ s.live, r.1 ≠ p → ∀ a, Covers r a → h'.mem a = s.heap.mem a) ∧
      ∀ i < (min old n + 3) / 4, h'.mem (q + i) = s.heap.mem (p + i) := by
  obtain ⟨cs, e, good₁, onto₁, live₁, ⟨pos, block, fits⟩, cleared, same, high, apart⟩ :=
    free_spec good live member
  obtain ⟨⟨rest, rfl⟩, room⟩ := granted
  have brk : (free s.heap p).brk = s.heap.brk := by rw [free, if_neg (Nat.pos_iff_ne_zero.mp pos)]
  have busy : testbusy (s.heap.mem (p - 1)) = true := by
    obtain ⟨pre, post, rfl, -⟩ := held_split block
    rw [((linked_append _ _).mp good.linked).2.1, testbusy_link]
  have nw : (n + 4 + 4 - 1) / 4 = (n + 3) / 4 + 1 := words_eq n
  obtain ⟨h₂, q, answer, found⟩ := rounds_granted good₁ onto₁ (by omega) (brk ▸ room) rest
  have whole : malloc (free s.heap p) n ([true, true] ++ rest) = some (h₂, some (q + 1)) := by
    rw [malloc, if_neg (by omega), first_of_good good₁]
    exact answer
  obtain ⟨ds, good₂, onto₂, live₂, new, kept⟩ := found_live nw good₁ live₁ found
  obtain ⟨place, stays, saved⟩ := found_contents found pos high apart
  have others : ∀ r ∈ s.live, r.1 ≠ p → ∀ a, Covers r a → h₂.mem a = s.heap.mem a := by
    intro r inside other a covered
    have still : r ∈ s.live.filter (·.1 ≠ p) := mem_filter.mpr ⟨inside, decide_eq_true other⟩
    rw [kept r still a covered]
    obtain ⟨e', inside'⟩ := live.inside r inside
    obtain ⟨off, -⟩ := inside'.off good covered
    apply same
    rintro rfl
    exact off (.inl (good.linked.held_apart block).1)
  have old_words : ∀ i < (min old n + 3) / 4, p + i < e ∧ i < (n + 3) / 4 := by omega
  simp only [realloc, if_neg (Nat.pos_iff_ne_zero.mp pos), busy, if_true, whole, Option.map_some]
  by_cases stay : q + 1 = p
  · rw [if_pos stay]
    refine ⟨h₂, q + 1, rfl, .used ds good₂ onto₂ live₂, others, fun i small => ?_⟩
    obtain ⟨low, short⟩ := old_words i small
    rw [stay, stays _ (by omega) low (by omega)]
    exact same _ (by omega)
  · rw [if_neg stay, cleared, target_link]
    obtain ⟨moved, away⟩ := move_spec h₂ (q + 1) p _ (e - p) rfl (by split_ifs <;> omega)
    refine ⟨_, q + 1, rfl, .used ds ?_ onto₂ ⟨live₂.distinct, live₂.inside⟩, ?_, ?_⟩
    · refine good₂.congr fun a link => away a ?_
      obtain ⟨-, -, top, free⟩ := good₂.linked.held_apart new
      rcases link with inner | rfl
      · have := free a inner
        omega
      · omega
    · intro r inside other a covered
      have still : r ∈ s.live.filter (·.1 ≠ p) := mem_filter.mpr ⟨inside, decide_eq_true other⟩
      have differ : r.1 ≠ q + 1 := by
        intro equal
        exact (nodup_cons.mp live₂.distinct).1 (mem_map.mpr ⟨r, still, equal⟩)
      obtain ⟨e₁, one⟩ := live₂.inside r (mem_cons_of_mem _ still)
      obtain ⟨e₂, two⟩ := live₂.inside _ mem_cons_self
      have clear := one.disjoint good₂ two differ covered
      rw [away a (by simp only [Covers] at clear; omega)]
      exact others r inside other a covered
    · intro i small
      obtain ⟨low, short⟩ := old_words i small
      rw [moved i (by split_ifs <;> omega)]
      split_ifs with here
      · rw [saved (by omega) (by omega), show q + ((n + 4 + 4 - 1) / 4) = p + i by omega]
        exact same _ (by omega)
      · rw [stays (p + i) (by omega) low (by omega)]
        exact same _ (by omega)

end Steps

/-! ### Runs -/

/-- Every call that meets its condition returns, keeps the contents and the invariant. -/
lemma step_spec (inv : Inv s) {act : Act} (allowed : Allowed s act)
    (safe : Safe s act) : ∃ t, Step s act t ∧ Inv t ∧ Keeps s act t := by
  cases act with
  | malloc n grants =>
    obtain ⟨h', r, answer, inv', kept⟩ := malloc_step inv allowed safe
    refine ⟨_, by rw [Step, next, answer]; rfl, inv', fun r old _ a covered => ?_⟩
    exact kept r old a covered
  | realloc p n grants =>
    obtain ⟨size, old, member⟩ := allowed
    obtain ⟨bs, good, live⟩ := inv.used_of_live member
    obtain ⟨h', q, answer, inv', kept, moved⟩ := realloc_step good live size member safe
    refine ⟨_, by rw [Step, next, answer]; rfl, inv', kept, fun old' member' q' same => ?_⟩
    cases Option.some.inj same
    have unique : old' = old := by
      have pair := inj_on_of_nodup_map live.distinct member' member rfl
      exact congrArg snd pair
    rw [unique]
    exact moved
  | free p =>
    obtain ⟨old, member⟩ := allowed
    obtain ⟨bs, good, live⟩ := inv.used_of_live member
    obtain ⟨cs, e, good', onto', live', ⟨-, block, -⟩, -, same, -, -⟩ := free_spec good live member
    refine ⟨_, rfl, .used cs good' onto' live', fun r inside _ a covered => same a ?_⟩
    obtain ⟨e', inside'⟩ := live.inside r inside
    rintro rfl
    exact (inside'.off good covered).1 (.inl (good.linked.held_apart block).1)
  | sbrk k =>
    refine ⟨_, rfl, ?_, fun _ _ _ _ _ => rfl⟩
    cases inv with
    | fresh started =>
      exact .fresh ⟨started.zero, Nat.le_add_right_of_le started.below, allowed, started.none⟩
    | used bs good onto live =>
      refine .used bs ⟨good.linked, good.begins, good.closed, ?_, allowed⟩ onto
        ⟨live.distinct, live.inside⟩
      exact Nat.lt_add_right k good.above
  | store a v =>
    refine ⟨_, rfl, ?_, trivial⟩
    cases inv with
    | fresh started =>
      refine .fresh ⟨?_, started.below, started.inside, started.none⟩
      have other : s.heap.allocs ≠ a := fun same => allowed (same ▸ .first)
      exact (update_of_ne other _ _).trans started.zero
    | used bs good onto live =>
      refine .used bs (good.congr fun b link => ?_) onto ⟨live.distinct, live.inside⟩
      apply update_of_ne
      rintro rfl
      exact allowed (header_of_onChain good link)

/-- In every run in which no `malloc` fails from a free block behind a free block and no
`realloc` fails, the regions stay apart from each other and from the links, and the next call
returns and keeps the contents. -/
theorem allocator_keeps_apart {s t : State} {acts : List Act} (started : Started s)
    (run : Run Step (fun s act => Allowed s act ∧ Safe s act) s acts t) :
    Apart t ∧ ∀ act, Allowed t act → Safe t act →
      (∃ u, Step t act u) ∧ ∀ u, Step t act u → Keeps t act u := by
  have inv : Inv t := by
    refine run_invariant Inv ?_ run (.fresh started)
    rintro s act t inv ⟨allowed, safe⟩ step
    obtain ⟨u, step', inv', -⟩ := step_spec inv allowed safe
    cases Option.some.inj (step.symm.trans step')
    exact inv'
  refine ⟨apart_of_inv inv, fun act allowed safe => ?_⟩
  obtain ⟨u, step, -, keeps⟩ := step_spec inv allowed safe
  refine ⟨⟨u, step⟩, fun v other => ?_⟩
  cases Option.some.inj (other.symm.trans step)
  exact keeps

/-- A program before its first call, with the static array at word 1. -/
def fresh : State := ⟨⟨fun _ => 0, 1, 0, 0, 0, 256⟩, [], none⟩

lemma fresh_started : Started fresh := ⟨rfl, by decide, by decide, rfl⟩

theorem allocator_keeps_apart_first_call :
    ∃ t, Run Step (fun s act => Allowed s act ∧ Safe s act) fresh [.malloc 8 [true, true]] t ∧
      Apart t ∧ ∀ act, Allowed t act → Safe t act →
        (∃ u, Step t act u) ∧ ∀ u, Step t act u → Keeps t act u := by
  have allowed : Allowed fresh (.malloc 8 [true, true]) := by constructor <;> decide
  have safe : Safe fresh (.malloc 8 [true, true]) := by refine .inl ⟨⟨[], rfl⟩, by decide⟩
  obtain ⟨t, step, -, -⟩ := step_spec (.fresh fresh_started) allowed safe
  have run : Run Step (fun s act => Allowed s act ∧ Safe s act) fresh [.malloc 8 [true, true]] t :=
    .cons ⟨allowed, safe⟩ step (.nil t)
  exact ⟨t, run, allocator_keeps_apart fresh_started run⟩

/-- Requests and releases, with what makes them allowed. -/
def plain (s : State) : Act → Bool
  | .malloc n _ => decide (0 < n ∧ n < 2 ^ 31)
  | .free p => decide (p ∈ s.live.map Prod.fst)
  | _ => false

lemma allowed_of_plain {act : Act} (ok : plain s act = true) : Allowed s act := by
  cases act with
  | malloc n grants =>
    have size : 0 < n ∧ n < 2 ^ 31 := of_decide_eq_true ok
    exact size
  | free p =>
    obtain ⟨⟨q, old⟩, member, rfl⟩ := mem_map.mp (of_decide_eq_true ok)
    exact ⟨old, member⟩
  | realloc | sbrk | store => cases ok

/-- Three blocks that fill the arena; the first two are freed, and a request fails. The search
pointer is then inside the joined block, of which the next request gets the second half; the
last request gets the front of the joined block and a part of that half. -/
def overlap : List Act :=
  [.malloc 8 [true, true], .malloc 8 [], .malloc 992 [], .free 257, .free 260, .malloc 100 [],
    .malloc 8 [], .malloc 16 []]

lemma overlap_live : (follow next (fun s act => plain s act = true) fresh overlap).map State.live =
      some [(257, 16), (260, 8), (263, 992)] := by
  decide +kernel

theorem joined_block_handed_out_twice :
    Started fresh ∧ ∃ t, Run Step Allowed fresh overlap t ∧ ¬ Apart t := by
  obtain ⟨t, done, live⟩ := Option.map_eq_some_iff.mp overlap_live
  refine ⟨fresh_started, t, ?_, ?_⟩
  · exact Run.mono (fun _ _ => allowed_of_plain) (run_of_follow done)
  · rintro ⟨apart, -⟩
    rw [live] at apart
    exact (pairwise_cons.mp apart).1 _ mem_cons_self 260 (by decide) (by decide)

end Allocator
