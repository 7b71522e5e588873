import RetroBSD.Allocator

/-!
# The search for a block

On blocks that are linked up to the top, the search finds a free block that is long enough
or comes round; on its way it only joins free blocks, and when it has come round no free
block is long enough or stands in front of another.
-/

namespace Allocator

open Arenas List Prod
open Function (update update_of_ne update_self update_eq_self update_idem)

variable {mem : Memory} {top nw : ℕ}

lemma look_found {allocs q fuel temp e : ℕ} {mem' : Memory} (got : fits nw mem q = some (mem', some e)) :
    look allocs top nw (fuel + 1) mem q temp = some (.found mem' q e) := by
  rw [look, got]

/-- No free block is long enough, and none has a free block behind it. -/
def Done (nw top : ℕ) : List Block → Prop
  | [] => True
  | b :: bs => (b.2 = false → start bs top < b.1 + nw ∧ ∀ c ∈ bs.head?, c.2 = true) ∧ Done nw top bs

/-- Words that are no links are left alone. -/
def Off (bs : List Block) (mem mem' : Memory) : Prop := ∀ a ∉ bs.map Prod.fst, mem' a = mem a

inductive Searched (nw top : ℕ) (bs : List Block) (mem : Memory) : Option Look → Prop where
  | found {mem' : Memory} (pre rest : List Block) (p : ℕ)
      (merge : Merge bs (pre ++ (p, false) :: rest))
      (linked : Linked mem' top (pre ++ (p, false) :: rest)) (off : Off bs mem mem')
      (long : p + nw ≤ start rest top) : Searched nw top bs mem (some (.found mem' p (start rest top)))
  | around {mem' : Memory} {cs : List Block} (merge : Merge bs cs) (linked : Linked mem' top cs)
      (off : Off bs mem mem') (done : Done nw top cs) : Searched nw top bs mem (some (.around mem'))

namespace Searched

variable {mem' : Memory} {bs cs : List Block} {r : Option Look}

lemma trans (merge : Merge bs cs) (off : Off bs mem mem') (rest : Searched nw top cs mem' r) :
    Searched nw top bs mem r := by
  have both {mem'' : Memory} (later : Off cs mem' mem'') : Off bs mem mem'' := fun a away =>
    (later a fun inside => away (merge.subset inside)).trans (off a away)
  cases rest with
  | found pre rest p m linked later long =>
    exact .found pre rest p (merge.trans m) linked (both later) long
  | around m linked later done => exact .around (merge.trans m) linked (both later) done

/-- A block in front that is passed by. -/
lemma cons {b : Block} (linked : Linked mem top (b :: bs))
    (passed : b.2 = false → start bs top < b.1 + nw ∧ ∀ c ∈ bs.head?, c.2 = true)
    (rest : Searched nw top bs mem r) : Searched nw top (b :: bs) mem r := by
  have outside : b.1 ∉ bs.map fst := fun inside =>
    absurd (linked.2.2.start_le_of_mem inside) (not_le.mpr linked.2.1)
  have back {mem' : Memory} {cs : List Block} (merge : Merge bs cs) (later : Linked mem' top cs)
      (off : Off bs mem mem') : Linked mem' top (b :: cs) := by
    refine ⟨?_, ?_, later⟩
    · rw [off b.1 outside, merge.start_eq]
      exact linked.1
    · rw [merge.start_eq]
      exact linked.2.1
  have wider {mem' : Memory} (off : Off bs mem mem') : Off (b :: bs) mem mem' :=
    fun a away => off a fun inside => away (mem_cons_of_mem _ inside)
  cases rest with
  | found pre rest p merge later off long =>
    exact .found (b :: pre) rest p (merge.cons b) (back merge later off) (wider off) long
  | around merge later off done =>
    refine .around (merge.cons b) (back merge later off) (wider off) ⟨?_, done⟩
    rw [merge.start_eq, merge.head_eq]
    exact passed

end Searched

variable {bs : List Block} {p : ℕ}

/-- The free block at `p` takes in the free blocks behind it. -/
lemma coalesce_spec (linked : Linked mem top ((p, false) :: bs))
    (closed : testbusy (mem top) = true) {fuel : ℕ} (enough : bs.length < fuel) :
    ∃ frees rest, bs = frees ++ rest ∧ (∀ b ∈ frees, b.2 = false) ∧ (∀ b ∈ rest.head?, b.2 = true) ∧
      coalesce fuel mem p = some (update mem p (link (start rest top) false), start rest top) := by
  obtain ⟨fuel, rfl⟩ : ∃ k, fuel = k + 1 := ⟨fuel - 1, by omega⟩
  have here : update mem p (link (start bs top) false) = mem := by
    rw [← linked.1]
    exact update_eq_self p mem
  have there : target (mem p) = start bs top := by rw [linked.1, target_link]
  induction bs generalizing mem fuel with
  | nil =>
    refine ⟨[], [], rfl, nofun, nofun, ?_⟩
    rw [coalesce, there, here]
    exact if_pos closed
  | cons b bs ih =>
    have next := linked.2.2.1
    cases busy : b.2 with
    | true =>
      refine ⟨[], b :: bs, rfl, nofun, ?_, ?_⟩
      · rintro c same
        cases Option.some.inj same
        exact busy
      · rw [coalesce, there, here]
        exact if_pos (by rw [start, next, testbusy_link, busy])
    | false =>
      have low : p < b.1 := linked.2.1
      have joined : Linked (update mem p (mem b.1)) top ((p, false) :: bs) := by
        refine ⟨?_, low.trans linked.2.2.2.1, ?_⟩
        · rw [update_self, next, busy]
        · apply linked.2.2.2.2.update
          intro inside
          have := linked.2.2.2.2.start_le_of_mem inside
          have := linked.2.2.2.1
          omega
      have high : top ≠ p := by
        have := linked.2.2.start_le
        have : b.1 ≤ top := this
        omega
      rw [length_cons] at enough
      obtain ⟨fuel, rfl⟩ : ∃ k, fuel = k + 1 := ⟨fuel - 1, by omega⟩
      obtain ⟨frees, rest, shape, free, stop, done⟩ :=
        ih joined (by rw [update_of_ne high]; exact closed) fuel (by omega)
          (by rw [← joined.1]; exact update_eq_self _ _) (by rw [joined.1, target_link])
      refine ⟨b :: frees, rest, by rw [shape]; rfl, ?_, stop, ?_⟩
      · intro c inside
        rcases mem_cons.mp inside with rfl | inside
        · exact busy
        · exact free c inside
      · rw [coalesce, there]
        have open_ : testbusy (mem (start (b :: bs) top)) = false := by
          rw [start_cons, next, testbusy_link, busy]
        simp only [open_]
        rw [if_neg (by decide), start_cons, done, update_idem]

lemma fits_busy {b : Block} (linked : Linked mem top (b :: bs))
    (busy : b.2 = true) : fits nw mem b.1 = some (mem, none) := by
  rw [fits, linked.1, testbusy_link, busy]
  rfl

/-- A free block is joined with those behind it and measured. -/
lemma fits_free (linked : Linked mem top ((p, false) :: bs))
    (closed : testbusy (mem top) = true) (inside : top < WORDS) (small : nw < WORDS) :
    ∃ frees rest, bs = frees ++ rest ∧ (∀ b ∈ frees, b.2 = false) ∧ (∀ b ∈ rest.head?, b.2 = true) ∧
      fits nw mem p = some (update mem p (link (start rest top) false),
        if p + nw ≤ start rest top then some (start rest top) else none) := by
  have count := linked.length_le
  rw [length_cons] at count
  obtain ⟨frees, rest, shape, free, stop, done⟩ :=
    coalesce_spec linked closed (show bs.length < TURNS by simp only [TURNS, WORDS] at *; omega)
  refine ⟨frees, rest, shape, free, stop, ?_⟩
  have high : start rest top ≤ top := by
    have behind := linked.2.2
    rw [shape, linked_append] at behind
    exact behind.2.start_le
  have measured : ((p + nw) % WORDS ≤ start rest top ∧ p ≤ (p + nw) % WORDS) ↔
      p + nw ≤ start rest top := by
    simp only [WORDS] at *
    omega
  rw [fits, linked.1, done]
  simp [measured]

/-- The links after the blocks behind `p` have been joined with it. -/
lemma linked_joined {pre frees rest : List Block}
    (linked : Linked mem top (pre ++ (p, false) :: (frees ++ rest))) :
    Linked (update mem p (link (start rest top) false)) top (pre ++ (p, false) :: rest) := by
  obtain ⟨front, low, behind⟩ := (linked_append _ _).mp linked |>.imp_right And.right
  have joined := ((linked_append _ _).mp behind).2
  have skip : start (frees ++ rest) top ≤ start rest top := by
    rw [start_append]
    exact ((linked_append _ _).mp behind).1.start_le
  refine (linked_append _ _).mpr ⟨?_, ?_, low.trans_le skip, ?_⟩
  · apply front.update
    intro inside
    exact absurd (front.lt_top inside) (lt_irrefl p)
  · exact update_self ..
  · apply joined.update
    intro inside
    exact absurd (joined.start_le_of_mem inside) (not_le.mpr (low.trans_le skip))

lemma off_update (inside : p ∈ bs.map fst) (v : ℕ) : Off bs mem (update mem p v) :=
  fun a away => update_of_ne (fun same : a = p => away (same ▸ inside)) _ _

section Look

variable {allocs : ℕ} {mem' : Memory} {p q fuel temp : ℕ}

lemma look_pass (passed : fits nw mem q = some (mem', none)) (next : target (mem' q) = p)
    (up : q < p) : look allocs top nw (fuel + 1) mem q temp = look allocs top nw fuel mem' p temp := by
  rw [look, passed]
  simp [next, if_pos up]

lemma look_top (closed : mem top = link allocs true) (below : allocs ≤ top) :
    look allocs top nw (fuel + 1) mem top temp =
      if 1 < temp + 1 then some (.around mem) else look allocs top nw fuel mem allocs (temp + 1) := by
  have passed : fits nw mem top = some (mem, none) := by
    rw [fits, closed, testbusy_link]
    rfl
  rw [look, passed]
  simp [closed, not_lt.mpr below]

/-- What the search does at a free block: it ends there, or goes on behind the joined block. -/
lemma look_free {pre bs : List Block} (linked : Linked mem top (pre ++ (p, false) :: bs))
    (closed : testbusy (mem top) = true) (inside : top < WORDS) (small : nw < WORDS) :
    (∃ mem' rest, look allocs top nw (fuel + 1) mem p temp = some (.found mem' p (start rest top)) ∧
      Merge (pre ++ (p, false) :: bs) (pre ++ (p, false) :: rest) ∧
      Linked mem' top (pre ++ (p, false) :: rest) ∧ Off (pre ++ (p, false) :: bs) mem mem' ∧
      p + nw ≤ start rest top) ∨
    ∃ mem' rest, look allocs top nw (fuel + 1) mem p temp =
        look allocs top nw fuel mem' (start rest top) temp ∧
      Merge (pre ++ (p, false) :: bs) (pre ++ (p, false) :: rest) ∧
      Linked mem' top (pre ++ (p, false) :: rest) ∧ Off (pre ++ (p, false) :: bs) mem mem' ∧
      rest.length ≤ bs.length ∧ mem' top = mem top ∧
      start rest top < p + nw ∧ ∀ c ∈ rest.head?, c.2 = true := by
  have here := ((linked_append _ _).mp linked).2
  obtain ⟨frees, rest, rfl, free, stop, done⟩ := fits_free here closed inside small
  have merge := (Merge.joinAll p free (.refl rest)).append_left pre
  have joined := linked_joined linked
  have off : Off (pre ++ (p, false) :: (frees ++ rest)) mem
      (update mem p (link (start rest top) false)) := off_update (by simp) _
  split_ifs at done with long
  · exact .inl ⟨_, rest, look_found done, merge, joined, off, long⟩
  · have up := ((linked_append _ _).mp joined).2.2.1
    refine .inr ⟨_, rest, ?_, merge, joined, off, ?_, ?_, not_le.mp long, stop⟩
    · exact look_pass done (by rw [update_self, target_link]) up
    · simp
    · have low : p < top := here.lt_top mem_cons_self
      exact update_of_ne low.ne' _ _

lemma look_last {bs : List Block} (linked : Linked mem top bs)
    (closed : mem top = link allocs true) (below : allocs ≤ top) (inside : top < WORDS)
    (small : nw < WORDS) (enough : bs.length < fuel) :
    Searched nw top bs mem (look allocs top nw fuel mem (start bs top) 1) := by
  induction fuel generalizing bs mem with
  | zero => exact absurd enough (Nat.not_lt_zero _)
  | succ fuel ih =>
    cases bs with
    | nil =>
      rw [start, look_top closed below]
      exact .around (.refl []) linked (fun _ _ => rfl) trivial
    | cons b bs =>
      rw [length_cons] at enough
      obtain ⟨a, busy⟩ := b
      cases busy with
      | true =>
        have next : target (mem a) = start bs top := by rw [linked.1, target_link]
        rw [start_cons, look_pass (fits_busy linked rfl) next linked.2.1]
        exact .cons linked (by simp) (ih linked.2.2 closed (by omega))
      | false =>
        have end_ : testbusy (mem top) = true := by rw [closed, testbusy_link]
        have whole : Linked mem top ([] ++ (a, false) :: bs) := linked
        rcases look_free whole end_ inside small with
          ⟨mem', rest, found, merge, joined, off, long⟩ |
          ⟨mem', rest, passed, merge, joined, off, shorter, same, short, stop⟩
        · rw [start_cons, found]
          exact .found [] rest a merge joined off long
        · rw [start_cons, passed]
          exact .trans merge off
            (.cons joined (fun _ => ⟨short, stop⟩) (ih joined.2.2 (same.trans closed) (by omega)))

/-- The whole search, from a block on the way. -/
lemma look_first {pre post : List Block} (linked : Linked mem top (pre ++ post))
    (begins : start (pre ++ post) top = allocs)
    (closed : mem top = link allocs true) (inside : top < WORDS)
    (small : nw < WORDS) (enough : (pre ++ post).length + post.length + 1 < fuel) :
    Searched nw top (pre ++ post) mem (look allocs top nw fuel mem (start post top) 0) := by
  have below : allocs ≤ top := begins ▸ linked.start_le
  induction fuel generalizing pre post mem with
  | zero => exact absurd enough (Nat.not_lt_zero _)
  | succ fuel ih =>
    cases post with
    | nil =>
      rw [start, look_top closed below, ← begins]
      rw [← begins] at closed
      exact look_last linked closed (begins ▸ below) inside small (by omega)
    | cons b post =>
      obtain ⟨a, busy⟩ := b
      have behind := ((linked_append _ _).mp linked).2
      simp only [length_append, length_cons] at enough
      have shift : ∀ bs, pre ++ (a, busy) :: bs = (pre ++ [(a, busy)]) ++ bs := by simp
      cases busy with
      | true =>
        have next : target (mem a) = start post top := by rw [behind.1, target_link]
        rw [start_cons, look_pass (fits_busy behind rfl) next behind.2.1]
        rw [shift] at linked begins ⊢
        exact ih linked begins closed (by simp; omega)
      | false =>
        have end_ : testbusy (mem top) = true := by rw [closed, testbusy_link]
        rcases look_free linked end_ inside small with
          ⟨mem', rest, found, merge, joined, off, long⟩ |
          ⟨mem', rest, passed, merge, joined, off, shorter, same, -, -⟩
        · rw [start_cons, found]
          exact .found pre rest a merge joined off long
        · rw [start_cons, passed]
          refine .trans merge off ?_
          have begins' : start (pre ++ (a, false) :: rest) top = allocs :=
            (merge.start_eq top).trans begins
          rw [shift] at joined begins' ⊢
          exact ih joined begins' (same.trans closed) (by simp; omega)

end Look

/-! ### Where nothing was found -/

/-- When nothing is long enough, the top is close to the last block in use or to the first
block, or it ends a block in use. -/
lemma done_last (done : Done nw top bs) (some_ : bs ≠ []) : top ∈ (held bs top).map snd ∨
      ∃ h, ((h, false) ∈ bs.head? ∨ h ∈ (held bs top).map snd) ∧ top < h + nw := by
  induction bs with
  | nil => exact absurd rfl some_
  | cons b bs ih =>
    obtain ⟨a, busy⟩ := b
    have more : ∀ e ∈ (held bs top).map snd, e ∈ (held ((a, busy) :: bs) top).map snd := by
      intro e inside
      cases busy
      · exact inside
      · exact mem_cons_of_mem _ inside
    cases bs with
    | nil =>
      cases busy with
      | true => exact .inl mem_cons_self
      | false => exact .inr ⟨a, .inl rfl, (done.1 rfl).1⟩
    | cons c bs =>
      rcases ih done.2 nofun with ends | ⟨h, place, short⟩
      · exact .inl (more top ends)
      · refine .inr ⟨h, ?_, short⟩
        rcases place with first | ends
        · cases Option.some.inj first
          cases busy with
          | true => exact .inr mem_cons_self
          | false => exact absurd ((done.1 rfl).2 _ rfl) Bool.false_ne_true
        · exact .inr (more h ends)

end Allocator
