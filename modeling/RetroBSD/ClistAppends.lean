import RetroBSD.ClistBlocks

/-!
# The end of a character list

`putc` and `b_to_q` take a block when the last one is full, so that between the
two the last block may be empty. `unputc` finds the block before the last one by a
walk from the first.
-/

namespace Clists

open BlockChains List
open Function (update update_of_ne update_self update_eq_self)

variable {Q : Type}

/-- The free blocks and one list to which characters are being added: its last
block may be empty. -/
structure Open (s : State Q) (c : Clist) (fs bs : List ℕ) (o : ℕ) (bytes : List Byte) :
    Prop where
  distinct : (fs ++ bs).Nodup
  positive : ∀ x ∈ fs ++ bs, 0 < x
  free : Free s fs
  window : Window s.c_next c bs o
  denotes : bytes = contents s.c_info bs o c.c_cc

section Memory

variable {info : ℕ → Byte} {init : List ℕ} {l o n r cp : ℕ} {data : List Byte}

lemma cells_snoc (init : List ℕ) (l : ℕ) :
    cells (init ++ [l]) = cells init ++ (List.range CBSIZE).map fun i => CBLOCK * l + 4 + i := by
  rw [cells_append]
  exact congrArg _ (append_nil _)

/-- The cells before number `r` of the last block. -/
lemma cells_take (small : r ≤ CBSIZE) : (cells (init ++ [l])).take (CBSIZE * init.length + r) =
      cells init ++ (List.range r).map fun i => CBLOCK * l + 4 + i := by
  rw [cells_snoc, take_append, length_cells, take_of_length_le (by simp),
    Nat.add_sub_cancel_left, ← map_take, take_range, Nat.min_eq_left small]

lemma cells_drop (init : List ℕ) (l r : ℕ) : (cells (init ++ [l])).drop (CBSIZE * init.length + r) =
      ((List.range CBSIZE).map fun i => CBLOCK * l + 4 + i).drop r := by
  rw [cells_snoc, drop_append, length_cells, drop_eq_nil_of_le (by simp),
    Nat.add_sub_cancel_left, nil_append]

/-- Storing after the last character leaves the others alone. -/
lemma contents_store_before (s : State Q) (nodup : (init ++ [l]).Nodup)
    (total : o + n = CBSIZE * init.length + r) (room : r + data.length ≤ CBSIZE) :
    contents (s.store (CBLOCK * l + 4 + r) data).c_info (init ++ [l]) o n =
      contents s.c_info (init ++ [l]) o n := by
  apply map_congr_left
  intro a member
  apply if_neg
  rintro ⟨above, below⟩
  rw [take_drop, total, cells_take (by omega)] at member
  rcases mem_append.mp (mem_of_mem_drop member) with early | late
  · have block : a / CBLOCK = l := by
      simp only [CBLOCK, CBSIZE] at *
      omega
    have inside := block_of_cell early
    rw [block] at inside
    exact (nodup_append.mp nodup).2.2 l inside l (mem_singleton.mpr rfl) rfl
  · obtain ⟨i, small, rfl⟩ := mem_map.mp late
    have := mem_range.mp small
    omega

lemma contents_store_after (s : State Q) (total : o + n = CBSIZE * init.length + r)
    (room : r + data.length ≤ CBSIZE) :
    contents (s.store (CBLOCK * l + 4 + r) data).c_info (init ++ [l]) (o + n) data.length =
      data := by
  rw [contents, total, cells_drop]
  apply ext_getElem
  · simp
    omega
  · intro i _ bound
    simp only [State.store, getElem_map, getElem_take, getElem_drop, getElem_range]
    have offset : CBLOCK * l + 4 + (r + i) - (CBLOCK * l + 4 + r) = i := by omega
    rw [if_pos (by omega), offset, getD_eq_getElem?_getD, getElem?_eq_getElem bound,
      Option.getD_some]

lemma contents_snoc {bs : List ℕ} (fits : o + n ≤ CBSIZE * bs.length) (b : ℕ) :
    contents info (bs ++ [b]) o n = contents info bs o n := by
  have short : n ≤ ((cells bs).drop o).length := by
    rw [length_drop, length_cells]
    omega
  rw [contents, contents, cells_append, drop_append_of_le_length (by rw [length_cells]; omega),
    take_append_of_le_length short]

end Memory

section Growth

variable {s : State Q} {c : Clist} {fs bs init : List ℕ} {f l o r : ℕ} {bytes data : List Byte}

lemma Local.toOpen (h : Local s c fs bs o bytes) (some : 0 < c.c_cc) : Open s c fs bs o bytes := by
  obtain ⟨window, _, denotes⟩ := h.nonempty some
  exact ⟨h.distinct, h.positive, h.free, window, denotes⟩

lemma Open.toLocal (h : Open s c fs bs o bytes) (some : 0 < c.c_cc)
    (strict : CBSIZE * (bs.length - 1) < o + c.c_cc) : Local s c fs bs o bytes :=
  ⟨h.distinct, h.positive, h.free, .inr ⟨h.window, some, strict, h.denotes⟩⟩

lemma Open.fill (h : Open s c fs (init ++ [l]) o bytes) (q : Q) (data : List Byte)
    (total : o + c.c_cc = CBSIZE * init.length + r) (last : c.c_cl = CBLOCK * l + 4 + r)
    (room : r + data.length ≤ CBSIZE) :
    Moved s (s.store c.c_cl data) q fs (init ++ [l]) fs (init ++ [l]) ∧
    Open (s.store c.c_cl data) ⟨c.c_cc + data.length, c.c_cf, c.c_cl + data.length⟩ fs
      (init ++ [l]) o (bytes ++ data) := by
  have nodup := (nodup_append.mp h.distinct).2.1
  constructor
  · refine ⟨List.Perm.refl _, ?_⟩
    rw [last]
    exact Confined.store s q (by simp) data room
  · refine ⟨h.distinct, h.positive, ⟨h.free.head, h.free.chain, h.free.count⟩, ?_, ?_⟩
    · refine ⟨h.window.chain, h.window.low, h.window.first, init, l, r + data.length, rfl, room, ?_, ?_⟩
      · simp only
        omega
      · simp only [last]
        omega
    · simp only
      rw [contents_add, last, contents_store_before s nodup total room,
        contents_store_after s total room, ← h.denotes]

lemma allocate_free (free : Free s (f :: fs)) (fresh : f ∉ fs) : Free s.allocate fs := by
  have head : s.cfreelist = f := free.head
  refine ⟨?_, ?_, ?_⟩
  · simp only [State.allocate, head]
    exact free.chain.1
  · apply free.chain.2.congr
    intro x member
    simp only [State.allocate, head]
    exact update_of_ne (ne_of_mem_of_not_mem member fresh) _ _
  · simp only [State.allocate, free.count, length_cons]
    push_cast
    omega

/-- The end of a list whose last block is full. -/
lemma Open.full_end (h : Open s c fs bs o bytes) (full : c.c_cl % CBLOCK = 0) :
    ∃ init l, bs = init ++ [l] ∧ c.c_cl / CBLOCK - 1 = l ∧ o + c.c_cc = CBSIZE * (init.length + 1) := by
  obtain ⟨init, l, r, rfl, bound, total, last⟩ := h.window.last
  refine ⟨init, l, rfl, ?_⟩
  simp only [CBLOCK, CBSIZE] at *
  omega

/-- A full last block is followed by a new one. -/
lemma Open.grow (h : Open s c (f :: fs) bs o bytes) (q : Q) (full : c.c_cl % CBLOCK = 0) :
    Moved s (s.link (c.c_cl / CBLOCK - 1) s.cfreelist).allocate q (f :: fs) bs fs (bs ++ [f]) ∧
    Open (s.link (c.c_cl / CBLOCK - 1) s.cfreelist).allocate ⟨c.c_cc, c.c_cf, CBLOCK * f + 4⟩ fs
      (bs ++ [f]) o bytes := by
  obtain ⟨init, l, rfl, block, total⟩ := h.full_end full
  have head : s.cfreelist = f := h.free.head
  have perm : (fs ++ (init ++ [l] ++ [f])).Perm (f :: fs ++ (init ++ [l])) := by
    rw [← append_assoc]
    exact perm_append_singleton f _
  obtain ⟨frees, chains, apart⟩ := nodup_append.mp h.distinct
  have fresh := (nodup_cons.mp frees).1
  have notMem : f ∉ init ++ [l] := fun member => apart f mem_cons_self f member rfl
  have other : l ∉ f :: fs := fun member => apart l member l (by simp) rfl
  have linked : Free (s.link l f) (f :: fs) := by
    refine ⟨head, ?_, h.free.count⟩
    apply h.free.chain.congr
    intro x member
    exact update_of_ne (ne_of_mem_of_not_mem member other) _ _
  have links : (s.link l f).allocate.c_next = update (update s.c_next l f) f 0 := by
    simp [State.link, State.allocate, head]
  rw [block, head]
  constructor
  · refine ⟨perm, ?_⟩
    have first : Confined s (s.link l f) q (f :: fs ++ (init ++ [l])) :=
      Confined.link s q (by simp) f
    have second : Confined (s.link l f) (s.link l f).allocate q (f :: fs ++ (init ++ [l])) :=
      Confined.allocate _ q (by simp [State.link, head])
    exact first.trans second (List.Perm.refl _)
  · refine ⟨perm.nodup_iff.mpr h.distinct, fun x member => h.positive x (perm.mem_iff.mp member),
      allocate_free linked fresh, ?_, ?_⟩
    · refine ⟨?_, h.window.low, ?_, init ++ [l], f, 0, rfl, by simp, by simpa using total, rfl⟩
      · rw [links]
        exact h.window.chain.snoc notMem chains
      · obtain ⟨b, rest, split, first⟩ := h.window.first
        exact ⟨b, rest ++ [f], by rw [split]; rfl, first⟩
    · exact h.denotes.trans (contents_snoc h.window.fits f).symm

lemma Local.begin (h : Local s .null (f :: fs) [] o []) (q : Q) :
    Moved s s.allocate q (f :: fs) [] fs [f] ∧
    Open s.allocate ⟨0, CBLOCK * f + 4, CBLOCK * f + 4⟩ fs [f] 0 [] := by
  have head : s.cfreelist = f := h.free.head
  have perm : (fs ++ [f]).Perm (f :: fs ++ []) := by
    rw [append_nil]
    exact perm_append_singleton f fs
  have fresh : f ∉ fs := (nodup_cons.mp (nodup_append.mp h.distinct).1).1
  constructor
  · exact ⟨perm, Confined.allocate s q (by simp [head])⟩
  · refine ⟨perm.nodup_iff.mpr h.distinct, fun x member => h.positive x (perm.mem_iff.mp member),
      allocate_free h.free fresh, ?_, rfl⟩
    refine ⟨?_, by decide, ⟨f, [], rfl, rfl⟩, [], f, 0, rfl, by simp, rfl, rfl⟩
    simp [State.allocate, head, Follows]

lemma Free.eq_nil (free : Free s fs) (positive : ∀ x ∈ fs, 0 < x) (null : s.cfreelist = 0) :
    fs = [] := by
  cases fs with
  | nil => rfl
  | cons f fs =>
    have head : s.cfreelist = f := free.head
    have := positive f mem_cons_self
    omega

lemma Free.exists_cons (free : Free s fs) (some : s.cfreelist ≠ 0) :
    ∃ f fs', fs = f :: fs' ∧ s.cfreelist = f := by
  cases fs with
  | nil => exact absurd free.head some
  | cons f fs => exact ⟨f, fs, rfl, free.head⟩

lemma start_room (f : ℕ) : (CBLOCK * f + 4) % CBLOCK ≠ 0 := by
  simp only [CBLOCK]
  omega

/-- A round of `b_to_q`, in a last block that is not full. -/
lemma Open.round (h : Open s c fs bs o bytes) (q : Q) (room : c.c_cl % CBLOCK ≠ 0)
    (some : data ≠ []) {nc : ℕ} (size : nc = min data.length (CBLOCK - c.c_cl % CBLOCK)) :
    0 < nc ∧ nc ≤ data.length ∧ CBSIZE * (bs.length - 1) < o + (c.c_cc + nc) ∧
    Moved s (s.store c.c_cl (data.take nc)) q fs bs fs bs ∧
    Open (s.store c.c_cl (data.take nc)) ⟨c.c_cc + nc, c.c_cf, c.c_cl + nc⟩ fs bs o
      (bytes ++ data.take nc) := by
  obtain ⟨init, l, r, rfl, bound, total, last⟩ := h.window.last
  have positive := length_pos_iff.mpr some
  have left : CBLOCK - c.c_cl % CBLOCK = CBSIZE - r ∧ r < CBSIZE := by
    simp only [CBLOCK, CBSIZE] at *
    omega
  have taken : (data.take nc).length = nc := by
    rw [length_take]
    omega
  have filled := h.fill q _ total last (by rw [taken]; omega)
  rw [taken] at filled
  refine ⟨by omega, by omega, ?_, filled⟩
  simp only [length_append, length_singleton, CBSIZE] at *
  omega

/-- Without a free block, `b_to_q` writes back the link that it finds. -/
lemma Open.exhausted (h : Open s c fs bs o bytes) (full : c.c_cl % CBLOCK = 0)
    (none_left : s.cfreelist = 0) :
    fs = [] ∧ s.link (c.c_cl / CBLOCK - 1) s.cfreelist = s ∧ o + c.c_cc = CBSIZE * bs.length := by
  obtain ⟨init, l, rfl, block, total⟩ := h.full_end full
  have link : s.c_next l = 0 := (follows_append.mp h.window.chain).2.1
  refine ⟨?_, ?_, by simpa using total⟩
  · exact h.free.eq_nil (fun x member => h.positive x (mem_append_left _ member)) none_left
  · rw [block, none_left, State.link, ← link, update_eq_self]

/-- What the loop of `b_to_q` does: it stores a prefix of the data, all of it or as
much as fills every block there is. -/
def Stored (s : State Q) (q : Q) (c : Clist) (fs bs : List ℕ) (o : ℕ) (bytes data : List Byte)
    (r : State Q × ℕ × List Byte) : Prop :=
  ∃ fs' bs' k, k ≤ data.length ∧ r.2.2 = data.drop k ∧ Moved s r.1 q fs bs fs' bs' ∧
    Open r.1 ⟨c.c_cc + k, c.c_cf, r.2.1⟩ fs' bs' o (bytes ++ data.take k) ∧
    (k < data.length → fs' = [] ∧ o + (c.c_cc + k) = CBSIZE * bs'.length) ∧
    (CBSIZE * (bs'.length - 1) < o + (c.c_cc + k) ∨ k = 0 ∧ bs' = bs)

lemma Open.stored_nothing (h : Open s c fs bs o bytes) (q : Q)
    (stop : data = [] ∨ fs = [] ∧ o + c.c_cc = CBSIZE * bs.length) :
    Stored s q c fs bs o bytes data (s, c.c_cl, data) := by
  refine ⟨fs, bs, 0, Nat.zero_le _, rfl, ⟨List.Perm.refl _, Confined.refl s q _⟩, ?_, ?_,
    .inr ⟨rfl, rfl⟩⟩
  · simpa using h
  · intro left
    rcases stop with rfl | full
    · cases left
    · exact full

variable {q : Q}

/-- A round, and the rest of the loop. -/
lemma Stored.after_round {t : State Q} {cl nc : ℕ} {fs₁ bs₁ : List ℕ}
    {r : State Q × ℕ × List Byte} (small : nc ≤ data.length)
    (strict : CBSIZE * (bs₁.length - 1) < o + (c.c_cc + nc)) (moved : Moved s t q fs bs fs₁ bs₁)
    (rest : Stored t q ⟨c.c_cc + nc, c.c_cf, cl⟩ fs₁ bs₁ o (bytes ++ data.take nc) (data.drop nc) r) :
    Stored s q c fs bs o bytes data r := by
  obtain ⟨fs', bs', k, bound, left, moved', opened, full, tight⟩ := rest
  simp only [length_drop, drop_drop, add_assoc, append_assoc,
    ← take_add] at bound left opened full tight
  refine ⟨fs', bs', nc + k, by omega, left, moved.trans moved', opened,
    fun more => full (by omega), .inl ?_⟩
  rcases tight with tight | ⟨rfl, rfl⟩
  · exact tight
  · simpa using strict

lemma Open.putLoop (q : Q) (fuel : ℕ) (h : Open s c fs bs o bytes) (enough : data.length ≤ fuel) :
    Stored s q c fs bs o bytes data (State.putLoop fuel s c.c_cl data) := by
  induction fuel generalizing s c fs bs bytes data with
  | zero =>
    obtain rfl : data = [] := length_eq_zero_iff.mp (by omega)
    exact h.stored_nothing q (.inl rfl)
  | succ fuel ih =>
    by_cases some : data = []
    · rw [some]
      exact h.stored_nothing q (.inl rfl)
    by_cases full : c.c_cl % CBLOCK = 0
    · by_cases exhausted : s.cfreelist = 0
      · obtain ⟨empty, unchanged, total⟩ := h.exhausted full exhausted
        simp only [State.putLoop, if_neg some, if_pos full, if_pos exhausted, unchanged]
        exact h.stored_nothing q (.inr ⟨empty, total⟩)
      · obtain ⟨f, fs, rfl, head⟩ := h.free.exists_cons exhausted
        obtain ⟨grown, opened⟩ := h.grow q full
        simp only [State.putLoop, if_neg some, if_pos full, if_neg exhausted]
        rw [head] at grown opened ⊢
        obtain ⟨positive, small, strict, filled, opened⟩ := opened.round q (start_room f) some rfl
        refine Stored.after_round small strict (grown.trans filled) (ih opened ?_)
        rw [length_drop]
        omega
    · simp only [State.putLoop, if_neg some, if_neg full]
      obtain ⟨positive, small, strict, filled, opened⟩ := h.round q full some rfl
      refine Stored.after_round small strict filled (ih opened ?_)
      rw [length_drop]
      omega

/-- A null end pointer means an empty list. -/
lemma Local.null_iff (h : Local s c fs bs o bytes) :
    c.c_cl = 0 ↔ bs = [] ∧ bytes = [] ∧ c = .null := by
  constructor
  · intro null
    rcases h.holds with empty | ⟨window, _⟩
    · exact empty
    · obtain ⟨-, l, r, _, _, _, last⟩ := window.last
      omega
  · rintro ⟨_, _, rfl⟩
    rfl

lemma Local.some_of_end (h : Local s c fs bs o bytes) (set : c.c_cl ≠ 0) : 0 < c.c_cc := by
  rcases h.holds with ⟨_, _, rfl⟩ | ⟨_, some, _⟩
  · exact absurd rfl set
  · exact some

variable [DecidableEq Q]

lemma Local.set (h : Local s c fs bs o bytes) (q : Q) (c' : Clist) :
    Local (s.set q c') c fs bs o bytes :=
  ⟨h.distinct, h.positive, h.free.set q c', h.holds⟩

lemma Moved.set {t : State Q} {fs' bs' : List ℕ} (moved : Moved s t q fs bs fs' bs')
    (c' : Clist) : Moved s (t.set q c') q fs bs fs' bs' :=
  ⟨moved.perm, moved.confined.trans (Confined.set t q c' _) (List.Perm.refl _)⟩

/-- The end of `b_to_q`: the pointers and the count are set. -/
lemma Stored.commit {r : State Q × ℕ × List Byte} (stored : Stored s q c fs bs o bytes data r)
    (start : 0 < c.c_cc ∧ CBSIZE * (bs.length - 1) < o + c.c_cc ∨ c.c_cc = 0 ∧ o = 0 ∧ data ≠ []) :
    ∃ fs' bs' k, k ≤ data.length ∧ r.2.2.length = data.length - k ∧
      Outcome s (r.1.set q ⟨c.c_cc + (data.length - r.2.2.length), c.c_cf, r.2.1⟩) q fs bs
        ⟨c.c_cc + (data.length - r.2.2.length), c.c_cf, r.2.1⟩ o (bytes ++ data.take k) fs' bs' ∧
      (k < data.length → fs' = [] ∧ o + (c.c_cc + k) = CBSIZE * bs'.length) := by
  obtain ⟨fs', bs', k, bound, left, moved, opened, full, tight⟩ := stored
  have length : r.2.2.length = data.length - k := by rw [left, length_drop]
  have count : data.length - r.2.2.length = k := by omega
  obtain ⟨init, l, _, split, _⟩ := opened.window.last
  have blocks : 0 < bs'.length := by simp [split]
  -- an empty list has got a block of its own, so that something was stored
  have grown : 0 < c.c_cc + k ∧ CBSIZE * (bs'.length - 1) < o + (c.c_cc + k) := by
    rcases start with ⟨some, strict⟩ | ⟨none_, zero, asked⟩
    · rcases tight with tight | ⟨rfl, rfl⟩
      · exact ⟨by omega, tight⟩
      · exact ⟨by omega, strict⟩
    · have wanted := length_pos_iff.mpr asked
      have positive : 0 < k := by
        by_contra nothing
        simp only [CBSIZE] at *
        omega
      rcases tight with tight | ⟨zero, _⟩
      · exact ⟨by omega, tight⟩
      · omega
  rw [count]
  exact ⟨fs', bs', k, bound, length, ⟨moved.set _, (opened.toLocal grown.1 grown.2).set q _⟩, full⟩

/-- `b_to_q` appends a prefix of the data: all of it, or as much as there is room for
in all blocks. -/
lemma Local.b_to_q (h : Local s (s.clist q) fs bs o bytes) (data : List Byte) :
    ∃ fs' bs' o' k, k ≤ data.length ∧ (s.b_to_q data q).2 = data.length - k ∧
      Outcome s (s.b_to_q data q).1 q fs bs ((s.b_to_q data q).1.clist q) o'
        (bytes ++ data.take k) fs' bs' ∧
      (k < data.length → fs' = [] ∧ o' + ((s.clist q).c_cc + k) = CBSIZE * bs'.length) ∧
      (bytes ≠ [] → o' = o) := by
  by_cases none_ : data = []
  · subst none_
    refine ⟨fs, bs, o, 0, le_rfl, by simp [State.b_to_q], ?_, by simp, fun _ => rfl⟩
    simpa [State.b_to_q] using Outcome.refl h q
  by_cases null : (s.clist q).c_cl = 0
  · obtain ⟨rfl, rfl, empty⟩ := h.null_iff.mp null
    by_cases exhausted : s.cfreelist = 0
    · have frees := h.free.eq_nil (fun x member => h.positive x (by simp [member])) exhausted
      refine ⟨fs, [], 0, 0, Nat.zero_le _, ?_, ?_, ?_, fun some => absurd rfl some⟩
      · simp [State.b_to_q, none_, null, exhausted]
      · simp only [State.b_to_q, if_neg none_, if_pos null, if_pos exhausted]
        exact Outcome.refl ⟨h.distinct, h.positive, h.free, .inl ⟨rfl, by simp, empty⟩⟩ q
      · rw [empty]
        exact fun _ => ⟨frees, rfl⟩
    · obtain ⟨f, fs, rfl, head⟩ := h.free.exists_cons exhausted
      have result : s.b_to_q data q =
          let r := State.putLoop data.length s.allocate (CBLOCK * f + 4) data
          (r.1.set q ⟨0 + (data.length - r.2.2.length), CBLOCK * f + 4, r.2.1⟩, r.2.2.length) := by
        simp only [State.b_to_q, if_neg none_, if_pos null, if_neg exhausted]
        rw [head, empty]
      rw [empty] at h ⊢
      obtain ⟨begun, opened⟩ := h.begin q
      obtain ⟨fs', bs', k, bound, length, outcome, full⟩ :=
        (opened.putLoop q data.length le_rfl).commit (.inr ⟨rfl, rfl, none_⟩)
      rw [result]
      refine ⟨fs', bs', 0, k, bound, length, ?_, full, fun some => absurd rfl some⟩
      simp only [State.set, update_self]
      exact ⟨begun.trans outcome.toMoved, outcome.after⟩
  · have some := h.some_of_end null
    obtain ⟨_, strict, _⟩ := h.nonempty some
    obtain ⟨fs', bs', k, bound, length, outcome, full⟩ :=
      ((h.toOpen some).putLoop q data.length le_rfl).commit (.inl ⟨some, strict⟩)
    refine ⟨fs', bs', o, k, bound, ?_, ?_, full, fun _ => rfl⟩
    · simpa only [State.b_to_q, if_neg none_, if_neg null] using length
    · simp only [State.b_to_q, if_neg none_, if_neg null]
      simp only [State.set, update_self] at outcome ⊢
      exact outcome

/-- One character goes into a last block that is not full, and the pointers are set. -/
lemma Open.put (h : Open s c fs bs o bytes) (q : Q) (room : c.c_cl % CBLOCK ≠ 0) (char : Byte) :
    Outcome s ((s.store c.c_cl [char]).set q ⟨c.c_cc + 1, c.c_cf, c.c_cl + 1⟩) q fs bs
      ⟨c.c_cc + 1, c.c_cf, c.c_cl + 1⟩ o (bytes ++ [char]) fs bs := by
  have size : 1 = min [char].length (CBLOCK - c.c_cl % CBLOCK) := by
    rw [length_singleton]
    have := Nat.mod_lt c.c_cl (show 0 < CBLOCK by decide)
    omega
  obtain ⟨_, _, strict, filled, opened⟩ := h.round q room (cons_ne_nil char []) size
  exact ⟨filled.set _, (opened.toLocal (Nat.succ_pos _) strict).set q _⟩

/-- `putc` appends the character, or finds no block and changes nothing. -/
lemma Local.putc (h : Local s (s.clist q) fs bs o bytes) (char : Byte) :
    (s.putc char q).2 = 0 ∧ (∃ fs' bs' o', Outcome s (s.putc char q).1 q fs bs
        ((s.putc char q).1.clist q) o' (bytes ++ [char]) fs' bs') ∨
    (s.putc char q).2 = -1 ∧ (s.putc char q).1 = s ∧ fs = [] := by
  by_cases null : (s.clist q).c_cl = 0
  · obtain ⟨rfl, rfl, empty⟩ := h.null_iff.mp null
    by_cases exhausted : s.cfreelist = 0
    · right
      simp only [State.putc, if_pos null, if_pos exhausted, true_and]
      exact h.free.eq_nil (fun x member => h.positive x (by simp [member])) exhausted
    · obtain ⟨f, fs, rfl, head⟩ := h.free.exists_cons exhausted
      have result : s.putc char q = ((s.allocate.store (CBLOCK * f + 4) [char]).set q
          ⟨0 + 1, CBLOCK * f + 4, CBLOCK * f + 4 + 1⟩, 0) := by
        simp only [State.putc, if_pos null, if_neg exhausted]
        rw [head, empty]
      rw [empty] at h
      obtain ⟨begun, opened⟩ := h.begin q
      have outcome := opened.put q (start_room f) char
      left
      rw [result]
      refine ⟨rfl, fs, [f], 0, begun.trans outcome.toMoved, ?_⟩
      simpa only [State.set, update_self] using outcome.after
  have opened := h.toOpen (h.some_of_end null)
  by_cases full : (s.clist q).c_cl % CBLOCK = 0
  · by_cases exhausted : s.cfreelist = 0
    · obtain ⟨frees, unchanged, _⟩ := opened.exhausted full exhausted
      right
      simp only [State.putc, if_neg null, if_pos full, if_pos exhausted, true_and]
      exact ⟨unchanged, frees⟩
    · obtain ⟨f, fs, rfl, head⟩ := h.free.exists_cons exhausted
      obtain ⟨grown, opened⟩ := opened.grow q full
      have outcome := opened.put q (start_room f) char
      left
      simp only [State.putc, if_neg null, if_pos full, if_neg exhausted]
      rw [head] at grown outcome ⊢
      refine ⟨trivial, fs, bs ++ [f], o, grown.trans outcome.toMoved, ?_⟩
      simpa only [State.set, update_self] using outcome.after
  · left
    simp only [State.putc, if_neg null, if_neg full]
    have outcome := opened.put q full char
    refine ⟨trivial, fs, bs, o, outcome.toMoved, ?_⟩
    simpa only [State.set, update_self] using outcome.after

end Growth

end Clists
