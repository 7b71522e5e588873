import RetroBSD.Clists

/-!
# The blocks of one character list

What the operations do to one list and to the free list: the blocks of both stay
the same as a whole, and nothing else changes. The list denotes a sequence of
characters, and each operation is described by its effect on that sequence.
-/

namespace Clists

open BlockChains List
open Function (update_of_ne update_self)

variable {Q : Type}

/-- The list denotes `bytes`, kept in the chain `bs` from its cell `o` on. The last
block is not empty. -/
def Holds (s : State Q) (c : Clist) (bs : List ℕ) (o : ℕ) (bytes : List Byte) : Prop :=
  bs = [] ∧ bytes = [] ∧ c = .null ∨
  Window s.c_next c bs o ∧ 0 < c.c_cc ∧ CBSIZE * (bs.length - 1) < o + c.c_cc ∧
    bytes = contents s.c_info bs o c.c_cc

structure Free (s : State Q) (fs : List ℕ) : Prop where
  head : s.cfreelist = fs.headD 0
  chain : Follows s.c_next fs 0
  count : s.cfreecount = CBSIZE * fs.length

/-- The free blocks and one list, which share no block. -/
structure Local (s : State Q) (c : Clist) (fs bs : List ℕ) (o : ℕ) (bytes : List Byte) :
    Prop where
  distinct : (fs ++ bs).Nodup
  positive : ∀ x ∈ fs ++ bs, 0 < x
  free : Free s fs
  holds : Holds s c bs o bytes

/-- Nothing has changed but the given blocks and the pointers of one list. -/
structure Confined (s t : State Q) (q : Q) (blocks : List ℕ) : Prop where
  links : ∀ x ∉ blocks, t.c_next x = s.c_next x
  memory : ∀ a, a / CBLOCK ∉ blocks → t.c_info a = s.c_info a
  others : ∀ p, p ≠ q → t.clist p = s.clist p

namespace Confined

variable {s t r : State Q} {q : Q} {blocks blocks' : List ℕ}

lemma refl (s : State Q) (q : Q) (blocks : List ℕ) : Confined s s q blocks where
  links _ _ := rfl
  memory _ _ := rfl
  others _ _ := rfl

lemma trans (first : Confined s t q blocks) (second : Confined t r q blocks')
    (same : blocks'.Perm blocks) : Confined s r q blocks where
  links x outside :=
    (second.links x (fun member => outside (same.mem_iff.mp member))).trans (first.links x outside)
  memory a outside := (second.memory a (fun member => outside (same.mem_iff.mp member))).trans
      (first.memory a outside)
  others p other := (second.others p other).trans (first.others p other)

lemma set [DecidableEq Q] (s : State Q) (q : Q) (c : Clist) (blocks : List ℕ) :
    Confined s (s.set q c) q blocks where
  links _ _ := rfl
  memory _ _ := rfl
  others _ other := update_of_ne other _ _

lemma release (s : State Q) (q : Q) {bp : ℕ} (member : bp ∈ blocks) :
    Confined s (s.release bp) q blocks where
  links _ outside := update_of_ne (ne_of_mem_of_not_mem member outside).symm _ _
  memory _ _ := rfl
  others _ _ := rfl

lemma link (s : State Q) (q : Q) {bp : ℕ} (member : bp ∈ blocks) (target : ℕ) :
    Confined s (s.link bp target) q blocks where
  links _ outside := update_of_ne (ne_of_mem_of_not_mem member outside).symm _ _
  memory _ _ := rfl
  others _ _ := rfl

lemma allocate (s : State Q) (q : Q) (member : s.cfreelist ∈ blocks) :
    Confined s s.allocate q blocks where
  links _ outside := update_of_ne (ne_of_mem_of_not_mem member outside).symm _ _
  memory _ _ := rfl
  others _ _ := rfl

lemma store (s : State Q) (q : Q) {b i : ℕ} (member : b ∈ blocks) (data : List Byte)
    (inside : i + data.length ≤ CBSIZE) :
    Confined s (s.store (CBLOCK * b + 4 + i) data) q blocks where
  links _ _ := rfl
  memory a outside := by
    apply if_neg
    intro both
    have block : a / CBLOCK = b := by
      simp only [CBLOCK, CBSIZE] at *
      omega
    exact outside (block ▸ member)
  others _ _ := rfl

end Confined

/-- The blocks of the free list and of one list are exchanged. -/
structure Moved (s t : State Q) (q : Q) (fs bs fs' bs' : List ℕ) : Prop where
  perm : (fs' ++ bs').Perm (fs ++ bs)
  confined : Confined s t q (fs ++ bs)

/-- The outcome of an operation on one list: where the blocks are now, and what the
list denotes. -/
structure Outcome (s t : State Q) (q : Q) (fs bs : List ℕ) (c : Clist) (o : ℕ)
    (bytes : List Byte) (fs' bs' : List ℕ) : Prop extends Moved s t q fs bs fs' bs' where
  after : Local t c fs' bs' o bytes

lemma Moved.trans {s t r : State Q} {q : Q} {fs bs fs' bs' fs'' bs'' : List ℕ}
    (first : Moved s t q fs bs fs' bs') (second : Moved t r q fs' bs' fs'' bs'') :
    Moved s r q fs bs fs'' bs'' :=
  ⟨second.perm.trans first.perm, first.confined.trans second.confined first.perm⟩

namespace Outcome

variable {s t r : State Q} {q : Q} {fs bs fs' bs' fs'' bs'' : List ℕ} {c c' : Clist} {o o' : ℕ}
  {bytes bytes' : List Byte}

lemma refl (h : Local s c fs bs o bytes) (q : Q) : Outcome s s q fs bs c o bytes fs bs :=
  ⟨⟨List.Perm.refl _, Confined.refl s q _⟩, h⟩

lemma trans (first : Outcome s t q fs bs c o bytes fs' bs')
    (second : Outcome t r q fs' bs' c' o' bytes' fs'' bs'') :
    Outcome s r q fs bs c' o' bytes' fs'' bs'' :=
  ⟨first.toMoved.trans second.toMoved, second.after⟩

end Outcome

section Frees

variable {s : State Q} {fs : List ℕ} {b : ℕ}

lemma Free.release (free : Free s fs) (fresh : b ∉ fs) : Free (s.release b) (b :: fs) where
  head := rfl
  chain := by
    constructor
    · exact (update_self b _ _).trans free.head
    · apply free.chain.congr
      intro x member
      exact update_of_ne (ne_of_mem_of_not_mem member fresh) _ _
  count := by
    simp only [State.release, free.count, length_cons]
    push_cast
    omega

lemma Free.set [DecidableEq Q] (free : Free s fs) (q : Q) (c : Clist) : Free (s.set q c) fs where
  head := free.head
  chain := free.chain
  count := free.count

end Frees

/-- Whether a character of the first block is the last one in it. -/
lemma Window.boundary {next : ℕ → ℕ} {c : Clist} {rest : List ℕ} {b o k : ℕ}
    (window : Window next c (b :: rest) o) (some : 0 < k) (inside : o + k ≤ CBSIZE) :
    ((c.c_cf + k) % CBLOCK = 0 ↔ o + k = CBSIZE) ∧
      (o + k = CBSIZE → (c.c_cf + k) / CBLOCK - 1 = b) := by
  rw [window.head]
  simp only [CBLOCK, CBSIZE] at *
  omega

namespace Local

variable {s : State Q} {c : Clist} {fs bs rest : List ℕ} {b o k : ℕ} {bytes : List Byte}

lemma nonempty (h : Local s c fs bs o bytes) (some : 0 < c.c_cc) :
    Window s.c_next c bs o ∧ CBSIZE * (bs.length - 1) < o + c.c_cc ∧
      bytes = contents s.c_info bs o c.c_cc := by
  rcases h.holds with ⟨_, _, rfl⟩ | ⟨window, _, strict, denotes⟩
  · cases some
  · exact ⟨window, strict, denotes⟩

lemma length_bytes (h : Local s c fs bs o bytes) : bytes.length = c.c_cc := by
  rcases h.holds with ⟨_, rfl, rfl⟩ | ⟨window, _, _, rfl⟩
  · rfl
  · exact length_contents window.fits

lemma cons (h : Local s c fs bs o bytes) (some : 0 < c.c_cc) : ∃ b rest, bs = b :: rest := by
  obtain ⟨window, _⟩ := h.nonempty some
  obtain ⟨b, rest, split, _⟩ := window.first
  exact ⟨b, rest, split⟩

lemma notMem_free (h : Local s c fs (b :: rest) o bytes) : b ∉ fs := fun member =>
  (nodup_append.mp h.distinct).2.2 b member b mem_cons_self rfl

lemma notMem_rest (h : Local s c fs (b :: rest) o bytes) : b ∉ rest :=
  (nodup_cons.mp (nodup_append.mp h.distinct).2.1).1

lemma of_empty (h : Local s c fs bs o bytes) (empty : c.c_cc = 0) : bs = [] ∧ bytes = [] ∧ c = .null := by
  rcases h.holds with null | ⟨_, some, _⟩
  · exact null
  · omega

/-- The characters left in the first block, as `ndflush` computes them. -/
lemma flush_rem (h : Local s c fs (b :: rest) o bytes) (some : 0 < c.c_cc) :
    (if b = (c.c_cl - 1) / CBLOCK then c.c_cl else CBLOCK * (b + 1)) - c.c_cf =
      min (CBSIZE - o) c.c_cc := by
  obtain ⟨window, strict, _⟩ := h.nonempty some
  obtain ⟨init, l, r, split, bound, total, last⟩ := window.last
  have first := window.head
  have block : (c.c_cl - 1) / CBLOCK = l := by
    simp only [CBLOCK, CBSIZE] at *
    omega
  rw [block]
  cases init with
  | nil =>
    obtain ⟨rfl, _⟩ := cons.inj split
    rw [if_pos rfl]
    simp only [length_nil, CBSIZE] at *
    omega
  | cons y init =>
    obtain ⟨rfl, rfl⟩ := cons.inj split
    have other : b ≠ l := fun same => h.notMem_rest (by simp [same])
    rw [if_neg other]
    rw [split] at strict
    simp only [length_append, length_cons, length_nil, CBLOCK, CBSIZE] at *
    omega

variable [DecidableEq Q]

section

variable (h : Local s c fs (b :: rest) o bytes)
include h

lemma released (q : Q) (c' : Clist) {c₂ : Clist} {bs₂ : List ℕ}
    {o₂ : ℕ} {bytes₂ : List Byte} (perm : (b :: fs ++ bs₂).Perm (fs ++ b :: rest))
    (holds : Holds ((s.set q c').release b) c₂ bs₂ o₂ bytes₂) :
    Outcome s ((s.set q c').release b) q fs (b :: rest) c₂ o₂ bytes₂ (b :: fs) bs₂ := by
  have released : Confined (s.set q c') ((s.set q c').release b) q (fs ++ b :: rest) :=
    Confined.release _ q (by simp)
  exact ⟨⟨perm, (Confined.set s q c' _).trans released (List.Perm.refl _)⟩,
    perm.nodup_iff.mpr h.distinct, fun x member => h.positive x (perm.mem_iff.mp member),
    (h.free.set q c').release h.notMem_free, holds⟩

/-- The last characters of a list go with its only block. -/
lemma empties (some : 0 < c.c_cc) (short : o + c.c_cc ≤ CBSIZE) (q : Q) (c' : Clist) :
    rest = [] ∧ Outcome s ((s.set q c').release b) q fs (b :: rest) .null 0 [] (b :: fs) [] := by
  obtain ⟨-, strict, _⟩ := h.nonempty some
  have alone : rest = [] := by
    rw [← length_eq_zero_iff]
    simp only [length_cons, CBSIZE] at *
    omega
  subst alone
  refine ⟨rfl, h.released q c' ?_ (.inl ⟨rfl, rfl, rfl⟩)⟩
  rw [append_nil]
  exact (perm_append_singleton b fs).symm

/-- The first block goes, and characters are left in others. -/
lemma nextBlock (more : k < c.c_cc) (inside : o + k = CBSIZE) (q : Q) (c' : Clist) :
    Outcome s ((s.set q c').release b) q fs (b :: rest)
      ⟨c.c_cc - k, CBLOCK * s.c_next b + 4, c.c_cl⟩ 0 (bytes.drop k) (b :: fs) rest := by
  obtain ⟨window, strict, denotes⟩ := h.nonempty (by omega)
  obtain ⟨-, moved⟩ := window.nextBlock more inside
  refine h.released q c' perm_middle.symm (.inr ⟨moved.congr ?_, ?_, ?_, ?_⟩)
  · intro x member
    exact update_of_ne (ne_of_mem_of_not_mem member h.notMem_rest) _ _
  · simp only
    omega
  · simp only [length_cons, CBSIZE] at *
    omega
  · rw [denotes, contents_drop, inside]
    rfl

/-- Characters of the first block go, and others of it are left. -/
lemma forward (more : k < c.c_cc) (inside : o + k < CBSIZE) (q : Q) (c' : Clist) :
    Outcome s (s.set q c') q fs (b :: rest) ⟨c.c_cc - k, c.c_cf + k, c.c_cl⟩ (o + k)
      (bytes.drop k) fs (b :: rest) := by
  obtain ⟨window, strict, denotes⟩ := h.nonempty (by omega)
  refine ⟨⟨List.Perm.refl _, Confined.set s q c' _⟩, h.distinct, h.positive, h.free.set q c', ?_⟩
  refine .inr ⟨window.forward more.le inside, ?_, ?_, ?_⟩
  · simp only
    omega
  · simp only
    omega
  · rw [denotes, contents_drop]
    rfl

end

/-- `getc`, and a round of `q_to_b`. -/
lemma advance {q : Q} (h : Local s (s.clist q) fs bs o bytes) (some : 0 < k)
    (enough : k ≤ (s.clist q).c_cc) (inside : o + k ≤ CBSIZE) :
    ∃ fs' bs' o', Outcome s (s.advance q k) q fs bs ((s.advance q k).clist q) o'
        (bytes.drop k) fs' bs' ∧ (k < (s.clist q).c_cc → o' = (o + k) % CBSIZE) := by
  obtain ⟨b, rest, rfl⟩ := h.cons (by omega)
  obtain ⟨window, -, _⟩ := h.nonempty (by omega)
  have first := window.head
  obtain ⟨boundary, last⟩ := window.boundary some inside
  unfold State.advance
  by_cases all : (s.clist q).c_cc - k = 0
  · have block : ((s.clist q).c_cf + k - 1) / CBLOCK = b := by
      simp only [CBLOCK, CBSIZE] at *
      omega
    have drops : bytes.drop k = [] := by
      rw [drop_eq_nil_iff, h.length_bytes]
      omega
    obtain ⟨_, outcome⟩ := h.empties (by omega) (by omega) q .null
    refine ⟨b :: fs, [], 0, ?_, fun more => by omega⟩
    simpa only [if_pos all, block, drops, State.release, State.set, update_self] using outcome
  have more : k < (s.clist q).c_cc := by omega
  by_cases full : o + k = CBSIZE
  · refine ⟨b :: fs, rest, 0, ?_, fun _ => by rw [full]; rfl⟩
    simpa only [if_neg all, if_pos (boundary.mpr full), last full, State.release, State.set, update_self]
      using h.nextBlock more full q ⟨(s.clist q).c_cc - k, CBLOCK * s.c_next b + 4, (s.clist q).c_cl⟩
  · refine ⟨fs, b :: rest, o + k, ?_, fun _ => (Nat.mod_eq_of_lt (by omega)).symm⟩
    simpa only [if_neg all, boundary, if_neg full, State.set, update_self]
      using h.forward more (by omega) q ⟨(s.clist q).c_cc - k, (s.clist q).c_cf + k, (s.clist q).c_cl⟩

/-- The loop of `q_to_b` takes the first characters. -/
lemma takeLoop {q : Q} (fuel cc : ℕ) (h : Local s (s.clist q) fs bs o bytes)
    (some : 0 < (s.clist q).c_cc) (enough : cc ≤ fuel) :
    (State.takeLoop q fuel s cc).2 = bytes.take cc ∧
    ∃ fs' bs' o', Outcome s (State.takeLoop q fuel s cc).1 q fs bs
        ((State.takeLoop q fuel s cc).1.clist q) o' (bytes.drop cc) fs' bs' ∧
      (cc < (s.clist q).c_cc → o' = (o + cc) % CBSIZE) := by
  have low := (h.nonempty some).1.low
  induction fuel generalizing s fs bs o bytes cc with
  | zero =>
    obtain rfl : cc = 0 := by omega
    exact ⟨rfl, fs, bs, o, Outcome.refl h q, fun _ => (Nat.mod_eq_of_lt low).symm⟩
  | succ fuel ih =>
    by_cases done : cc = 0
    · subst done
      exact ⟨rfl, fs, bs, o, Outcome.refl h q, fun _ => (Nat.mod_eq_of_lt low).symm⟩
    obtain ⟨b, rest, rfl⟩ := h.cons some
    obtain ⟨window, -, denotes⟩ := h.nonempty some
    have room : CBLOCK - (s.clist q).c_cf % CBLOCK = CBSIZE - o := by
      rw [window.head]
      simp only [CBLOCK, CBSIZE] at *
      omega
    simp only [State.takeLoop, room]
    generalize size : min _ (s.clist q).c_cc = nc
    have bounds : 0 < nc ∧ nc ≤ cc ∧ nc ≤ (s.clist q).c_cc ∧ o + nc ≤ CBSIZE := by omega
    obtain ⟨positive, small, available, inside⟩ := bounds
    have read : s.fetch (s.clist q).c_cf nc = bytes.take nc := by
      rw [denotes, contents_take available]
      exact fetch_eq_contents s window.head inside
    obtain ⟨fs', bs', o', moved, offset⟩ := h.advance positive available inside
    have count := moved.after.length_bytes
    have total := h.length_bytes
    rw [length_drop] at count
    rw [read]
    split_ifs with all
    · have whole : bytes.length ≤ nc := by omega
      rw [drop_eq_nil_of_le whole] at moved
      rw [take_of_length_le whole, take_of_length_le (by omega), drop_eq_nil_of_le (by omega)]
      exact ⟨rfl, fs', bs', o', moved, fun more => by omega⟩
    · have low' : o' < CBSIZE := by
        rw [offset (by omega)]
        exact Nat.mod_lt _ (by decide)
      obtain ⟨data, fs'', bs'', o'', finished, offset'⟩ :=
        ih (cc - nc) moved.after (by omega) (by omega) low'
      refine ⟨?_, fs'', bs'', o'', ?_, ?_⟩
      · rw [data, ← take_add, Nat.add_sub_cancel' small]
      · rw [drop_drop, Nat.add_sub_cancel' small] at finished
        exact moved.trans finished
      · intro more
        rw [offset' (by omega), offset (by omega), Nat.mod_add_mod]
        congr 1
        omega

/-- The loop of `ndflush` drops the first characters. A list that has become empty
is left with pointers that the end of `ndflush` clears. -/
lemma flushLoop {q : Q} (fuel cc : ℕ) (h : Local s c fs bs o bytes)
    (current : c.c_cc = (s.clist q).c_cc ∧ (0 < c.c_cc → c = s.clist q)) (enough : cc ≤ fuel) :
    ∃ fs' bs' o' c', Outcome s (State.flushLoop q fuel s cc) q fs bs c' o' (bytes.drop cc) fs' bs' ∧
      c'.c_cc = ((State.flushLoop q fuel s cc).clist q).c_cc ∧
      (0 < c'.c_cc → c' = (State.flushLoop q fuel s cc).clist q) := by
  induction fuel generalizing s c fs bs o bytes cc with
  | zero =>
    obtain rfl : cc = 0 := by omega
    exact ⟨fs, bs, o, c, Outcome.refl h q, current⟩
  | succ fuel ih =>
    by_cases stop : cc = 0 ∨ (s.clist q).c_cc = 0
    · have drops : bytes.drop cc = bytes := by
        rcases stop with rfl | empty
        · rfl
        · have none_left : bytes = [] := by
            rw [← length_eq_zero_iff, h.length_bytes, current.1, empty]
          rw [none_left, drop_nil]
      rw [State.flushLoop, if_pos stop, drops]
      exact ⟨fs, bs, o, c, Outcome.refl h q, current⟩
    obtain ⟨same, eq⟩ := current
    have some : 0 < c.c_cc := by omega
    obtain rfl := eq some
    obtain ⟨b, rest, rfl⟩ := h.cons some
    obtain ⟨window, -, _⟩ := h.nonempty some
    have low := window.low
    have block : (s.clist q).c_cf / CBLOCK = b := by
      rw [window.head]
      simp only [CBLOCK, CBSIZE] at *
      omega
    have total := h.length_bytes
    simp only [State.flushLoop, if_neg stop, block, h.flush_rem some]
    generalize size : min _ (s.clist q).c_cc = rem
    by_cases whole : rem ≤ cc
    · rw [if_pos whole]
      by_cases all : o + (s.clist q).c_cc ≤ CBSIZE
      · -- the only block goes, and the next round stops at the empty list
        obtain ⟨_, moved⟩ := h.empties some all q
          ⟨(s.clist q).c_cc - rem, CBLOCK * s.c_next b + 4, (s.clist q).c_cl⟩
        obtain ⟨fs', bs', o', c', finished, result⟩ := ih (cc - rem) moved.after
          ⟨by simp [State.release, State.set]; omega, fun some => by cases some⟩ (by omega)
        rw [drop_nil] at finished
        rw [drop_eq_nil_of_le (by omega)]
        exact ⟨fs', bs', o', c', moved.trans finished, result⟩
      · have full : o + rem = CBSIZE := by omega
        have moved := h.nextBlock (by omega) full q
          ⟨(s.clist q).c_cc - rem, CBLOCK * s.c_next b + 4, (s.clist q).c_cl⟩
        obtain ⟨fs', bs', o', c', finished, result⟩ := ih (cc - rem) moved.after
          ⟨by simp [State.release, State.set], fun _ => by simp [State.release, State.set]⟩
          (by omega)
        rw [drop_drop, Nat.add_sub_cancel' whole] at finished
        exact ⟨fs', bs', o', c', moved.trans finished, result⟩
    · have more : ¬ (s.clist q).c_cc - cc = 0 := by omega
      rw [if_neg whole, if_neg more]
      refine ⟨fs, b :: rest, o + cc, _, h.forward (by omega) (by omega) q _, ?_⟩
      simp [State.set]

end Local

end Clists
