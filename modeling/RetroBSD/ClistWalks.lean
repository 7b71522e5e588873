import RetroBSD.ClistAppends

/-!
# Walks over a character list

`nextc` visits the characters in order, and `unputc` drops the last one; when that
leaves the last block empty, it walks from the first block to the one before.
-/

namespace Clists

open BlockChains List
open Function (update_of_ne update_self)

variable {Q : Type}

variable {s : State Q} {c : Clist} {fs bs init : List ℕ} {b l x o r n : ℕ} {bytes : List Byte}

/-! ### The last character -/

lemma contents_last {info : ℕ → Byte} (total : o + n = CBSIZE * init.length + r)
    (small : r < CBSIZE) : contents info (init ++ [l]) (o + n) 1 = [info (CBLOCK * l + 4 + r)] := by
  rw [contents, total, cells_drop, drop_eq_getElem_cons (by simpa using small)]
  simp

/-- The walk of `unputc` ends at the block before the last. -/
lemma blockBefore_eq (fuel : ℕ) (follows : Follows s.c_next (init ++ [x] ++ [l]) 0)
    (nodup : (init ++ [x] ++ [l]).Nodup) (enough : init.length ≤ fuel) :
    s.blockBefore l fuel ((init ++ [x]).headD 0) = x := by
  induction init generalizing fuel with
  | nil =>
    have link : s.c_next x = l := follows.1
    cases fuel with
    | zero => rfl
    | succ fuel =>
      rw [State.blockBefore]
      simp [link]
  | cons b init ih =>
    cases fuel with
    | zero => cases enough
    | succ fuel =>
      have link : s.c_next b = (init ++ [x]).headD 0 := by
        have first := follows.1
        cases init <;> exact first
      have other : (init ++ [x]).headD 0 ≠ l := by
        intro same
        have member : l ∈ init ++ [x] := by
          rw [← same]
          cases init <;> simp
        have apart := (nodup_append.mp (nodup_cons.mp nodup).2).2.2
        exact apart l member l (mem_singleton.mpr rfl) rfl
      rw [cons_append, headD_cons, State.blockBefore, link, if_pos other]
      exact ih fuel follows.2 (nodup_cons.mp nodup).2 (Nat.le_of_succ_le_succ enough)

/-- The last block, which holds one character, goes. -/
lemma Local.shorten [DecidableEq Q] (h : Local s c fs (init ++ [x] ++ [l]) o bytes) (q : Q) (c' : Clist)
    (total : o + c.c_cc = CBSIZE * (init ++ [x]).length + 1) (more : 1 < c.c_cc) :
    Outcome s (((s.set q c').release l).link x 0) q fs (init ++ [x] ++ [l])
      ⟨c.c_cc - 1, c.c_cf, CBLOCK * (x + 1)⟩ o
      (contents s.c_info (init ++ [x] ++ [l]) o (c.c_cc - 1)) (l :: fs) (init ++ [x]) := by
  obtain ⟨window, _⟩ := h.nonempty (by omega)
  have perm : (l :: fs ++ (init ++ [x])).Perm (fs ++ (init ++ [x] ++ [l])) := by
    have moved := (perm_append_singleton l (fs ++ (init ++ [x]))).symm
    rwa [append_assoc] at moved
  have distinct := perm.nodup_iff.mpr h.distinct
  obtain ⟨frees, chain, apart⟩ := nodup_append.mp distinct
  have fresh : l ∉ fs := (nodup_cons.mp frees).1
  have last : l ∉ init ++ [x] := fun member => apart l mem_cons_self l member rfl
  have other : x ∉ l :: fs := fun member => apart x member x (by simp) rfl
  have first : Confined s ((s.set q c').release l) q (fs ++ (init ++ [x] ++ [l])) :=
    (Confined.set s q c' _).trans (Confined.release _ q (by simp)) (List.Perm.refl _)
  have second : Confined ((s.set q c').release l) (((s.set q c').release l).link x 0) q
      (fs ++ (init ++ [x] ++ [l])) := Confined.link _ q (by simp) 0
  have freed := (h.free.set q c').release fresh
  refine ⟨⟨perm, first.trans second (List.Perm.refl _)⟩, distinct,
    fun y member => h.positive y (perm.mem_iff.mp member), ⟨freed.head, ?_, freed.count⟩, ?_⟩
  · apply freed.chain.congr
    intro y member
    exact update_of_ne (ne_of_mem_of_not_mem member other) _ _
  · refine .inr ⟨⟨?_, window.low, ?_, init, x, CBSIZE, rfl, le_rfl, ?_, ?_⟩, ?_, ?_, ?_⟩
    · have shorter := window.chain.dropLast chain
      apply shorter.congr
      intro y member
      simp only [State.link, State.release, State.set]
      by_cases same : y = x
      · rw [same, update_self, update_self]
      · rw [update_of_ne same, update_of_ne same, update_of_ne (ne_of_mem_of_not_mem member last)]
    · obtain ⟨b, rest, split, head⟩ := window.first
      cases init with
      | nil =>
        obtain ⟨rfl, _⟩ := cons.inj split
        exact ⟨x, [], rfl, head⟩
      | cons y init =>
        obtain ⟨rfl, _⟩ := cons.inj split
        exact ⟨y, init ++ [x], rfl, head⟩
    · simp only [length_append, length_singleton, CBSIZE] at *
      omega
    · simp only [CBLOCK, CBSIZE]
      omega
    · simp only
      omega
    · simp only [CBSIZE] at *
      omega
    · apply contents_snoc
      simp only [length_append, length_singleton, CBSIZE] at *
      omega

/-- `unputc` drops the last character and returns it. -/
lemma Local.unputc [DecidableEq Q] {q : Q} (h : Local s (s.clist q) fs bs o bytes)
    (some : 0 < (s.clist q).c_cc) :
    ∃ front char, bytes = front ++ [char] ∧ (s.unputc q).2 = char.signExtend 32 ∧
      ∃ fs' bs' o', Outcome s (s.unputc q).1 q fs bs ((s.unputc q).1.clist q) o' front fs' bs' := by
  obtain ⟨window, strict, denotes⟩ := h.nonempty some
  obtain ⟨init, l, r, rfl, bound, total, last⟩ := window.last
  have low := window.low
  have positive : 0 < r := by
    simp only [length_append, length_singleton, CBSIZE] at *
    omega
  have cell : (s.clist q).c_cl - 1 = CBLOCK * l + 4 + (r - 1) := by omega
  have block : ((s.clist q).c_cl - 1) / CBLOCK = l := by
    simp only [CBLOCK, CBSIZE] at *
    omega
  have split : bytes = contents s.c_info (init ++ [l]) o ((s.clist q).c_cc - 1) ++
      [s.c_info ((s.clist q).c_cl - 1)] := by
    have before : o + ((s.clist q).c_cc - 1) = CBSIZE * init.length + (r - 1) := by omega
    rw [denotes, cell, ← contents_last before (by omega), ← contents_add, Nat.sub_add_cancel some]
  refine ⟨_, _, split, ?_, ?_⟩
  · simp only [State.unputc, if_neg some.ne']
    split_ifs <;> rfl
  by_cases only : (s.clist q).c_cc - 1 = 0
  · obtain ⟨b, rest, cons⟩ := h.cons some
    rw [cons] at h ⊢
    obtain ⟨alone, outcome⟩ := h.empties some (by omega) q .null
    have same : b = l := by
      rw [alone] at cons
      cases init with
      | nil => exact (List.cons.inj cons).1.symm
      | cons y init => simp at cons
    refine ⟨b :: fs, [], 0, ?_⟩
    simp only [State.unputc, if_neg some.ne', if_pos only, block, ← same]
    simpa [State.release, State.set, only, contents] using outcome
  by_cases single : r = 1
  · have start : ((s.clist q).c_cl - 1) % CBLOCK = 4 := by
      rw [cell, single]
      simp only [CBLOCK]
      omega
    obtain ⟨init, x, rfl⟩ : ∃ front x, init = front ++ [x] := by
      rcases eq_nil_or_concat init with rfl | ⟨front, x, rfl⟩
      · simp only [length_nil, CBSIZE] at *
        omega
      · exact ⟨front, x, by rw [concat_eq_append]⟩
    have nodup := (nodup_append.mp h.distinct).2.1
    have begin_ : (s.clist q).c_cf / CBLOCK = (init ++ [x]).headD 0 := by
      obtain ⟨b, rest, cons, head⟩ := window.first
      have quotient : (s.clist q).c_cf / CBLOCK = b := by
        rw [head]
        simp only [CBLOCK, CBSIZE] at *
        omega
      rw [quotient]
      cases init <;> exact (List.cons.inj cons).1.symm
    have found := blockBefore_eq (s.clist q).c_cc window.chain nodup (by
      simp only [length_append, length_singleton, CBSIZE] at *
      omega)
    have link : s.c_next x = l := by
      have chain := window.chain
      rw [append_assoc, follows_append] at chain
      exact chain.2.1
    have outcome := h.shorten q ⟨(s.clist q).c_cc - 1, (s.clist q).c_cf, CBLOCK * (x + 1)⟩
      (by omega) (by omega)
    refine ⟨l :: fs, init ++ [x], o, ?_⟩
    simp only [State.unputc, if_neg some.ne', if_neg only, if_pos start, block, begin_,
      found, link]
    simpa [State.release, State.set, State.link] using outcome
  · have inside : ¬ ((s.clist q).c_cl - 1) % CBLOCK = 4 := by
      rw [cell]
      simp only [CBLOCK, CBSIZE] at *
      omega
    refine ⟨fs, init ++ [l], o, ?_⟩
    simp only [State.unputc, if_neg some.ne', if_neg only, if_neg inside]
    refine ⟨⟨List.Perm.refl _, Confined.set s q _ _⟩, h.distinct, h.positive, h.free.set q _, ?_⟩
    simp only [State.set, update_self]
    refine .inr ⟨⟨window.chain, low, window.first, init, l, r - 1, rfl, by omega, ?_, cell⟩,
      ?_, ?_, rfl⟩
    · simp only
      omega
    · simp only
      omega
    · simp only [length_append, length_singleton, CBSIZE] at *
      omega

/-! ### All characters in order -/

lemma Window.pointer {next : ℕ → ℕ} (window : Window next c bs o) : c.c_cf ≠ 0 := by
  obtain ⟨b, -, _, head⟩ := window.first
  omega

lemma Window.single (window : Window s.c_next c bs o) (one : c.c_cc = 1) :
    contents s.c_info bs o c.c_cc = [s.c_info c.c_cf] := by
  obtain ⟨b, rest, rfl, head⟩ := window.first
  rw [one, contents_succ window.low, head]
  rfl

section

variable (window : Window s.c_next c bs o) (strict : CBSIZE * (bs.length - 1) < o + c.c_cc)
  (nodup : bs.Nodup)

include window strict nodup

/-- The window of the characters after the first one. -/
lemma Window.following (more : 1 < c.c_cc) :
    ∃ bs' o', Window s.c_next ⟨c.c_cc - 1, s.following c.c_cf, c.c_cl⟩ bs' o' ∧
      CBSIZE * (bs'.length - 1) < o' + (c.c_cc - 1) ∧ bs'.Nodup ∧ contents s.c_info bs o c.c_cc =
        s.c_info c.c_cf :: contents s.c_info bs' o' (c.c_cc - 1) := by
  obtain ⟨b, rest, rfl, head⟩ := window.first
  have low := window.low
  have succ : c.c_cc - 1 + 1 = c.c_cc := by omega
  have split : contents s.c_info (b :: rest) o (c.c_cc - 1 + 1) = _ := contents_succ low
  rw [succ, ← head] at split
  obtain ⟨boundary, block⟩ := window.boundary Nat.one_pos low
  unfold State.following
  by_cases full : o + 1 = CBSIZE
  · obtain ⟨-, moved⟩ := window.nextBlock more full
    rw [if_pos (boundary.mpr full), block full]
    refine ⟨rest, 0, moved, ?_, (nodup_cons.mp nodup).2, ?_⟩
    · simp only [length_cons, CBSIZE] at *
      omega
    · rw [split, full, contents_block]
  · rw [if_neg fun last => full (boundary.mp last)]
    exact ⟨b :: rest, o + 1, window.forward (by omega) (by omega), by omega, nodup, split⟩

/-- The end pointer is just after the last character, and after no other one. -/
lemma Window.end_iff (some : 0 < c.c_cc) : c.c_cf + 1 = c.c_cl ↔ c.c_cc = 1 := by
  obtain ⟨init, l, r, rfl, bound, total, last⟩ := window.last
  obtain ⟨b, rest, split, head⟩ := window.first
  have low := window.low
  cases init with
  | nil =>
    obtain ⟨rfl, _⟩ := cons.inj split
    simp only [length_nil] at *
    omega
  | cons y init =>
    obtain ⟨rfl, _⟩ := cons.inj split
    have other : y ≠ l := by
      rintro rfl
      exact (nodup_cons.mp nodup).1 (by simp)
    simp only [length_append, length_cons, length_nil, CBLOCK, CBSIZE] at *
    omega

lemma Window.chars (n : ℕ) (count : c.c_cc = n + 1) :
    s.chars (n + 1) c.c_cf = contents s.c_info bs o c.c_cc := by
  induction n generalizing c bs o with
  | zero => exact (window.single count).symm
  | succ n ih =>
    obtain ⟨bs', o', moved, tight, nodup', split⟩ := window.following strict nodup (by omega)
    rw [split, State.chars]
    congr 1
    exact ih moved tight nodup' (by simp only; omega)

lemma Window.walk {q : Q} (n : ℕ) (count : c.c_cc = n + 1)
    (last : c.c_cl = (s.clist q).c_cl) (some : (s.clist q).c_cc ≠ 0) :
    s.walk q (n + 1) c.c_cf = Option.some (contents s.c_info bs o c.c_cc) := by
  induction n generalizing c bs o with
  | zero =>
    have stops := (window.end_iff strict nodup (by omega)).mpr count
    rw [last] at stops
    rw [State.walk, if_neg window.pointer, State.nextc, if_neg (fun both => both.2 stops),
      window.single count]
    rfl
  | succ n ih =>
    have goes : c.c_cf + 1 ≠ (s.clist q).c_cl := by
      rw [← last, ne_eq, window.end_iff strict nodup (by omega)]
      omega
    obtain ⟨bs', o', moved, tight, nodup', split⟩ := window.following strict nodup (by omega)
    have rest := ih moved tight nodup' (by simp only; omega) last
    rw [State.walk, if_neg window.pointer, State.nextc, if_pos ⟨some, goes⟩, rest, split]
    rfl

end

lemma Local.chars (h : Local s c fs bs o bytes) : s.chars c.c_cc c.c_cf = bytes := by
  rcases h.holds with ⟨_, rfl, rfl⟩ | ⟨window, some, strict, rfl⟩
  · rfl
  · obtain ⟨n, count⟩ := Nat.exists_eq_succ_of_ne_zero some.ne'
    rw [← window.chars strict (nodup_append.mp h.distinct).2.1 n count, count]

lemma Local.walk {q : Q} (h : Local s (s.clist q) fs bs o bytes) :
    s.walk q (s.clist q).c_cc (s.clist q).c_cf = Option.some bytes := by
  rcases h.holds with ⟨_, rfl, empty⟩ | ⟨window, some, strict, rfl⟩
  · rw [empty]
    rfl
  · obtain ⟨n, count⟩ := Nat.exists_eq_succ_of_ne_zero some.ne'
    rw [← window.walk strict (nodup_append.mp h.distinct).2.1 n count rfl
      some.ne', count]

/-- The characters that `ndqb` counts lie one after the other in memory. -/
lemma Local.ndqb {q : Q} (h : Local s (s.clist q) fs bs o bytes) :
    s.fetch (s.clist q).c_cf (s.ndqb q) = bytes.take (s.ndqb q) ∧ s.ndqb q ≤ bytes.length ∧
      (bytes ≠ [] → 0 < s.ndqb q) := by
  have length := h.length_bytes
  by_cases empty : (s.clist q).c_cc = 0
  · have nothing : bytes = [] := length_eq_zero_iff.mp (length.trans empty)
    simp [State.ndqb, empty, nothing, State.fetch]
  · obtain ⟨window, _, denotes⟩ := h.nonempty (Nat.pos_of_ne_zero empty)
    obtain ⟨b, rest, rfl, head⟩ := window.first
    have low := window.low
    have count : s.ndqb q = min (CBSIZE - o) (s.clist q).c_cc := by
      simp only [State.ndqb, if_neg empty]
      simp only [CBLOCK, CBSIZE] at *
      omega
    have small : s.ndqb q ≤ (s.clist q).c_cc := by omega
    refine ⟨?_, by omega, fun _ => by omega⟩
    rw [denotes, contents_take small]
    exact fetch_eq_contents s head (by omega)

end Clists
