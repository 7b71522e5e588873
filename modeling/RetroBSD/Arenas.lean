import Mathlib.Tactic

/-!
# Blocks in memory, linked in the order of their addresses

Every block starts with a word that holds the address of the next block and a bit that
says whether the block is in use; the last link leads to a top. Joining a free block with
the free block behind it keeps the blocks in use, with their extents.
-/

namespace Arenas

open List Prod

abbrev Memory := ℕ → ℕ

abbrev Block := ℕ × Bool

/-- The word in front of a block: the byte address of the next, with the bit in its last place. -/
def link (next : ℕ) (busy : Bool) : ℕ := 4 * next + busy.toNat

def testbusy (v : ℕ) : Bool := v % 2 == 1

def target (v : ℕ) : ℕ := v / 4

@[simp] lemma testbusy_link (next : ℕ) (busy : Bool) : testbusy (link next busy) = busy := by
  cases busy
  · simp only [testbusy, link, Bool.toNat_false, beq_eq_false_iff_ne]
    omega
  · simp only [testbusy, link, Bool.toNat_true, beq_iff_eq]
    omega

@[simp] lemma target_link (next : ℕ) (busy : Bool) : target (link next busy) = next := by
  have small : busy.toNat ≤ 1 := Bool.toNat_le busy
  simp only [target, link]
  omega

/-- The address of the first block, or the top. -/
def start : List Block → ℕ → ℕ
  | [], top => top
  | b :: _, _ => b.1

@[simp] lemma start_cons (b : Block) (bs : List Block) (top : ℕ) : start (b :: bs) top = b.1 := rfl

/-- The blocks stand in memory, one above the other, up to the top. -/
def Linked (mem : Memory) (top : ℕ) : List Block → Prop
  | [] => True
  | b :: bs => mem b.1 = link (start bs top) b.2 ∧ b.1 < start bs top ∧ Linked mem top bs

/-- The blocks in use, each with the address of the next block. -/
def held : List Block → ℕ → List (ℕ × ℕ)
  | [], _ => []
  | b :: bs, top => if b.2 then (b.1, start bs top) :: held bs top else held bs top

section Append

variable {mem : Memory} {top : ℕ}

@[simp] lemma start_append (pre post : List Block) (top : ℕ) :
    start (pre ++ post) top = start pre (start post top) := by
  cases pre <;> rfl

lemma linked_append (pre post : List Block) :
    Linked mem top (pre ++ post) ↔ Linked mem (start post top) pre ∧ Linked mem top post := by
  induction pre with
  | nil => exact (true_and _).symm.to_iff
  | cons b pre ih => simp [Linked, ih, and_assoc]

@[simp] lemma held_append (pre post : List Block) (top : ℕ) :
    held (pre ++ post) top = held pre (start post top) ++ held post top := by
  induction pre with
  | nil => rfl
  | cons b pre ih =>
    simp only [cons_append, held, start_append, ih]
    split_ifs <;> rfl

lemma held_split {bs : List Block} {h e : ℕ} (inside : (h, e) ∈ held bs top) :
    ∃ pre post, bs = pre ++ (h, true) :: post ∧ e = start post top := by
  induction bs with
  | nil => cases inside
  | cons b bs ih =>
    have later (tail : (h, e) ∈ held bs top) :
        ∃ pre post, b :: bs = pre ++ (h, true) :: post ∧ e = start post top := by
      obtain ⟨pre, post, rfl, rfl⟩ := ih tail
      exact ⟨b :: pre, post, rfl, rfl⟩
    rw [held] at inside
    split_ifs at inside with busy
    · rcases mem_cons.mp inside with same | tail
      · obtain ⟨rfl, rfl⟩ := Prod.ext_iff.mp same
        exact ⟨[], bs, by rw [← busy]; rfl, rfl⟩
      · exact later tail
    · exact later inside

end Append

namespace Linked

variable {mem mem' : Memory} {top : ℕ} {bs : List Block}

lemma start_le (linked : Linked mem top bs) : start bs top ≤ top := by
  induction bs with
  | nil => exact le_rfl
  | cons b bs ih => exact (linked.2.1.trans_le (ih linked.2.2)).le

variable {a : ℕ}

section

variable (linked : Linked mem top bs)
include linked

lemma lt_top (h : a ∈ bs.map fst) : a < top := by
  induction bs with
  | nil => cases h
  | cons b bs ih =>
    rcases mem_cons.mp h with rfl | h
    · exact linked.2.1.trans_le linked.2.2.start_le
    · exact ih linked.2.2 h

lemma start_le_of_mem (h : a ∈ bs.map fst) : start bs top ≤ a := by
  induction bs with
  | nil => cases h
  | cons b bs ih =>
    rcases mem_cons.mp h with rfl | h
    · exact le_rfl
    · exact linked.2.1.le.trans (ih linked.2.2 h)

lemma congr (same : ∀ a ∈ bs.map fst, mem' a = mem a) : Linked mem' top bs := by
  induction bs with
  | nil => trivial
  | cons b bs ih =>
    refine ⟨(same b.1 mem_cons_self).trans linked.1, linked.2.1, ih linked.2.2 ?_⟩
    exact fun a h => same a (mem_cons_of_mem _ h)

/-- A word behind the blocks, or in front of them, may change. -/
lemma update (away : a ∉ bs.map fst) (v : ℕ) : Linked (Function.update mem a v) top bs :=
  linked.congr fun b h => Function.update_of_ne (fun same : b = a => away (same ▸ h)) _ _

lemma length_le : bs.length + start bs top ≤ top := by
  induction bs with
  | nil => exact (Nat.zero_add _).le
  | cons b bs ih =>
    have := ih linked.2.2
    have := linked.2.1
    rw [length_cons, start]
    omega

/-- No block starts inside a block in use. -/
lemma held_apart {h e : ℕ} (inside : (h, e) ∈ held bs top) :
    h ∈ bs.map Prod.fst ∧ h < e ∧ e ≤ top ∧ ∀ a ∈ bs.map Prod.fst, a ≤ h ∨ e ≤ a := by
  induction bs with
  | nil => cases inside
  | cons b bs ih =>
    have later : ∀ p ∈ held bs top, p ∈ held (b :: bs) top → p = (h, e) →
        h ∈ (b :: bs).map Prod.fst ∧ h < e ∧ e ≤ top ∧
          ∀ a ∈ (b :: bs).map Prod.fst, a ≤ h ∨ e ≤ a := by
      rintro p tail - rfl
      obtain ⟨member, long, low, apart⟩ := ih linked.2.2 tail
      refine ⟨mem_cons_of_mem _ member, long, low, fun a ha => ?_⟩
      rcases mem_cons.mp ha with rfl | ha
      · exact .inl (linked.2.1.le.trans (linked.2.2.start_le_of_mem member))
      · exact apart a ha
    rw [held] at inside
    split_ifs at inside with busy
    · rcases mem_cons.mp inside with same | tail
      · obtain ⟨rfl, rfl⟩ := Prod.ext_iff.mp same
        refine ⟨mem_cons_self, linked.2.1, linked.2.2.start_le, fun a ha => ?_⟩
        rcases mem_cons.mp ha with rfl | ha
        · exact .inl le_rfl
        · exact .inr (linked.2.2.start_le_of_mem ha)
      · exact later _ tail (by rw [held, if_pos busy]; exact inside) rfl
    · exact later _ inside (by rw [held, if_neg busy]; exact inside) rfl

/-- Two blocks in use that are not the same do not overlap. -/
lemma held_disjoint {h e h' e' : ℕ}
    (one : (h, e) ∈ held bs top) (two : (h', e') ∈ held bs top) (differ : h ≠ h') :
    e ≤ h' ∨ e' ≤ h := by
  obtain ⟨member, -, -, apart⟩ := linked.held_apart one
  obtain ⟨member', -, -, apart'⟩ := linked.held_apart two
  have := apart h' member'
  have := apart' h member
  omega

end

end Linked

/-- Free blocks are joined with the free block in front of them, one after another. -/
inductive Merge : List Block → List Block → Prop where
  | refl (bs : List Block) : Merge bs bs
  | join (pre : List Block) (a b : ℕ) {post cs : List Block} :
      Merge (pre ++ (a, false) :: post) cs →
      Merge (pre ++ (a, false) :: (b, false) :: post) cs

namespace Merge

variable {as bs cs : List Block}

lemma trans (m : Merge as bs) (n : Merge bs cs) : Merge as cs := by
  induction m with
  | refl => exact n
  | join pre a b _ ih => exact .join pre a b (ih n)

lemma append_left (left : List Block) (m : Merge bs cs) : Merge (left ++ bs) (left ++ cs) := by
  induction m with
  | refl => exact .refl _
  | join pre a b _ ih =>
    rw [← append_assoc] at ih ⊢
    exact .join _ a b ih

lemma cons (b : Block) (m : Merge bs cs) : Merge (b :: bs) (b :: cs) := m.append_left [b]

lemma head_eq (m : Merge bs cs) : cs.head? = bs.head? := by
  induction m with
  | refl => rfl
  | join pre a b _ ih =>
    rw [ih]
    cases pre <;> rfl

lemma joinAll (a : ℕ) {frees : List Block} (free : ∀ b ∈ frees, b.2 = false)
    (m : Merge bs cs) : Merge ((a, false) :: (frees ++ bs)) ((a, false) :: cs) := by
  induction frees with
  | nil => exact m.cons _
  | cons b frees ih =>
    have head : b = (b.1, false) := Prod.ext rfl (free b mem_cons_self)
    rw [head]
    exact .join [] a b.1 (ih fun c h => free c (mem_cons_of_mem _ h))

lemma start_eq (m : Merge bs cs) (top : ℕ) : start cs top = start bs top := by
  induction m with
  | refl => rfl
  | join pre a b _ ih =>
    rw [ih, start_append, start_append]
    rfl

lemma held_eq (m : Merge bs cs) (top : ℕ) : held cs top = held bs top := by
  induction m with
  | refl => rfl
  | join pre a b _ ih =>
    rw [ih, held_append, held_append]
    rfl

lemma subset (m : Merge bs cs) {x : ℕ} (h : x ∈ cs.map fst) : x ∈ bs.map fst := by
  induction m with
  | refl => exact h
  | join pre a b _ ih =>
    have := ih h
    simp only [map_append, map_cons, mem_append, mem_cons] at this ⊢
    tauto

end Merge

/-- `x` is the top, or a block that is not free behind a free one; `prev` says whether what
stands in front of the list is in use. -/
def Firm (top x : ℕ) : Bool → List Block → Prop
  | _, [] => x = top
  | prev, b :: bs => (b.1 = x ∧ (prev = true ∨ b.2 = true)) ∨ Firm top x b.2 bs

variable {prev : Bool} {top x : ℕ}

lemma Firm.join {a b : ℕ} (pre : List Block) {post : List Block}
    (firm : Firm top x prev (pre ++ (a, false) :: (b, false) :: post)) :
    Firm top x prev (pre ++ (a, false) :: post) := by
  induction pre generalizing prev with
  | nil =>
    rcases firm with here | ⟨-, busy⟩ | later
    · exact .inl here
    · rcases busy with busy | busy <;> cases busy
    · exact .inr later
  | cons c pre ih =>
    rcases firm with here | later
    · exact .inl here
    · exact .inr (ih later)

lemma Firm.merge {bs cs : List Block} (m : Merge bs cs)
    (firm : Firm top x prev bs) : Firm top x prev cs := by
  induction m with
  | refl => exact firm
  | join pre a b _ ih => exact ih (firm.join pre)

lemma Firm.mem {bs : List Block} (firm : Firm top x prev bs) : x ∈ bs.map fst ∨ x = top := by
  induction bs generalizing prev with
  | nil => exact .inr firm
  | cons b bs ih =>
    rcases firm with ⟨rfl, -⟩ | later
    · exact .inl mem_cons_self
    · exact (ih later).imp_left (mem_cons_of_mem _)

end Arenas
