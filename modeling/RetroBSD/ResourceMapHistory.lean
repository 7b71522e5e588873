import RetroBSD.ResourceMap

/-!
# The three-segment allocation and histories of a resource map

`malloc3` walks the map once, taking the data, stack and u. segments from the
first slots that hold them, and uses size 0 as a mark for the slots it has used
up. The first part says what that walk does to each slot; the second part is
about arbitrary histories of `malloc`, `malloc3` and `mfree`.
-/

namespace ResourceMap

open Runs List

def taken (sizes : Fin 3 → Nat) (madd : Madd) (i : Nat) : Nat :=
  ∑ next, if madd next = some i then sizes next else 0

lemma tryNext_taken (sizes : Fin 3 → Nat) (bp : Nat) (st : Nat × Madd) (next : Fin 3) :
    (tryNext sizes bp st next).1 + taken sizes (tryNext sizes bp st next).2 bp =
        st.1 + taken sizes st.2 bp ∧
      ∀ i, i ≠ bp → taken sizes (tryNext sizes bp st next).2 i = taken sizes st.2 i := by
  unfold tryNext
  split
  · next chosen =>
    obtain ⟨unset, fits⟩ := chosen
    have new : ∀ i, taken sizes (Function.update st.2 next (some bp)) i =
        taken sizes st.2 i + if i = bp then sizes next else 0 := by
      intro i
      simp only [taken, Fin.sum_univ_three]
      fin_cases next <;> simp at unset ⊢ <;> simp [unset, eq_comm] <;> omega
    refine ⟨?_, fun i hi => ?_⟩
    · simp only [new, if_true]; omega
    · simp [new, hi]
  · exact ⟨rfl, fun _ _ => rfl⟩

/-- A position that was not recorded may be by now. -/
def Recorded (bp : Nat) (old new : Option Nat) : Prop := new = old ∨ (old = none ∧ new = some bp)

lemma Recorded.trans {bp : Nat} {x y z : Option Nat} (first : Recorded bp x y)
    (second : Recorded bp y z) : Recorded bp x z := by
  rcases first with rfl | ⟨rfl, rfl⟩
  · exact second
  · rcases second with rfl | ⟨unset, -⟩
    · exact .inr ⟨rfl, rfl⟩
    · cases unset

lemma tryNext_madd (sizes : Fin 3 → Nat) (bp : Nat) (st : Nat × Madd) (next n : Fin 3) :
    Recorded bp (st.2 n) ((tryNext sizes bp st next).2 n) := by
  unfold tryNext
  split
  · next chosen =>
    by_cases same : n = next
    · subst n
      exact .inr ⟨chosen.1, by simp⟩
    · exact .inl (by simp [same])
  · exact .inl rfl

lemma trySlot_taken (sizes : Fin 3 → Nat) (bp : Nat) (st : Nat × Madd) :
    (trySlot sizes bp st).1 + taken sizes (trySlot sizes bp st).2 bp = st.1 + taken sizes st.2 bp ∧
      ∀ i, i ≠ bp → taken sizes (trySlot sizes bp st).2 i = taken sizes st.2 i := by
  have h0 := tryNext_taken sizes bp st 0
  have h1 := tryNext_taken sizes bp (tryNext sizes bp st 0) 1
  have h2 := tryNext_taken sizes bp (tryNext sizes bp (tryNext sizes bp st 0) 1) 2
  refine ⟨h2.1.trans (h1.1.trans h0.1), fun i hi => ?_⟩
  exact (h2.2 i hi).trans ((h1.2 i hi).trans (h0.2 i hi))

lemma trySlot_madd (sizes : Fin 3 → Nat) (bp : Nat) (st : Nat × Madd) (n : Fin 3) :
    Recorded bp (st.2 n) ((trySlot sizes bp st).2 n) :=
  ((tryNext_madd sizes bp st 0 n).trans (tryNext_madd sizes bp _ 1 n)).trans
    (tryNext_madd sizes bp _ 2 n)

/-- The positions recorded so far lie before `bp`. -/
def Before (bp : Nat) (madd : Madd) : Prop := ∀ n j, madd n = some j → j < bp

variable {a sizes : Fin 3 → Nat} {segs slots unused : List MapEnt}
  {st : List MapEnt × (Fin 3 → Nat)} {madd : Madd} {mp : Map} {i : Nat} {r : Search}

lemma taken_eq_zero (untouched : ∀ n, madd n ≠ some i) : taken sizes madd i = 0 := by
  simp [taken, untouched]

/-- What the search does to the slots from `bp` on. -/
structure Searched (sizes : Fin 3 → Nat) (bp : Nat) (madd : Madd) (slots : List MapEnt)
    (r : Search) : Prop where
  length : r.m_map.length = slots.length
  addr : ∀ k, (r.m_map.getD k terminator).m_addr = (slots.getD k terminator).m_addr
  size : ∀ k, (r.m_map.getD k terminator).m_size + taken sizes r.madd (bp + k) =
    (slots.getD k terminator).m_size
  madd : ∀ n, r.madd n = madd n ∨
    (madd n = none ∧ ∃ k, r.madd n = some (bp + k) ∧ k < inUse slots)
  remap : ∀ p, r.remap = some p → ∃ k, p = bp + k ∧ k < inUse slots ∧
    (r.m_map.getD k terminator).m_size = 0 ∧
    ∀ k', k' < k → (r.m_map.getD k' terminator).m_size ≠ 0
  noRemap : r.remap = none → ∀ k, k < inUse slots → (r.m_map.getD k terminator).m_size ≠ 0

lemma inUse_size (slots : List MapEnt) (k : Nat) (used : k < inUse slots) :
    (slots.getD k terminator).m_size ≠ 0 := by
  induction slots generalizing k with
  | nil => simp [inUse] at used
  | cons e rest ih =>
    by_cases h : e.m_size ≠ 0
    · cases k with
      | zero => simpa using h
      | succ k => exact ih k (by simp only [inUse, if_pos h] at used; omega)
    · simp [inUse, h] at used

/-- Ending the search leaves the slots it has not reached as they are. -/
lemma searched_idle {bp : Nat} (slots : List MapEnt)
    (before : Before bp madd) : Searched sizes bp madd slots ⟨slots, madd, none⟩ := by
  refine ⟨rfl, fun _ => rfl, fun k => ?_, fun n => .inl rfl, by simp, fun _ => inUse_size slots⟩
  have idle : taken sizes madd (bp + k) = 0 := taken_eq_zero (fun n h => by
    have := before n _ h
    omega)
  simp [idle]

/-- One slot in use, and then the rest of the search. -/
lemma searched_cons {bp left : Nat} {madd' : Madd} {e : MapEnt}
    {rest : List MapEnt} (used : e.m_size ≠ 0) (here : left + taken sizes madd' bp = e.m_size)
    (placed : ∀ n, Recorded bp (madd n) (madd' n)) (later : Searched sizes (bp + 1) madd' rest r) :
    Searched sizes bp madd (e :: rest) ⟨⟨left, e.m_addr⟩ :: r.m_map, r.madd,
      (if left = 0 then some bp else none).or r.remap⟩ := by
  have count : inUse (e :: rest) = inUse rest + 1 := by simp [inUse, used]
  have fixed : ∀ n, r.madd n = some bp ↔ madd' n = some bp := by
    intro n
    rcases later.madd n with same | ⟨unset, k, new, _⟩
    · rw [same]
    · simp [new, unset]
      omega
  have settled : taken sizes r.madd bp = taken sizes madd' bp := by simp [taken, fixed]
  refine ⟨by simp [later.length], ?_, ?_, ?_, ?_, ?_⟩
  · intro k
    cases k with
    | zero => rfl
    | succ k => exact later.addr k
  · intro k
    cases k with
    | zero => simpa [settled] using here
    | succ k => simpa [add_assoc, add_comm 1] using later.size k
  · intro n
    rcases later.madd n with same | ⟨unset, k, new, inside⟩
    · rcases placed n with old | ⟨unset, new⟩
      · exact .inl (same.trans old)
      · exact .inr ⟨unset, 0, same.trans new, by omega⟩
    · rcases placed n with old | ⟨_, new'⟩
      · exact .inr ⟨old.symm.trans unset, k + 1, by rw [new]; congr 1; omega, by omega⟩
      · rw [unset] at new'
        cases new'
  · intro p hp
    by_cases emptied : left = 0
    · refine ⟨0, ?_, by omega, by simpa using emptied, by omega⟩
      simpa [emptied, eq_comm] using hp
    · rw [if_neg emptied] at hp
      obtain ⟨k, rfl, inside, zero, first⟩ := later.remap p hp
      refine ⟨k + 1, by omega, by omega, zero, fun k' hk' => ?_⟩
      cases k' with
      | zero => simpa using emptied
      | succ k' => exact first k' (by omega)
  · intro hnone k hk
    have emptied : left ≠ 0 := by
      intro h
      simp [h] at hnone
    rw [if_neg emptied] at hnone
    cases k with
    | zero => simpa using emptied
    | succ k => exact later.noRemap hnone k (by omega)

lemma searched (sizes : Fin 3 → Nat) (bp : Nat) (madd : Madd) (slots : List MapEnt)
    (before : Before bp madd) : Searched sizes bp madd slots (search sizes bp madd slots) := by
  induction slots generalizing bp madd with
  | nil => exact searched_idle [] before
  | cons e rest ih =>
    by_cases ended : e.m_size = 0
    · simpa [search, ended] using searched_idle _ before
    have fresh : taken sizes madd bp = 0 := taken_eq_zero (fun n h => by
      have := before n _ h
      omega)
    have here := (trySlot_taken sizes bp (e.m_size, madd)).1
    rw [fresh] at here
    have placed := trySlot_madd sizes bp (e.m_size, madd)
    have before' : Before (bp + 1) (trySlot sizes bp (e.m_size, madd)).2 := by
      intro n j hj
      rcases placed n with same | ⟨_, new⟩
      · have := before n j (same.symm.trans hj)
        omega
      · rw [new] at hj
        cases hj
        omega
    by_cases done : complete (trySlot sizes bp (e.m_size, madd)).2 = true
    · simpa [search, ended, done] using searched_cons ended here placed (searched_idle rest before')
    · simpa [search, ended, done] using searched_cons ended here placed (ih _ _ before')

/-- Adding to one slot what `madd` says, and leaving the others alone. -/
lemma getD_modify (slots : List MapEnt) (i k : Nat) (f : MapEnt → MapEnt) (inside : i < slots.length) :
    (slots.modify i f).getD k terminator =
      if some i = some k then f (slots.getD k terminator) else slots.getD k terminator := by
  by_cases same : i = k
  · subst k
    simp [inside]
  · simp [same]

lemma ext_getD {slots' : List MapEnt} (length : slots.length = slots'.length)
    (same : ∀ k, k < slots.length → slots.getD k terminator = slots'.getD k terminator) :
    slots = slots' := by
  refine ext_getElem length (fun k h h' => ?_)
  simpa [h, h'] using same k h

/-- All positions recorded in `madd` are slots of the array. -/
def Inside (slots : List MapEnt) (madd : Madd) : Prop := ∀ n j, madd n = some j → j < slots.length

lemma giveBack_length (sizes : Fin 3 → Nat) (madd : Madd) (slots : List MapEnt) (next : Fin 3) :
    (giveBack sizes madd slots next).length = slots.length := by
  unfold giveBack
  split <;> simp

lemma giveBack_getD (next : Fin 3) (inside : Inside slots madd) (k : Nat) :
    (giveBack sizes madd slots next).getD k terminator =
      ⟨(slots.getD k terminator).m_size + if madd next = some k then sizes next else 0,
        (slots.getD k terminator).m_addr⟩ := by
  unfold giveBack
  split
  · next i chosen =>
    rw [getD_modify _ _ _ _ (inside next i chosen), chosen]
    split_ifs <;> rfl
  · next unset => simp [unset]

/-- A failed `malloc3` leaves the array as it was. -/
lemma giveBack_restores {slots' : List MapEnt}
    (length : slots.length = slots'.length) (inside : Inside slots madd)
    (addr : ∀ k, (slots.getD k terminator).m_addr = (slots'.getD k terminator).m_addr)
    (size : ∀ k, (slots.getD k terminator).m_size + taken sizes madd k =
      (slots'.getD k terminator).m_size) :
    giveBack sizes madd (giveBack sizes madd (giveBack sizes madd slots 0) 1) 2 = slots' := by
  have inside1 : Inside (giveBack sizes madd slots 0) madd := by
    simpa [Inside, giveBack_length] using inside
  have inside2 : Inside (giveBack sizes madd (giveBack sizes madd slots 0) 1) madd := by
    simpa [Inside, giveBack_length] using inside
  refine ext_getD (by simp [giveBack_length, length]) (fun k _ => ?_)
  rw [giveBack_getD 2 inside2, giveBack_getD 1 inside1, giveBack_getD 0 inside]
  have hs := size k
  have ha := addr k
  simp only [taken, Fin.sum_univ_three] at hs
  rw [ha, add_assoc, add_assoc, ← add_assoc (if madd 0 = some k then sizes 0 else 0), hs]

lemma resolve_length (sizes : Fin 3 → Nat) (madd : Madd) (st : List MapEnt × (Fin 3 → Nat))
    (next : Fin 3) : (resolve sizes madd st next).1.length = st.1.length := by
  unfold resolve
  split <;> simp

lemma resolve_getD (next : Fin 3) (inside : Inside st.1 madd) (k : Nat) :
    (resolve sizes madd st next).1.getD k terminator = ⟨(st.1.getD k terminator).m_size,
        (st.1.getD k terminator).m_addr + if madd next = some k then sizes next else 0⟩ := by
  unfold resolve
  split
  · next i chosen =>
    rw [getD_modify _ _ _ _ (inside next i chosen), chosen]
    split_ifs <;> rfl
  · next unset => simp [unset]

lemma resolve_a {next : Fin 3} (chosen : madd next = some i) : (resolve sizes madd st next).2 =
      Function.update st.2 next (st.1.getD i terminator).m_addr := by
  simp [resolve, chosen]

/-- The three rounds of `resolve` in turn. -/
def resolveAll (sizes : Fin 3 → Nat) (madd : Madd) (st : List MapEnt × (Fin 3 → Nat)) :
    List MapEnt × (Fin 3 → Nat) :=
  resolve sizes madd (resolve sizes madd (resolve sizes madd st 0) 1) 2

lemma resolveAll_length (sizes : Fin 3 → Nat) (madd : Madd) (st : List MapEnt × (Fin 3 → Nat)) :
    (resolveAll sizes madd st).1.length = st.1.length := by
  simp [resolveAll, resolve_length]

lemma resolveAll_getD (inside : Inside st.1 madd) (k : Nat) :
    (resolveAll sizes madd st).1.getD k terminator =
      ⟨(st.1.getD k terminator).m_size, (st.1.getD k terminator).m_addr + taken sizes madd k⟩ := by
  have inside1 : Inside (resolve sizes madd st 0).1 madd := by
    simpa [Inside, resolve_length] using inside
  have inside2 : Inside (resolve sizes madd (resolve sizes madd st 0) 1).1 madd := by
    simpa [Inside, resolve_length] using inside
  rw [resolveAll, resolve_getD 2 inside2, resolve_getD 1 inside1, resolve_getD 0 inside]
  simp [taken, Fin.sum_univ_three, add_assoc]

/-- Within its slot a segment comes after those of the earlier rounds. -/
lemma resolveAll_a (sizes : Fin 3 → Nat) (st : List MapEnt × (Fin 3 → Nat))
    (inside : Inside st.1 madd) {i₀ i₁ i₂ : Nat} (h₀ : madd 0 = some i₀) (h₁ : madd 1 = some i₁)
    (h₂ : madd 2 = some i₂) : (resolveAll sizes madd st).2 0 = (st.1.getD i₀ terminator).m_addr ∧
    (resolveAll sizes madd st).2 1 = (st.1.getD i₁ terminator).m_addr +
      (if i₀ = i₁ then sizes 0 else 0) ∧
    (resolveAll sizes madd st).2 2 = (st.1.getD i₂ terminator).m_addr +
      (if i₀ = i₂ then sizes 0 else 0) + (if i₁ = i₂ then sizes 1 else 0) := by
  have inside1 : Inside (resolve sizes madd st 0).1 madd := by
    simpa [Inside, resolve_length] using inside
  rw [resolveAll, resolve_a h₂, resolve_a h₁, resolve_a h₀, resolve_getD 1 inside1,
    resolve_getD 0 inside, resolve_getD 0 inside, h₀, h₁]
  simp [Function.update]

lemma kept_segments (placed : ∀ e ∈ segs, e.m_addr ≠ 0) : kept (segs ++ terminator :: unused) =
      segs.filter (fun e => e.m_size ≠ 0) ++ [terminator] := by
  induction segs with
  | nil => simp [kept, terminator]
  | cons e segs ih =>
    have he := placed e mem_cons_self
    have tail := ih (fun f hf => placed f (mem_cons_of_mem e hf))
    by_cases empty : e.m_size = 0
    · simp [kept, empty, he, tail]
    · simp [kept, empty, he, tail]

/-- Squeezing removes exactly the segments of size 0. -/
lemma squeeze_segments (unused : List MapEnt) (remap : Option Nat)
    (placed : ∀ e ∈ segs.tail, e.m_addr ≠ 0)
    (first : ∀ p, remap = some p → p < segs.length ∧ (segs.getD p terminator).m_size = 0 ∧
      ∀ k, k < p → (segs.getD k terminator).m_size ≠ 0)
    (absent : remap = none → ∀ e ∈ segs, e.m_size ≠ 0) :
    ∃ unused', squeeze (segs ++ terminator :: unused) remap =
      segs.filter (fun e => e.m_size ≠ 0) ++ terminator :: unused' := by
  cases remap with
  | none =>
    refine ⟨unused, ?_⟩
    rw [filter_eq_self.mpr (by simpa using absent rfl)]
    rfl
  | some p =>
    obtain ⟨inside, empty, nonempty⟩ := first p rfl
    obtain ⟨pre, e, post, rfl, rfl⟩ : ∃ pre e post, segs = pre ++ e :: post ∧ pre.length = p :=
      ⟨segs.take p, segs[p], segs.drop (p + 1), by simp, by simp; omega⟩
    have hpre : pre.filter (fun e => e.m_size ≠ 0) = pre := by
      refine filter_eq_self.mpr (fun f hf => ?_)
      obtain ⟨k, hk, rfl⟩ := getElem_of_mem hf
      have := nonempty k hk
      simpa [getElem?_append_left hk, hk] using this
    have he : e.m_size = 0 := by simpa [getD_eq_getElem?_getD] using empty
    have hpost : ∀ f ∈ post, f.m_addr ≠ 0 := by
      intro f hf
      refine placed f ?_
      cases pre <;> simp [hf]
    simp only [squeeze]
    have dropped : (pre ++ e :: post ++ terminator :: unused).drop (pre.length + 1) =
        post ++ terminator :: unused := by
      simp
    rw [dropped, kept_segments hpost]
    generalize drop _ _ = later
    refine ⟨later, ?_⟩
    rw [filter_append, hpre, filter_cons_of_neg (by simp [he])]
    simp

lemma searched_within (searched : Searched sizes 0 (fun _ => none) slots r) (n : Fin 3) (j : Nat)
    (hj : r.madd n = some j) : j < inUse slots := by
  rcases searched.madd n with same | ⟨_, k, new, inside⟩
  · rw [same] at hj
    cases hj
  · rw [new] at hj
    cases hj
    omega

lemma inUse_le_length (slots : List MapEnt) : inUse slots ≤ slots.length := by
  induction slots with
  | nil => simp [inUse]
  | cons e rest ih =>
    simp only [inUse, length_cons]
    split <;> omega

lemma searched_inside
    (searched : Searched sizes 0 (fun _ => none) slots r) : Inside r.m_map r.madd := by
  intro n j hj
  have := searched_within searched n j hj
  have := inUse_le_length slots
  rw [searched.length]
  omega

/-- Each segment has lost at its low end what was taken from it. -/
structure Trimmed (sizes : Fin 3 → Nat) (madd : Madd) (segs segs' : List MapEnt) : Prop where
  length : segs'.length = segs.length
  addr : ∀ k, k < segs.length → (segs'.getD k terminator).m_addr =
    (segs.getD k terminator).m_addr + taken sizes madd k
  size : ∀ k, k < segs.length → (segs'.getD k terminator).m_size + taken sizes madd k =
    (segs.getD k terminator).m_size

lemma mem_covered_iff_getD (segs : List MapEnt) (x : Nat) :
    x ∈ covered segs ↔ ∃ k, k < segs.length ∧ (segs.getD k terminator).m_addr ≤ x ∧
      x < (segs.getD k terminator).m_addr + (segs.getD k terminator).m_size := by
  constructor
  · rintro ⟨e, he, hx⟩
    obtain ⟨k, hk, rfl⟩ := getElem_of_mem he
    exact ⟨k, hk, by simpa [hk] using hx⟩
  · rintro ⟨k, hk, hx⟩
    refine ⟨segs[k], getElem_mem hk, ?_⟩
    simpa [hk] using hx

lemma apart_iff_getD (segs : List MapEnt) : Apart segs ↔ ∀ i j, i < j → j < segs.length →
    (segs.getD i terminator).m_addr + (segs.getD i terminator).m_size <
      (segs.getD j terminator).m_addr := by
  rw [Apart, pairwise_iff_getElem]
  constructor
  · intro h i j hij hj
    have hi : i < segs.length := by omega
    simpa [hi, hj] using h i j hi hj hij
  · intro h i j hi hj hij
    simpa [hi, hj] using h i j hij hj

lemma trimmed_apart {segs' : List MapEnt}
    (trimmed : Trimmed sizes madd segs segs') (apart : Apart segs) : Apart segs' := by
  rw [apart_iff_getD] at apart ⊢
  intro i j hij hj
  rw [trimmed.length] at hj
  have := apart i j hij hj
  have := trimmed.addr i (by omega)
  have := trimmed.size i (by omega)
  have := trimmed.addr j hj
  omega

lemma apart_filter (p : MapEnt → Bool) (apart : Apart segs) :
    Apart (segs.filter p) := List.Pairwise.filter p apart

lemma covered_filter (segs : List MapEnt) :
    covered (segs.filter (fun e => e.m_size ≠ 0)) = covered segs := by
  ext x
  constructor
  · rintro ⟨e, he, hx⟩
    exact ⟨e, (mem_filter.mp he).1, hx⟩
  · rintro ⟨e, he, hx⟩
    refine ⟨e, mem_filter.mpr ⟨he, ?_⟩, hx⟩
    simp only [decide_not, Bool.not_eq_eq_eq_not, Bool.not_true, decide_eq_false_iff_not]
    omega

def occupied (sizes a : Fin 3 → Nat) : Set Nat := ⋃ i, Set.Ico (a i) (a i + sizes i)

/-- Where `malloc3` puts the three segments. -/
structure Placed (sizes : Fin 3 → Nat) (madd : Madd) (segs : List MapEnt) (a : Fin 3 → Nat) :
    Prop where
  slot : ∀ n, ∃ i, madd n = some i ∧ i < segs.length
  first : ∀ i, madd 0 = some i → a 0 = (segs.getD i terminator).m_addr
  second : ∀ i, madd 1 = some i → a 1 = (segs.getD i terminator).m_addr +
    (if madd 0 = some i then sizes 0 else 0)
  third : ∀ i, madd 2 = some i → a 2 = (segs.getD i terminator).m_addr +
    (if madd 0 = some i then sizes 0 else 0) + (if madd 1 = some i then sizes 1 else 0)

/-- The units taken from one segment are those of the segments placed in it. -/
lemma placed_in_segment (placed : Placed sizes madd segs a) (i x : Nat) :
    ((segs.getD i terminator).m_addr ≤ x ∧
        x < (segs.getD i terminator).m_addr + taken sizes madd i) ↔
      ∃ n, madd n = some i ∧ a n ≤ x ∧ x < a n + sizes n := by
  have h0 := placed.first i
  have h1 := placed.second i
  have h2 := placed.third i
  simp only [taken, Fin.sum_univ_three, Fin.exists_fin_succ]
  by_cases m0 : madd 0 = some i <;> by_cases m1 : madd 1 = some i <;>
    by_cases m2 : madd 2 = some i <;> simp_all <;> omega

lemma segment_unique (apart : Apart segs) {j x : Nat} (hi : i < segs.length) (hj : j < segs.length)
    (inI : (segs.getD i terminator).m_addr ≤ x ∧
      x < (segs.getD i terminator).m_addr + (segs.getD i terminator).m_size)
    (inJ : (segs.getD j terminator).m_addr ≤ x ∧
      x < (segs.getD j terminator).m_addr + (segs.getD j terminator).m_size) : i = j := by
  rw [apart_iff_getD] at apart
  rcases Nat.lt_trichotomy i j with lt | eq | gt
  · have := apart i j lt hj
    omega
  · exact eq
  · have := apart j i gt hi
    omega

section Success

variable {sizes : Fin 3 → Nat} {madd : Madd} {segs segs' : List MapEnt} {a : Fin 3 → Nat}
  (placed : Placed sizes madd segs a) (trimmed : Trimmed sizes madd segs segs')
  (apart : Apart segs)

include placed trimmed in
/-- A unit of the `n`th segment lies in the part of a free segment that was taken. -/
lemma placed_origin {n : Fin 3} {x : Nat} (hx : a n ≤ x ∧ x < a n + sizes n) :
    ∃ i, madd n = some i ∧ i < segs.length ∧ (segs.getD i terminator).m_addr ≤ x ∧
      x < (segs.getD i terminator).m_addr + taken sizes madd i ∧
      taken sizes madd i ≤ (segs.getD i terminator).m_size := by
  obtain ⟨i, chosen, inside⟩ := placed.slot n
  have low := (placed_in_segment placed i x).mpr ⟨n, chosen, hx⟩
  have := trimmed.size i inside
  exact ⟨i, chosen, inside, low.1, low.2, by omega⟩

include placed trimmed in
lemma placed_free (n : Fin 3) : Set.Ico (a n) (a n + sizes n) ⊆ covered segs := by
  intro x hx
  obtain ⟨i, _, inside, low, high, _⟩ := placed_origin placed trimmed (Set.mem_Ico.mp hx)
  exact (mem_covered_iff_getD segs x).mpr ⟨i, inside, low, by omega⟩

include placed trimmed apart in
lemma placed_disjoint {n m : Fin 3} (different : n ≠ m) :
    Disjoint (Set.Ico (a n) (a n + sizes n)) (Set.Ico (a m) (a m + sizes m)) := by
  rw [Set.disjoint_left]
  intro x hn hm
  obtain ⟨i, hi, insideI, lowI, highI, _⟩ := placed_origin placed trimmed hn
  obtain ⟨j, hj, insideJ, lowJ, highJ, _⟩ := placed_origin placed trimmed hm
  have same := segment_unique apart insideI insideJ ⟨lowI, by omega⟩ ⟨lowJ, by omega⟩
  have h0 := placed.first i
  have h1 := placed.second i
  have h2 := placed.third i
  fin_cases n <;> fin_cases m <;> simp_all <;> omega

include placed trimmed apart in
lemma trimmed_covered : covered segs' = covered segs \ occupied sizes a := by
  ext x
  rw [Set.mem_sdiff, mem_covered_iff_getD, mem_covered_iff_getD, occupied, Set.mem_iUnion,
    trimmed.length]
  constructor
  · rintro ⟨k, hk, low, high⟩
    have haddr := trimmed.addr k hk
    have hsize := trimmed.size k hk
    refine ⟨⟨k, hk, by omega, by omega⟩, ?_⟩
    rintro ⟨n, hn⟩
    obtain ⟨i, _, inside, lowI, highI, _⟩ := placed_origin placed trimmed (Set.mem_Ico.mp hn)
    have same := segment_unique apart hk inside ⟨by omega, by omega⟩ ⟨lowI, by omega⟩
    subst i
    omega
  · rintro ⟨⟨k, hk, low, high⟩, out⟩
    have haddr := trimmed.addr k hk
    have hsize := trimmed.size k hk
    refine ⟨k, hk, ?_, by omega⟩
    by_contra small
    obtain ⟨n, _, hn⟩ := (placed_in_segment placed k x).mp ⟨low, by omega⟩
    exact out ⟨n, Set.mem_Ico.mpr hn⟩

end Success

/-- Either nothing changes and 0 is returned, or three disjoint free intervals of
the sizes asked for are no longer free and `a` holds their addresses. -/
def Malloc3Effect (mp mp' : Map) (sizes a a' : Fin 3 → Nat) (r : Nat) : Prop :=
  (r = 0 ∧ a' = a ∧ mp' = mp) ∨
  (r = a' 2 ∧ (∀ n, Set.Ico (a' n) (a' n + sizes n) ⊆ free mp) ∧
    (∀ n m, n ≠ m → Disjoint (Set.Ico (a' n) (a' n + sizes n)) (Set.Ico (a' m) (a' m + sizes m))) ∧
    free mp' = free mp \ occupied sizes a' ∧
    ((∀ e ∈ segments mp.m_map, e.m_addr ≠ 0) → r ≠ 0))

/-- The array of a well-formed map once the search and `resolve` are through. -/
lemma resolved_trimmed
    (ended : slots = segs ++ terminator :: unused) (searched : Searched sizes 0 (fun _ => none) slots r)
    (used : inUse slots = segs.length) :
    ∃ segs', (resolveAll sizes r.madd (r.m_map, a)).1 = segs' ++ terminator :: unused ∧
      Trimmed sizes r.madd segs segs' := by
  have within := fun n j => used ▸ searched_within searched n j
  have inside := searched_inside searched
  have slotAt : ∀ k, (resolveAll sizes r.madd (r.m_map, a)).1.getD k terminator =
      ⟨(r.m_map.getD k terminator).m_size, (slots.getD k terminator).m_addr + taken sizes r.madd k⟩ := by
    intro k
    rw [resolveAll_getD inside, searched.addr]
  generalize hR : (resolveAll sizes r.madd _).1 = R at slotAt
  have lengthR : R.length = slots.length := by rw [← hR, resolveAll_length, searched.length]
  have sizeAt : ∀ k, (r.m_map.getD k terminator).m_size + taken sizes r.madd k =
      (slots.getD k terminator).m_size := by
    intro k
    have := searched.size k
    rwa [zero_add] at this
  have onSegs : ∀ k, k < segs.length → slots.getD k terminator = segs.getD k terminator := by
    intro k hk
    rw [ended, getD_append _ _ _ _ hk]
  refine ⟨R.take segs.length, ?_, ?_⟩
  · have rest : R.drop segs.length = terminator :: unused := by
      have tail : slots.drop segs.length = terminator :: unused := by rw [ended, drop_left]
      rw [← tail]
      refine ext_getD (by simp [lengthR]) (fun k _ => ?_)
      have untouched : taken sizes r.madd (segs.length + k) = 0 :=
        taken_eq_zero (fun n h => by have := within n _ h; omega)
      have hs := sizeAt (segs.length + k)
      have ha := slotAt (segs.length + k)
      rw [untouched, add_zero] at hs ha
      rw [hs] at ha
      simpa [getD_eq_getElem?_getD] using ha
    conv_lhs => rw [← take_append_drop segs.length R, rest]
  · have length : (R.take segs.length).length = segs.length := by
      rw [length_take, lengthR, ended, length_append]
      omega
    have taken : ∀ k, k < segs.length →
        (R.take segs.length).getD k terminator = R.getD k terminator := by
      intro k hk
      simp [hk]
    refine ⟨length, fun k hk => ?_, fun k hk => ?_⟩
    · rw [taken k hk, slotAt k, onSegs k hk]
    · rw [taken k hk, slotAt k]
      have := sizeAt k
      rwa [onSegs k hk] at this

lemma apart_tail_nonzero (apart : Apart segs) : ∀ e ∈ segs.tail, e.m_addr ≠ 0 := by
  cases segs with
  | nil => simp
  | cons f segs =>
    intro e he
    have := (pairwise_cons.mp apart).1 e he
    omega

lemma complete_iff (madd : Madd) : complete madd = true ↔ ∀ n, ∃ i, madd n = some i := by
  simp only [complete, Bool.and_eq_true, Option.isSome_iff_exists, Fin.forall_fin_succ]
  simp [and_assoc]

lemma searched_placed (ended : slots = segs ++ terminator :: unused)
    (searched : Searched sizes 0 (fun _ => none) slots r)
    (used : inUse slots = segs.length) (done : complete r.madd = true) :
    Placed sizes r.madd segs (resolveAll sizes r.madd (r.m_map, a)).2 := by
  have within := fun n j => used ▸ searched_within searched n j
  have inside := searched_inside searched
  have addrAt : ∀ k, k < segs.length →
      (r.m_map.getD k terminator).m_addr = (segs.getD k terminator).m_addr := by
    intro k hk
    rw [searched.addr, ended, getD_append _ _ _ _ hk]
  have slots := (complete_iff r.madd).mp done
  obtain ⟨i₀, h₀⟩ := slots 0
  obtain ⟨i₁, h₁⟩ := slots 1
  obtain ⟨i₂, h₂⟩ := slots 2
  obtain ⟨a₀, a₁, a₂⟩ := resolveAll_a sizes (r.m_map, a) inside h₀ h₁ h₂
  rw [addrAt _ (within 0 i₀ h₀)] at a₀
  rw [addrAt _ (within 1 i₁ h₁)] at a₁
  rw [addrAt _ (within 2 i₂ h₂)] at a₂
  refine ⟨fun n => ?_, fun i hi => ?_, fun i hi => ?_, fun i hi => ?_⟩
  · obtain ⟨i, hi⟩ := slots n
    exact ⟨i, hi, within n i hi⟩
  · rw [h₀] at hi
    cases hi
    exact a₀
  · rw [h₁] at hi
    cases hi
    simpa [h₀] using a₁
  · rw [h₂] at hi
    cases hi
    simpa [h₀, h₁] using a₂

/-- `malloc3` that finds all three segments: what is left of the segments, without the slots that
have been used up. -/
lemma malloc3_done (wf : WellFormed mp) (d_size s_size u_size : Nat) (a : Fin 3 → Nat)
    (walked : search ![d_size, s_size, u_size] 0 (fun _ => none) mp.m_map = r)
    (done : complete r.madd = true) :
    ∃ a' segs' unused', malloc3 mp d_size s_size u_size a = (a' 2, a',
        { mp with m_map := segs'.filter (fun e => e.m_size ≠ 0) ++ terminator :: unused' }) ∧
      Trimmed ![d_size, s_size, u_size] r.madd (segments mp.m_map) segs' ∧
      Placed ![d_size, s_size, u_size] r.madd (segments mp.m_map) a' := by
  obtain ⟨⟨unused, slots⟩, positive, apart⟩ := id wf
  have used : inUse mp.m_map = (segments mp.m_map).length := by
    conv_lhs => rw [slots]
    exact inUse_eq positive
  have walk := searched ![d_size, s_size, u_size] 0 (fun _ => none) mp.m_map nofun
  have unfolded : malloc3 mp d_size s_size u_size a = _ := if_pos (walked ▸ done)
  rw [walked] at walk unfolded
  generalize ![d_size, s_size, u_size] = sizes at *
  obtain ⟨segs', shape, trimmed⟩ := resolved_trimmed (a := a) slots walk used
  have placed := searched_placed (a := a) slots walk used done
  have sizeAt : ∀ k, k < (segments mp.m_map).length →
      (segs'.getD k terminator).m_size = (r.m_map.getD k terminator).m_size := by
    intro k hk
    have h1 := trimmed.size k hk
    have h2 := walk.size k
    rw [zero_add] at h2
    have h3 : mp.m_map.getD k terminator = (segments mp.m_map).getD k terminator := by
      conv_lhs => rw [slots]
      rw [getD_append _ _ _ _ hk]
    rw [h3] at h2
    omega
  obtain ⟨unused', squeezed⟩ := squeeze_segments unused r.remap
    (apart_tail_nonzero (trimmed_apart trimmed apart)) (by
      intro p hp
      obtain ⟨k, rfl, inside, zero, first⟩ := walk.remap p hp
      rw [zero_add]
      rw [used] at inside
      refine ⟨by rw [trimmed.length]; exact inside, by rw [sizeAt k inside]; exact zero, ?_⟩
      intro k' hk'
      rw [sizeAt k' (by omega)]
      exact first k' hk') (by
      intro hnone e he
      obtain ⟨k, hk, rfl⟩ := getElem_of_mem he
      rw [trimmed.length] at hk
      have := walk.noRemap hnone k (by omega)
      rw [← sizeAt k hk] at this
      simpa [trimmed.length, hk] using this)
  change malloc3 mp d_size s_size u_size a = ((resolveAll sizes r.madd (r.m_map, a)).2 2,
    (resolveAll sizes r.madd _).2,
    { mp with m_map := squeeze (resolveAll sizes r.madd _).1 r.remap }) at unfolded
  rw [shape, squeezed] at unfolded
  exact ⟨_, segs', unused', unfolded, trimmed, placed⟩

/-- `malloc3` that does not find all three segments leaves the map as it was. -/
lemma malloc3_undone (mp : Map) (d_size s_size u_size : Nat) (a : Fin 3 → Nat)
    (undone : ¬ complete (search ![d_size, s_size, u_size] 0 (fun _ => none) mp.m_map).madd = true) :
    malloc3 mp d_size s_size u_size a = (0, a, mp) := by
  have walk := searched ![d_size, s_size, u_size] 0 (fun _ => none) mp.m_map nofun
  have unfolded : malloc3 mp d_size s_size u_size a = _ := if_neg undone
  rw [unfolded]
  rw [giveBack_restores walk.length (searched_inside walk) walk.addr (fun k => by
    have := walk.size k
    rwa [zero_add] at this)]

lemma malloc3_spec (wf : WellFormed mp) (d_size s_size u_size : Nat) (a : Fin 3 → Nat) :
    ∃ r a' mp', malloc3 mp d_size s_size u_size a = (r, a', mp') ∧ WellFormed mp' ∧
      mp'.m_limit = mp.m_limit ∧ Malloc3Effect mp mp' ![d_size, s_size, u_size] a a' r := by
  obtain ⟨-, -, apart⟩ := id wf
  by_cases done : complete (search ![d_size, s_size, u_size] 0 (fun _ => none) mp.m_map).madd = true
  · obtain ⟨a', segs', unused', unfolded, trimmed, placed⟩ :=
      malloc3_done wf d_size s_size u_size a rfl done
    have apart' := trimmed_apart trimmed apart
    have holds : Holds (segs'.filter (fun e => e.m_size ≠ 0) ++ terminator :: unused')
        (segs'.filter (fun e => e.m_size ≠ 0)) :=
      ⟨⟨unused', rfl⟩, fun e he => by
        have := (mem_filter.mp he).2
        simp only [decide_not, Bool.not_eq_eq_eq_not, Bool.not_true,
          decide_eq_false_iff_not] at this
        omega, apart_filter _ apart'⟩
    refine ⟨_, _, _, unfolded, wellFormed_of_holds holds, rfl, .inr ⟨rfl, ?_, ?_, ?_, ?_⟩⟩
    · exact placed_free placed trimmed
    · exact fun n m => placed_disjoint placed trimmed apart
    · rw [free_of_holds holds, covered_filter, trimmed_covered placed trimmed apart, free]
    · intro nonzero
      obtain ⟨i, hi, inside⟩ := placed.slot 2
      have := placed.third i hi
      have hne := nonzero _ (getElem_mem inside)
      have : ((segments mp.m_map).getD i terminator).m_addr ≠ 0 := by simpa [inside] using hne
      omega
  · exact ⟨0, a, mp, malloc3_undone mp d_size s_size u_size a done, wf, rfl, .inl ⟨rfl, rfl, rfl⟩⟩

/-! ## Histories -/

inductive Op where
  | malloc (size : Nat)
  | malloc3 (d_size s_size u_size : Nat) (a : Fin 3 → Nat)
  | mfree (size addr : Nat)

/-- The map after an operation; `none` after a panic. -/
def apply (mp : Map) : Op → Option Map
  | .malloc size => (malloc mp size).map Prod.snd
  | .malloc3 d_size s_size u_size a => some (malloc3 mp d_size s_size u_size a).2.2
  | .mfree size addr => mfree mp size addr

/-- The protocol of the callers, and that no space is lost. -/
def Allowed (mp : Map) : Op → Prop
  | .malloc size => 0 < size
  | .malloc3 _ _ u_size _ => 0 < u_size
  | .mfree size addr => 0 < size ∧ addr ≠ 0 ∧ Disjoint (Set.Ico addr (addr + size)) (free mp) ∧
      overflows mp size addr = false

def Step (mp : Map) (op : Op) (mp' : Map) : Prop := apply mp op = some mp'

/-- What an operation returns and what it does to the free units. -/
def Effect (mp mp' : Map) : Op → Prop
  | .malloc size => ∃ r, malloc mp size = some (r, mp') ∧ MallocEffect mp mp' size r
  | .malloc3 d_size s_size u_size a => ∃ r a', malloc3 mp d_size s_size u_size a = (r, a', mp') ∧
      Malloc3Effect mp mp' ![d_size, s_size, u_size] a a' r
  | .mfree size addr => free mp' = free mp ∪ Set.Ico addr (addr + size)

lemma apply_spec (wf : WellFormed mp) {op : Op} (allowed : Allowed mp op) :
    ∃ mp', apply mp op = some mp' ∧ WellFormed mp' ∧ mp'.m_limit = mp.m_limit ∧
      Effect mp mp' op := by
  cases op with
  | malloc size =>
    obtain ⟨r, mp', result, wf', limit, effect⟩ := malloc_spec wf allowed
    exact ⟨mp', by simp [apply, result], wf', limit, r, result, effect⟩
  | malloc3 d s u a =>
    obtain ⟨r, a', mp', result, wf', limit, effect⟩ := malloc3_spec wf d s u a
    exact ⟨mp', by simp [apply, result], wf', limit, r, a', result, effect⟩
  | mfree size addr =>
    obtain ⟨asked, nonzero, apart, room⟩ := allowed
    obtain ⟨mp', result, wf', limit, effect⟩ := mfree_spec wf asked nonzero apart room
    exact ⟨mp', result, wf', limit, effect⟩

lemma step_wellFormed (mp : Map) (op : Op) (mp' : Map) (wf : WellFormed mp)
    (allowed : Allowed mp op) (step : Step mp op mp') : WellFormed mp' := by
  obtain ⟨mp'', result, wf', _⟩ := apply_spec wf allowed
  rw [Step, result] at step
  cases step
  exact wf'

/-- After every history the map has its form, and whatever operation comes next
takes out or puts back exactly the units it is about. -/
theorem map_history {start mp : Map} (ops : List Op) (wf : WellFormed start)
    (run : Run Step Allowed start ops mp) : WellFormed mp ∧ ∀ op, Allowed mp op →
      ∃ mp', apply mp op = some mp' ∧ WellFormed mp' ∧ Effect mp mp' op := by
  have now := run_invariant WellFormed step_wellFormed run wf
  refine ⟨now, fun op allowed => ?_⟩
  obtain ⟨mp', result, wf', _, effect⟩ := apply_spec now allowed
  exact ⟨mp', result, wf', effect⟩

def twoSegments : Map := ⟨[⟨4, 10⟩, ⟨10, 20⟩, ⟨0, 0⟩, ⟨0, 0⟩, ⟨0, 0⟩], 4⟩

lemma twoSegments_wellFormed : WellFormed twoSegments :=
  ⟨⟨[⟨0, 0⟩, ⟨0, 0⟩], rfl⟩, by decide, by unfold Apart; decide⟩

/-- The first segment is used up, and its slot goes away. -/
theorem map_history_two_segments : Allowed twoSegments (.malloc 4) ∧
      apply twoSegments (.malloc 4) = some ⟨[⟨10, 20⟩, ⟨0, 0⟩, ⟨0, 0⟩, ⟨0, 0⟩, ⟨0, 0⟩], 4⟩ ∧
      WellFormed ⟨[⟨10, 20⟩, ⟨0, 0⟩, ⟨0, 0⟩, ⟨0, 0⟩, ⟨0, 0⟩], 4⟩ :=
  ⟨Nat.succ_pos 3, by decide, (map_history [.malloc 4] twoSegments_wellFormed
    (.cons (Nat.succ_pos 3) (by unfold Step; decide) (.nil _))).1⟩

example : malloc3 twoSegments 3 4 1 (fun _ => 0) =
    (13, ![10, 20, 13], ⟨[⟨6, 24⟩, ⟨0, 0⟩, ⟨0, 0⟩, ⟨0, 0⟩, ⟨0, 0⟩], 4⟩) := by decide

end ResourceMap
