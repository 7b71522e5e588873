import RetroBSD.Arenas
import RetroBSD.Runs

/-!
# The storage allocator of the C library

`malloc`, `free` and `realloc` over a memory of words: the circular search from `allocp`,
which joins free blocks on its way, the growth of the arena by `sbrk`, and the copying of
`realloc`. Addresses count words; whether each `sbrk` succeeds comes with the call, and
other users of `sbrk` may move the break between calls.

A request is shorter than 2^31 bytes, as `nw` is an `int`.
-/

namespace Allocator

open Arenas Runs
open Function (update)

abbrev WORDS : ℕ := 2 ^ 30

/-- More turns than the search has words to visit. -/
abbrev TURNS : ℕ := 2 ^ 32

/-- The memory, the static variables of `malloc.c`, and the break. -/
structure Heap where
  mem : Memory
  allocs : ℕ
  allocp : ℕ
  alloct : ℕ
  allocx : ℕ
  brk : ℕ

/-! ### malloc -/

/-- The inner loop: the free block at `p` takes in those behind it, up to a block in use. -/
def coalesce : ℕ → Memory → ℕ → Option (Memory × ℕ)
  | 0, _, _ => none
  | fuel + 1, mem, p =>
    let q := target (mem p)
    if testbusy (mem q) then some (mem, q)
    else coalesce fuel (update mem p (mem q)) p

/-- Whether the block at `p` is free and, joined, long enough; if so, with its end. -/
def fits (nw : ℕ) (mem : Memory) (p : ℕ) : Option (Memory × Option ℕ) :=
  if testbusy (mem p) then some (mem, none)
  else
    (coalesce TURNS mem p).map fun r =>
      (r.1, if (p + nw) % WORDS ≤ r.2 ∧ p ≤ (p + nw) % WORDS then some r.2 else none)

inductive Look where
  | found (mem : Memory) (p q : ℕ)
  | broken (mem : Memory)
  | around (mem : Memory)

/-- The search, which gives up when it comes by the top for the second time. -/
def look (allocs alloct nw : ℕ) : ℕ → Memory → ℕ → ℕ → Option Look
  | 0, _, _, _ => none
  | fuel + 1, mem, q, temp =>
    match fits nw mem q with
    | none => none
    | some (mem, some e) => some (.found mem q e)
    | some (mem, none) =>
      let p := target (mem q)
      if q < p then look allocs alloct nw fuel mem p temp
      else if q ≠ alloct ∨ p ≠ allocs then some (.broken mem)
      else if 1 < temp + 1 then some (.around mem)
      else look allocs alloct nw fuel mem p (temp + 1)

/-- The words to ask for, up to the end of a block of 1024 bytes. -/
def increment (brk nw : ℕ) : ℕ :=
  ((4 * brk + 4 * nw + 1023) % 2 ^ 32 / 1024 * 1024 + 2 ^ 32 - 4 * brk) % 2 ^ 32 / 4

/-- The arena after `sbrk` has given `temp` words: what lies between is a block in use. -/
def grow (h : Heap) (temp : ℕ) : Heap :=
  let q := h.brk
  let top := q + temp - 1
  let mem := update h.mem h.alloct (link q (q ≠ h.alloct + 1))
  { h with
    mem := update (update mem q (link top false)) top (link h.allocs true)
    alloct := top
    brk := q + temp }

/-- The statements at `found`. -/
def allocate (h : Heap) (p q nw : ℕ) : Heap :=
  let split : Heap :=
    if p + nw < q then
      { h with allocx := h.mem (p + nw), mem := update h.mem (p + nw) (h.mem p) }
    else h
  { split with mem := update split.mem p (link (p + nw) true), allocp := p + nw }

/-- The search with `sbrk` in between, as often as it is granted. -/
def rounds (nw : ℕ) : List Bool → Heap → ℕ → Option (Heap × Option ℕ)
  | grants, h, p =>
    match look h.allocs h.alloct nw TURNS h.mem p 0 with
    | none => none
    | some (.found mem p q) => some (allocate { h with mem := mem } p q nw, some (p + 1))
    | some (.broken mem) => some ({ h with mem := mem }, none)
    | some (.around mem) =>
      match grants with
      | [] => some ({ h with mem := mem }, none)
      | granted :: grants =>
        let temp := increment h.brk nw
        if (h.brk + temp) % WORDS < h.brk ∨ granted = false then some ({ h with mem := mem }, none)
        else rounds nw grants (grow { h with mem := mem } temp) h.allocs

/-- The first call makes an arena of two blocks in use. -/
def first (h : Heap) : Heap :=
  if h.mem h.allocs = 0 then
    { h with
      mem := update (update h.mem h.allocs (link (h.allocs + 1) true))
        (h.allocs + 1) (link h.allocs true)
      alloct := h.allocs + 1
      allocp := h.allocs }
  else h

def malloc (h : Heap) (nbytes : ℕ) (grants : List Bool) : Option (Heap × Option ℕ) :=
  if nbytes = 0 then some (h, none)
  else rounds ((nbytes + 4 + 4 - 1) / 4) grants (first h) (first h).allocp

/-! ### free and realloc -/

def free (h : Heap) (p : ℕ) : Heap :=
  if p = 0 then h
  else
    { h with
      allocp := p - 1
      mem := update h.mem (p - 1) (h.mem (p - 1) / 2 * 2) }

def copy (mem : Memory) (t s : ℕ) : ℕ → Memory
  | 0 => mem
  | k + 1 => update (copy mem t s k) (t + k) (copy mem t s k (s + k))

/-- The contents brought to `q`, and the word put back that a new link has overwritten. -/
def move (h : Heap) (q p nw onw : ℕ) : Heap :=
  let mem := copy h.mem q p (if nw < onw then nw else onw)
  { h with
    mem :=
      if q < p ∧ p ≤ q + nw then update mem (q + (q + nw - p)) h.allocx else mem }

def realloc (h : Heap) (p nbytes : ℕ) (grants : List Bool) : Option (Heap × Option ℕ) :=
  if p = 0 then malloc h nbytes grants
  else
    let freed := if testbusy (h.mem (p - 1)) then free h p else h
    let onw := target (freed.mem (p - 1)) - p
    (malloc freed nbytes grants).map fun r =>
      match r.2 with
      | none => r
      | some q => if q = p then r else (move r.1 q p ((nbytes + 3) / 4) onw, some q)

/-! ### Calls in a row -/

inductive Act where
  | malloc (n : ℕ) (grants : List Bool)
  | realloc (p n : ℕ) (grants : List Bool)
  | free (p : ℕ)
  | sbrk (k : ℕ)
  | store (a v : ℕ)

/-- The heap with the blocks that were returned and not yet freed, each with the bytes asked
for, and the answer to the last call. -/
structure State where
  heap : Heap
  live : List (ℕ × ℕ)
  answer : Option ℕ

/-- A block that `realloc` could not give another size is not freed by its user. -/
def next (s : State) : Act → Option State
  | .malloc n grants =>
    (malloc s.heap n grants).map fun r =>
      ⟨r.1, (r.2.toList.map fun p => (p, n)) ++ s.live, r.2⟩
  | .realloc p n grants =>
    (realloc s.heap p n grants).map fun r =>
      match r.2 with
      | none => ⟨r.1, s.live, none⟩
      | some q => ⟨r.1, (q, n) :: s.live.filter (·.1 ≠ p), some q⟩
  | .free p => some ⟨free s.heap p, s.live.filter (·.1 ≠ p), none⟩
  | .sbrk k => some { s with heap := { s.heap with brk := s.heap.brk + k } }
  | .store a v => some { s with heap := { s.heap with mem := update s.heap.mem a v } }

def Step (s : State) (a : Act) (t : State) : Prop := next s a = some t

/-- The links of the arena, from the first to the top. -/
inductive Header (h : Heap) : ℕ → Prop where
  | first : Header h h.allocs
  | next {a : ℕ} : Header h a → a ≠ h.alloct → Header h (target (h.mem a))

/-- The words that hold the bytes of a block. -/
def Covers (r : ℕ × ℕ) (a : ℕ) : Prop := r.1 ≤ a ∧ a < r.1 + (r.2 + 3) / 4

instance (r : ℕ × ℕ) (a : ℕ) : Decidable (Covers r a) := inferInstanceAs (Decidable (_ ∧ _))

/-- What a user may do: requests of a possible size, calls with blocks that were returned and
not yet freed, a break that stays in memory, and no writing over the links. -/
def Allowed (s : State) : Act → Prop
  | .malloc n _ => 0 < n ∧ n < 2 ^ 31
  | .realloc p n _ => (0 < n ∧ n < 2 ^ 31) ∧ ∃ old, (p, old) ∈ s.live
  | .free p => ∃ old, (p, old) ∈ s.live
  | .sbrk k => s.heap.brk + k < WORDS
  | .store a _ => ¬ Header s.heap a

def Apart (s : State) : Prop :=
  (s.live.Pairwise fun r r' => ∀ a, Covers r a → ¬ Covers r' a) ∧
    ∀ r ∈ s.live, ∀ a, Covers r a → ¬ Header s.heap a

/-- The contents stay: of every block that is neither freed nor given another size, and of
the latter at its new place. -/
def Keeps (s : State) : Act → State → Prop
  | .malloc _ _, t | .free _, t | .sbrk _, t =>
    ∀ r ∈ s.live, r ∈ t.live → ∀ a, Covers r a → t.heap.mem a = s.heap.mem a
  | .realloc p n _, t =>
    (∀ r ∈ s.live, r.1 ≠ p → ∀ a, Covers r a → t.heap.mem a = s.heap.mem a) ∧
      ∀ old, (p, old) ∈ s.live → ∀ q, t.answer = some q →
        ∀ i < (min old n + 3) / 4, t.heap.mem (q + i) = s.heap.mem (p + i)
  | .store _ _, _ => True

/-- The search would start at a free block directly behind a free block. -/
def AfterFree (h : Heap) : Prop :=
  h.mem h.allocs ≠ 0 ∧ testbusy (h.mem h.allocp) = false ∧
    ∃ a, Header h a ∧ h.mem a = link h.allocp false

/-- Both growths that a call can need are granted, and there are addresses for them. -/
def Granted (h : Heap) (n : ℕ) (grants : List Bool) : Prop :=
  [true, true] <+: grants ∧ h.brk + 2 * ((n + 4 + 4 - 1) / 4) + 512 ≤ WORDS

def Safe (s : State) : Act → Prop
  | .malloc n grants => Granted s.heap n grants ∨ ¬ AfterFree s.heap
  | .realloc _ n grants => Granted s.heap n grants
  | _ => True

/-- Before the first call: the static array is zero and lies below the break. -/
structure Started (s : State) : Prop where
  zero : s.heap.mem s.heap.allocs = 0
  below : s.heap.allocs + 2 ≤ s.heap.brk
  inside : s.heap.brk < WORDS
  none : s.live = []

end Allocator
