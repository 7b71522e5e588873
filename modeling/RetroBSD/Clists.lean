import RetroBSD.BlockChains
import RetroBSD.Runs

/-!
# Character lists

A character list is a count and two pointers into a chain of aligned blocks of 32
bytes, of which the first four hold the link. Addresses are numbers: the block of
an address is its quotient by 32, and a character pointer that has run to the end
of its block is a multiple of 32. Null is zero, and no block has number zero.
Counts are never negative. Interrupt levels and `cwaiting` are left out.
-/

namespace Clists

open BlockChains List

abbrev CBLOCK : ℕ := 32
abbrev CBSIZE : ℕ := 28

abbrev Byte := BitVec 8

structure Clist where
  c_cc : ℕ
  c_cf : ℕ
  c_cl : ℕ
  deriving DecidableEq

abbrev Clist.null : Clist := ⟨0, 0, 0⟩

structure State (Q : Type) where
  /-- The link of a block, by its number. -/
  c_next : ℕ → ℕ
  /-- The characters, by address. -/
  c_info : ℕ → Byte
  cfreelist : ℕ
  cfreecount : ℤ
  clist : Q → Clist

variable {Q : Type} [DecidableEq Q]

namespace State

def set (s : State Q) (q : Q) (c : Clist) : State Q :=
  { s with clist := Function.update s.clist q c }

/-- Put a block on the free list. -/
def release (s : State Q) (bp : ℕ) : State Q :=
  { s with
    c_next := Function.update s.c_next bp s.cfreelist
    cfreelist := bp
    cfreecount := s.cfreecount + CBSIZE }

/-- Take the first block, which there is, off the free list. -/
def allocate (s : State Q) : State Q :=
  { s with
    c_next := Function.update s.c_next s.cfreelist 0
    cfreelist := s.c_next s.cfreelist
    cfreecount := s.cfreecount - CBSIZE }

def fetch (s : State Q) (cp nc : ℕ) : List Byte := (List.range nc).map fun i => s.c_info (cp + i)

def store (s : State Q) (cp : ℕ) (data : List Byte) : State Q :=
  { s with
    c_info := fun a => if cp ≤ a ∧ a < cp + data.length then data.getD (a - cp) 0 else s.c_info a }

/-- What `getc`, and each round of `q_to_b`, does after it has read `nc` characters
of the first block. -/
def advance (s : State Q) (q : Q) (nc : ℕ) : State Q :=
  let c := s.clist q
  let cf := c.c_cf + nc
  let cc := c.c_cc - nc
  if cc = 0 then (s.set q .null).release ((cf - 1) / CBLOCK)
  else if cf % CBLOCK = 0 then
    let bp := cf / CBLOCK - 1
    (s.set q ⟨cc, CBLOCK * s.c_next bp + 4, c.c_cl⟩).release bp
  else s.set q ⟨cc, cf, c.c_cl⟩

def getc (s : State Q) (q : Q) : State Q × BitVec 32 :=
  let c := s.clist q
  if c.c_cc = 0 then (s.set q .null, -1)
  else (s.advance q 1, (s.c_info c.c_cf).setWidth 32)

/-- The loop of `q_to_b`. Each round reads at least one character. -/
def takeLoop (q : Q) : ℕ → State Q → ℕ → State Q × List Byte
  | 0, s, _ => (s, [])
  | fuel + 1, s, cc =>
    let c := s.clist q
    if cc = 0 then (s, [])
    else
      let nc := min (min (CBLOCK - c.c_cf % CBLOCK) cc) c.c_cc
      let t := s.advance q nc
      if c.c_cc - nc = 0 then (t, s.fetch c.c_cf nc)
      else
        let rest := takeLoop q fuel t (cc - nc)
        (rest.1, s.fetch c.c_cf nc ++ rest.2)

/-- `q_to_b`, with the characters moved to the buffer. -/
def q_to_b (s : State Q) (q : Q) (cc : ℤ) : State Q × List Byte :=
  if cc ≤ 0 then (s, [])
  else if (s.clist q).c_cc = 0 then (s.set q .null, [])
  else takeLoop q cc.toNat s cc.toNat

/-- The count of contiguous characters, with no flag to stop at. -/
def ndqb (s : State Q) (q : Q) : ℕ :=
  let c := s.clist q
  if c.c_cc = 0 then 0
  else min (CBLOCK * ((c.c_cf + CBSIZE) / CBLOCK) - c.c_cf) c.c_cc

/-- The loop of `ndflush`. Each round but the last drops a block. -/
def flushLoop (q : Q) : ℕ → State Q → ℕ → State Q
  | 0, s, _ => s
  | fuel + 1, s, cc =>
    let c := s.clist q
    if cc = 0 ∨ c.c_cc = 0 then s
    else
      let bp := c.c_cf / CBLOCK
      let stop := if bp = (c.c_cl - 1) / CBLOCK then c.c_cl else CBLOCK * (bp + 1)
      let rem := stop - c.c_cf
      if rem ≤ cc then
        let t := (s.set q ⟨c.c_cc - rem, CBLOCK * s.c_next bp + 4, c.c_cl⟩).release bp
        flushLoop q fuel t (cc - rem)
      else
        let t := s.set q ⟨c.c_cc - cc, c.c_cf + cc, c.c_cl⟩
        if c.c_cc - cc = 0 then t.release bp else t

def ndflush (s : State Q) (q : Q) (cc : ℤ) : State Q :=
  if (s.clist q).c_cc = 0 then s
  else
    let t := flushLoop q cc.toNat s cc.toNat
    if (t.clist q).c_cc = 0 then t.set q .null else t

def link (s : State Q) (bp target : ℕ) : State Q :=
  { s with c_next := Function.update s.c_next bp target }

/-- `putc`, which answers zero, or -1 when there is no block left. -/
def putc (s : State Q) (c : Byte) (q : Q) : State Q × ℤ :=
  let l := s.clist q
  let cp := CBLOCK * s.cfreelist + 4
  if l.c_cl = 0 then
    if s.cfreelist = 0 then (s, -1)
    else ((s.allocate.store cp [c]).set q ⟨l.c_cc + 1, cp, cp + 1⟩, 0)
  else if l.c_cl % CBLOCK = 0 then
    let t := s.link (l.c_cl / CBLOCK - 1) s.cfreelist
    if s.cfreelist = 0 then (t, -1)
    else ((t.allocate.store cp [c]).set q ⟨l.c_cc + 1, l.c_cf, cp + 1⟩, 0)
  else ((s.store l.c_cl [c]).set q ⟨l.c_cc + 1, l.c_cf, l.c_cl + 1⟩, 0)

/-- The loop of `b_to_q`, from the end pointer `cq`: the end pointer after it, and
the characters for which there was no room. -/
def putLoop : ℕ → State Q → ℕ → List Byte → State Q × ℕ × List Byte
  | 0, s, cq, data => (s, cq, data)
  | fuel + 1, s, cq, data =>
    if data = [] then (s, cq, [])
    else if cq % CBLOCK = 0 then
      let t := s.link (cq / CBLOCK - 1) s.cfreelist
      if s.cfreelist = 0 then (t, cq, data)
      else
        let cp := CBLOCK * s.cfreelist + 4
        let nc := min data.length (CBLOCK - cp % CBLOCK)
        putLoop fuel (t.allocate.store cp (data.take nc)) (cp + nc) (data.drop nc)
    else
      let nc := min data.length (CBLOCK - cq % CBLOCK)
      putLoop fuel (s.store cq (data.take nc)) (cq + nc) (data.drop nc)

/-- `b_to_q`, which answers the number of characters not transferred. -/
def b_to_q (s : State Q) (data : List Byte) (q : Q) : State Q × ℕ :=
  let l := s.clist q
  if data = [] then (s, 0)
  else if l.c_cl = 0 then
    if s.cfreelist = 0 then (s, data.length)
    else
      let cp := CBLOCK * s.cfreelist + 4
      let r := putLoop data.length s.allocate cp data
      (r.1.set q ⟨l.c_cc + (data.length - r.2.2.length), cp, r.2.1⟩, r.2.2.length)
  else
    let r := putLoop data.length s l.c_cl data
    (r.1.set q ⟨l.c_cc + (data.length - r.2.2.length), l.c_cf, r.2.1⟩, r.2.2.length)

/-- The character pointer after `cp`, in the same block or in the one it links to. -/
def following (s : State Q) (cp : ℕ) : ℕ :=
  if (cp + 1) % CBLOCK = 0 then CBLOCK * s.c_next ((cp + 1) / CBLOCK - 1) + 4 else cp + 1

/-- The pointer to the next character, or null. -/
def nextc (s : State Q) (q : Q) (cp : ℕ) : ℕ :=
  let c := s.clist q
  if c.c_cc ≠ 0 ∧ cp + 1 ≠ c.c_cl then s.following cp else 0

/-- The characters that a walk with `nextc` visits, if it comes to an end. -/
def walk (s : State Q) (q : Q) : ℕ → ℕ → Option (List Byte)
  | 0, cp => if cp = 0 then some [] else none
  | fuel + 1, cp =>
    if cp = 0 then some [] else (s.walk q fuel (s.nextc q cp)).map (s.c_info cp :: ·)

/-- The loop of `unputc`: the block before `last`. -/
def blockBefore (s : State Q) (last : ℕ) : ℕ → ℕ → ℕ
  | 0, bp => bp
  | fuel + 1, bp => if s.c_next bp ≠ last then s.blockBefore last fuel (s.c_next bp) else bp

/-- `unputc`; the character is not masked. -/
def unputc (s : State Q) (q : Q) : State Q × BitVec 32 :=
  let c := s.clist q
  if c.c_cc = 0 then (s, -1)
  else
    let cl := c.c_cl - 1
    let char := (s.c_info cl).signExtend 32
    let cc := c.c_cc - 1
    if cc = 0 then ((s.set q .null).release (cl / CBLOCK), char)
    else if cl % CBLOCK = 4 then
      let bp := s.blockBefore (cl / CBLOCK) c.c_cc (c.c_cf / CBLOCK)
      (((s.set q ⟨cc, c.c_cf, CBLOCK * (bp + 1)⟩).release (s.c_next bp)).link bp 0, char)
    else (s.set q ⟨cc, c.c_cf, cl⟩, char)

/-- The loop of `catq`, if it comes to an end. -/
def catLoop (source target : Q) : ℕ → State Q → Option (State Q)
  | 0, s => if (s.clist source).c_cc = 0 then some s else none
  | fuel + 1, s =>
    if (s.clist source).c_cc = 0 then some s
    else
      let r := s.q_to_b source (CBSIZE * 4)
      catLoop source target fuel (r.1.b_to_q r.2 target).1

def catq (s : State Q) (source target : Q) : Option (State Q) :=
  if (s.clist target).c_cc = 0 then some ((s.set target (s.clist source)).set source .null)
  else catLoop source target (s.clist source).c_cc s

/-- All lists are empty and the pool is on the free list. -/
def cinit (first count : ℕ) : State Q :=
  (List.range count).foldl (fun s i => s.release (first + i))
    { c_next := fun _ => 0, c_info := fun _ => 0, cfreelist := 0, cfreecount := 0,
      clist := fun _ => .null }

end State

/-! ### What a list denotes -/

/-- The characters from `cp` on, over the links of the blocks. -/
def State.chars (s : State Q) : ℕ → ℕ → List Byte
  | 0, _ => []
  | n + 1, cp => s.c_info cp :: s.chars n (s.following cp)

/-- The sequence of characters that a list denotes. -/
def State.bytes (s : State Q) (q : Q) : List Byte := s.chars (s.clist q).c_cc (s.clist q).c_cf

/-- The addresses of the characters of a chain of blocks, in order. -/
def cells (bs : List ℕ) : List ℕ :=
  bs.flatMap fun b => (List.range CBSIZE).map fun i => CBLOCK * b + 4 + i

/-- The list occupies the cells of a chain from number `o` of the first block up to
number `r` of the last, not included. -/
structure Window (next : ℕ → ℕ) (c : Clist) (bs : List ℕ) (o : ℕ) : Prop where
  chain : Follows next bs 0
  low : o < CBSIZE
  first : ∃ b rest, bs = b :: rest ∧ c.c_cf = CBLOCK * b + 4 + o
  last : ∃ init l r, bs = init ++ [l] ∧ r ≤ CBSIZE ∧ o + c.c_cc = CBSIZE * init.length + r ∧
    c.c_cl = CBLOCK * l + 4 + r

/-- The characters in a window. -/
def contents (info : ℕ → Byte) (bs : List ℕ) (o n : ℕ) : List Byte :=
  (((cells bs).drop o).take n).map info

section Cells

variable {info info' : ℕ → Byte} {bs : List ℕ} {b o n k : ℕ}

lemma cells_cons (b : ℕ) (bs : List ℕ) :
    cells (b :: bs) = ((List.range CBSIZE).map fun i => CBLOCK * b + 4 + i) ++ cells bs := rfl

lemma cells_append (a b : List ℕ) : cells (a ++ b) = cells a ++ cells b := flatMap_append

@[simp] lemma length_cells (bs : List ℕ) : (cells bs).length = CBSIZE * bs.length := by
  induction bs with
  | nil => rfl
  | cons b bs ih =>
    rw [cells_cons, length_append, ih, length_map, length_range, length_cons,
      Nat.mul_succ, add_comm]

/-- The block of a cell is one of the chain. -/
lemma block_of_cell {a : ℕ} (member : a ∈ cells bs) : a / CBLOCK ∈ bs := by
  obtain ⟨b, inside, cell⟩ := mem_flatMap.mp member
  obtain ⟨i, bound, rfl⟩ := mem_map.mp cell
  have bound := mem_range.mp bound
  have block : (CBLOCK * b + 4 + i) / CBLOCK = b := by
    simp only [CBLOCK, CBSIZE] at *
    omega
  rwa [block]

lemma cells_drop_cons (small : o < CBSIZE) :
    (cells (b :: bs)).drop o = (CBLOCK * b + 4 + o) :: (cells (b :: bs)).drop (o + 1) := by
  have bound : o < (cells (b :: bs)).length := by
    simp only [length_cells, length_cons, CBSIZE] at *
    omega
  rw [drop_eq_getElem_cons bound]
  congr 1
  simp only [cells_cons]
  rw [getElem_append_left (by simpa using small)]
  simp

lemma cells_drop_block : (cells (b :: bs)).drop CBSIZE = cells bs := by
  rw [cells_cons]
  simp

lemma length_contents (fits : o + n ≤ CBSIZE * bs.length) : (contents info bs o n).length = n := by
  simp only [contents, length_map, length_take, length_drop, length_cells]
  omega

lemma contents_drop : (contents info bs o n).drop k = contents info bs (o + k) (n - k) := by
  simp [contents, drop_take]

lemma contents_take (small : k ≤ n) : (contents info bs o n).take k = contents info bs o k := by
  simp [contents, take_take, Nat.min_eq_left small]

lemma contents_add (m : ℕ) :
    contents info bs o (n + m) = contents info bs o n ++ contents info bs (o + n) m := by
  simp [contents, take_add]

lemma contents_block : contents info (b :: bs) CBSIZE n = contents info bs 0 n := by
  simp [contents, cells_drop_block]

lemma contents_congr (same : ∀ a, a / CBLOCK ∈ bs → info' a = info a) :
    contents info' bs o n = contents info bs o n := by
  apply map_congr_left
  intro a member
  exact same a (block_of_cell (mem_of_mem_drop (mem_of_mem_take member)))

lemma contents_succ (small : o < CBSIZE) : contents info (b :: bs) o (n + 1) =
      info (CBLOCK * b + 4 + o) :: contents info (b :: bs) (o + 1) n := by
  simp [contents, cells_drop_cons small]

omit [DecidableEq Q] in
/-- The first characters of a window lie one after the other in its first block. -/
lemma fetch_eq_contents (s : State Q) {cp : ℕ} (first : cp = CBLOCK * b + 4 + o)
    (small : o + n ≤ CBSIZE) : s.fetch cp n = contents s.c_info (b :: bs) o n := by
  subst first
  induction n generalizing o with
  | zero => simp [State.fetch, contents]
  | succ n ih =>
    rw [contents_succ (by omega), ← ih (by omega), State.fetch, range_succ_eq_map]
    simp only [map_cons, map_map]
    congr 1
    apply map_congr_left
    intro i _
    simp only [Function.comp_apply]
    congr 1
    omega

end Cells

section Windows

variable {next next' : ℕ → ℕ} {c : Clist} {bs rest : List ℕ} {b o k : ℕ}

namespace Window

lemma congr (window : Window next c bs o) (same : ∀ x ∈ bs, next' x = next x) :
    Window next' c bs o :=
  { window with chain := window.chain.congr same }

lemma fits (window : Window next c bs o) : o + c.c_cc ≤ CBSIZE * bs.length := by
  obtain ⟨init, -, r, rfl, bound, total, _⟩ := window.last
  rw [length_append, length_singleton, Nat.mul_succ]
  omega

lemma head (window : Window next c (b :: rest) o) : c.c_cf = CBLOCK * b + 4 + o := by
  obtain ⟨b', rest', same, first⟩ := window.first
  cases same
  exact first

/-- The window without its first characters, when some of its first block stay. -/
lemma forward (window : Window next c (b :: rest) o) (more : k ≤ c.c_cc) (inside : o + k < CBSIZE) :
    Window next ⟨c.c_cc - k, c.c_cf + k, c.c_cl⟩ (b :: rest) (o + k) where
  chain := window.chain
  low := inside
  first := ⟨b, rest, rfl, by simp only [window.head]; omega⟩
  last := by
    obtain ⟨init, l, r, split, bound, total, last⟩ := window.last
    exact ⟨init, l, r, split, bound, by simp only; omega, last⟩

/-- The window without the rest of its first block. -/
lemma nextBlock (window : Window next c (b :: rest) o) (more : k < c.c_cc)
    (inside : o + k = CBSIZE) :
    rest ≠ [] ∧ Window next ⟨c.c_cc - k, CBLOCK * next b + 4, c.c_cl⟩ rest 0 := by
  obtain ⟨init, l, r, split, bound, total, last⟩ := window.last
  cases init with
  | nil =>
    simp only [length_nil] at *
    omega
  | cons b' init =>
    obtain ⟨rfl, rfl⟩ := cons.inj split
    refine ⟨by simp, window.chain.2, by decide, ?_, init, l, r, rfl, bound, ?_, last⟩
    · have link := window.chain.1
      cases init with
      | nil => exact ⟨l, [], rfl, by simp only [link]; rfl⟩
      | cons y init => exact ⟨y, init ++ [l], rfl, by simp only [link]; rfl⟩
    · simp only [length_cons, CBSIZE] at *
      omega

end Window

end Windows

end Clists
