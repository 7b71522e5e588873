import RetroBSD.ResourceMapHistory
import RetroBSD.Tilings

/-!
# Ownership of the swap area

Three kinds of client share `swapmap`: processes that are swapped out
(`sys/kernel/vm_swap.c`), argument buffers of `execve` (`sys/kernel/kern_exec.c`)
and the temp devices (`sys/pic32/swap.c`). The state below keeps the map and the
bookkeeping of each client. The bytes that `swap` moves are left out, and with
them the reads and writes of the temp devices.

`swcioctl` does not clear `tdstart` when it releases an allocation. The main
result is that this is the only way ownership is lost.
-/

namespace SwapSpace

open Runs Tilings ResourceMap List Option
open Function (update update_of_ne update_self)

def DEV_BSIZE : Nat := 1024
def NCARGS : Nat := 5120
def MAXBSIZE : Nat := 1024
def USIZE : Nat := 3072
abbrev NTMP : Nat := 3
def USER_DATA_START : Nat := 0x7f000000 + 32 * 1024
def USER_DATA_END : Nat := 0x7f000000 + 128 * 1024

def btod (x : Nat) : Nat := (x + DEV_BSIZE - 1) / DEV_BSIZE

structure Proc where
  p_dsize : Nat
  p_ssize : Nat
  p_daddr : Nat
  p_saddr : Nat
  p_addr : Nat
  /-- The flag `SLOAD`. -/
  loaded : Bool
deriving DecidableEq, Repr

/-- `bno` is the local of each running `execve`, 0 when it holds no buffer. -/
structure Swap where
  swapmap : Map
  proc : Nat → Proc
  bno : Nat → Nat
  tdstart : Fin NTMP → Nat
  tdsize : Fin NTMP → Nat

inductive Errno where
  | enodev | eio | einval
deriving DecidableEq, Repr

/-- `swapout`; `none` is the panic "out of swap space". The local array `a` starts
with what is on the stack. -/
def swapout (s : Swap) (p : Nat) (a : Fin 3 → Nat) : Option Swap :=
  let pr := s.proc p
  let r := malloc3 s.swapmap (btod pr.p_dsize) (btod pr.p_ssize) (btod USIZE) a
  if r.1 = 0 then none
  else some { s with
    swapmap := r.2.2
    proc := update s.proc p { pr with
      p_daddr := r.2.1 0, p_saddr := r.2.1 1, p_addr := r.2.1 2, loaded := false } }

/-- The pieces that `swapin` gives back, in its order. -/
def swapinFrees (pr : Proc) : List (Nat × Nat) :=
  (if pr.p_dsize ≠ 0 then [(btod pr.p_dsize, pr.p_daddr)] else []) ++
  (if pr.p_ssize ≠ 0 then [(btod pr.p_ssize, pr.p_saddr)] else []) ++
  [(btod USIZE, pr.p_addr)]

def mfrees (mp : Map) : List (Nat × Nat) → Option Map
  | [] => some mp
  | (size, addr) :: rest => (mfree mp size addr).bind (fun mp' => mfrees mp' rest)

/-- None of these `mfree` calls loses its space. -/
def roomFor (mp : Map) : List (Nat × Nat) → Bool
  | [] => true
  | (size, addr) :: rest => !overflows mp size addr &&
      match mfree mp size addr with
      | some mp' => roomFor mp' rest
      | none => true

/-- `swapin`; the u. area goes to `u0`. -/
def swapin (u0 : Nat) (s : Swap) (p : Nat) : Option Swap :=
  let pr := s.proc p
  (mfrees s.swapmap (swapinFrees pr)).map (fun mp => { s with
    swapmap := mp
    proc := update s.proc p { pr with
      p_daddr := USER_DATA_START, p_saddr := USER_DATA_END - pr.p_ssize, p_addr := u0,
      loaded := true } })

/-- `bno = malloc(swapmap, ...)` of `execve`, which fails with ENOMEM on 0. -/
def execAlloc (s : Swap) (i : Nat) : Option Swap :=
  (malloc s.swapmap (btod (NCARGS + MAXBSIZE))).map
    (fun r => { s with swapmap := r.2, bno := update s.bno i r.1 })

/-- The label `done` of `execve`, after which its local `bno` is gone. -/
def execDone (s : Swap) (i : Nat) : Option Swap :=
  if s.bno i ≠ 0 then
    (mfree s.swapmap (btod (NCARGS + MAXBSIZE)) (s.bno i)).map
      (fun mp => { s with swapmap := mp, bno := update s.bno i 0 })
  else some s

inductive Cmd where
  | TFALLOC
  | RDGETMEDIASIZE
  | other
deriving DecidableEq, Repr

/-- The part of TFALLOC that frees the allocation a unit already has. -/
def tfrelease (s : Swap) (unit : Fin NTMP) : Option Map :=
  if s.tdstart unit > 0 then mfree s.swapmap (s.tdsize unit) (s.tdstart unit) else some s.swapmap

/-- `swcioctl` on a unit in range: the result (`none` is 0), the argument as it
is left, and the state. `none` altogether is a panic. -/
def swcioctl (s : Swap) (unit : Fin NTMP) (cmd : Cmd) (arg : Int) :
    Option (Option Errno × Int × Swap) :=
  match cmd with
  | .TFALLOC =>
    (tfrelease s unit).bind (fun mp =>
      if arg > 0 then
        (malloc mp arg.toNat).map (fun r =>
          if r.1 > 0 then
            (none, arg, { s with
              swapmap := r.2
              tdstart := update s.tdstart unit r.1
              tdsize := update s.tdsize unit arg.toNat })
          else (none, 0, { s with
              swapmap := r.2
              tdstart := update s.tdstart unit r.1 }))
      else
        -- "released allocation": tdstart and tdsize keep their values
        some (some .einval, arg, { s with swapmap := mp }))
  | .RDGETMEDIASIZE => some (some .einval, (s.tdsize unit : Int), s)
  | .other => some (some .einval, arg, s)

inductive Op where
  | swapout (p : Nat) (a : Fin 3 → Nat)
  | swapin (p u0 : Nat)
  | resize (p p_dsize p_ssize : Nat)
  | execAlloc (i : Nat)
  | execDone (i : Nat)
  | ioctl (unit : Nat) (cmd : Cmd) (arg : Int)
  | tdread (unit uio_offset iov_len : Nat)
  | tdwrite (unit uio_offset iov_len : Nat)

/-- One operation. `resize` stands for the places that set the sizes of a
process in core. -/
def apply (s : Swap) : Op → Option Swap
  | .swapout p a => swapout s p a
  | .swapin p u0 => swapin u0 s p
  | .resize p d sz => some { s with
      proc := update s.proc p { s.proc p with p_dsize := d, p_ssize := sz } }
  | .execAlloc i => execAlloc s i
  | .execDone i => execDone s i
  | .ioctl unit cmd arg =>
    if h : unit < NTMP then (swcioctl s ⟨unit, h⟩ cmd arg).map (fun r => r.2.2)
    else some s
  | .tdread _ _ _ => some s
  | .tdwrite _ _ _ => some s

def Step (s : Swap) (op : Op) (t : Swap) : Prop := apply s op = some t

/-- What the kernel keeps to: a process is swapped out from core and swapped in
from swap, an `execve` takes one buffer, and no `mfree` overflows the map. -/
def Allowed (s : Swap) : Op → Prop
  | .swapout p _ => (s.proc p).loaded = true
  | .swapin p _ => (s.proc p).loaded = false ∧ roomFor s.swapmap (swapinFrees (s.proc p)) = true
  | .resize p _ _ => (s.proc p).loaded = true
  | .execAlloc i => s.bno i = 0
  | .execDone i => s.bno i ≠ 0 → roomFor s.swapmap [(btod (NCARGS + MAXBSIZE), s.bno i)] = true
  | .ioctl unit .TFALLOC _ => ∀ h : unit < NTMP, s.tdstart ⟨unit, h⟩ ≠ 0 →
      roomFor s.swapmap [(s.tdsize ⟨unit, h⟩, s.tdstart ⟨unit, h⟩)] = true
  | _ => True

/-- The operation does not give up an allocation without asking for another. -/
def Keeps (s : Swap) : Op → Prop
  | .ioctl unit .TFALLOC arg => ∀ h : unit < NTMP, s.tdstart ⟨unit, h⟩ ≠ 0 → 0 < arg
  | _ => True

/-! ## Owners -/

/-- A client of the map: a segment of a process (0 data, 1 stack, 2 the u. area),
the buffer of an `execve`, or a temp device. -/
inductive Client where
  | seg (p : Nat) (n : Fin 3)
  | args (i : Nat)
  | temp (u : Fin NTMP)
deriving DecidableEq

def segSize (pr : Proc) : Fin 3 → Nat := ![btod pr.p_dsize, btod pr.p_ssize, btod USIZE]

def segAddr (pr : Proc) : Fin 3 → Nat := ![pr.p_daddr, pr.p_saddr, pr.p_addr]

def range (addr size : Nat) : Set Nat := Set.Ico addr (addr + size)

def clientRegion (s : Swap) : Client → Set Nat
  | .seg p n => if (s.proc p).loaded then ∅ else range (segAddr (s.proc p) n) (segSize (s.proc p) n)
  | .args i => if s.bno i = 0 then ∅ else range (s.bno i) (btod (NCARGS + MAXBSIZE))
  | .temp u => if s.tdstart u = 0 then ∅ else range (s.tdstart u) (s.tdsize u)

/-- The `k`-th free segment of the map. -/
def freeSegment (s : Swap) (k : Nat) : Set Nat :=
  let e := (segments s.swapmap.m_map).getD k terminator
  range e.m_addr e.m_size

/-- The free segments and the clients tile the swap area. -/
def Owned (area : Set Nat) (s : Swap) : Prop :=
  Tiles area (Sum.elim (freeSegment s) (clientRegion s))

def owner (s : Swap) : Option Client → Set Nat
  | none => free s.swapmap
  | some c => clientRegion s c

@[simp] lemma owner_none (s : Swap) : owner s none = free s.swapmap := rfl

@[simp] lemma owner_some (s : Swap) (c : Client) : owner s (some c) = clientRegion s c := rfl

variable {s : Swap}

lemma freeSegments_tile (wf : WellFormed s.swapmap) : Tiles (free s.swapmap) (freeSegment s) := by
  have inRange : ∀ k x, x ∈ freeSegment s k → k < (segments s.swapmap.m_map).length := by
    intro k x hx
    by_contra beyond
    have empty : (segments s.swapmap.m_map).getD k terminator = terminator := by
      simp [getElem?_eq_none (Nat.le_of_not_lt beyond)]
    simp only [freeSegment, empty] at hx
    simp [range, terminator] at hx
  refine tiles_iff.mpr ⟨fun k x hx => ?_, fun x hx => ?_, fun k l x hk hl => ?_⟩
  · exact (mem_covered_iff_getD _ x).mpr ⟨k, inRange k x hx, Set.mem_Ico.mp hx⟩
  · obtain ⟨k, _, hk⟩ := (mem_covered_iff_getD _ x).mp hx
    exact ⟨k, Set.mem_Ico.mpr hk⟩
  · exact segment_unique wf.apart (inRange k x hk) (inRange l x hl) (Set.mem_Ico.mp hk)
      (Set.mem_Ico.mp hl)

structure Sound (area : Set Nat) (s : Swap) : Prop where
  wf : WellFormed s.swapmap
  tiles : Tiles area (owner s)
  sized : ∀ u, s.tdstart u ≠ 0 → 0 < s.tdsize u

lemma owned_of_sound {area : Set Nat} (sound : Sound area s) : Owned area s :=
  tiles_refine sound.tiles (freeSegments_tile sound.wf)

/-! ## Giving back -/

lemma mfree_range {mp : Map} (wf : WellFormed mp) {size addr : Nat} (nonzero : 0 < size → addr ≠ 0)
    (apart : Disjoint (range addr size) (free mp)) (room : overflows mp size addr = false) :
    ∃ mp', mfree mp size addr = some mp' ∧ WellFormed mp' ∧
      free mp' = free mp ∪ range addr size := by
  by_cases asked : 0 < size
  · obtain ⟨mp', result, wf', _, back⟩ := mfree_spec wf asked (nonzero asked) apart room
    exact ⟨mp', result, wf', back⟩
  · obtain rfl : size = 0 := by omega
    exact ⟨mp, by simp [mfree], wf, by simp [range]⟩

def spread (pieces : List (Nat × Nat)) : Set Nat := {x | ∃ q ∈ pieces, x ∈ range q.2 q.1}

lemma spread_nil : spread [] = ∅ := by
  simp [spread]

lemma spread_cons (q : Nat × Nat) (pieces : List (Nat × Nat)) :
    spread (q :: pieces) = range q.2 q.1 ∪ spread pieces := by
  ext x
  simp [spread]

lemma mfrees_spec {mp : Map} (wf : WellFormed mp) {pieces : List (Nat × Nat)}
    (nonzero : ∀ q ∈ pieces, 0 < q.1 → q.2 ≠ 0) (apart : Disjoint (spread pieces) (free mp))
    (pairwise : pieces.Pairwise (fun q r => Disjoint (range q.2 q.1) (range r.2 r.1)))
    (room : roomFor mp pieces = true) : ∃ mp', mfrees mp pieces = some mp' ∧ WellFormed mp' ∧
      free mp' = free mp ∪ spread pieces := by
  induction pieces generalizing mp with
  | nil => exact ⟨mp, rfl, wf, by simp [spread_nil]⟩
  | cons q pieces ih =>
    simp only [spread_cons, Set.disjoint_union_left] at apart
    obtain ⟨first, later⟩ := pairwise_cons.mp pairwise
    simp only [roomFor, Bool.and_eq_true, Bool.not_eq_true'] at room
    obtain ⟨mp₁, result, wf₁, back⟩ := mfree_range wf (nonzero _ mem_cons_self) apart.1 room.1
    have apart₁ : Disjoint (spread pieces) (free mp₁) := by
      simp only [back, Set.disjoint_union_right]
      refine ⟨apart.2, Set.disjoint_left.mpr ?_⟩
      rintro x ⟨r, hr, hx⟩ hq
      exact Set.disjoint_left.mp (first r hr) hq hx
    obtain ⟨mp', rest, wf', back'⟩ := ih wf₁ (fun r hr => nonzero r (mem_cons_of_mem _ hr))
      apart₁ later (by simpa only [result] using room.2)
    refine ⟨mp', by simp [mfrees, result, rest], wf', ?_⟩
    simp [back', back, spread_cons, Set.union_assoc]

section Steps

variable {area : Set Nat} (positive : 0 ∉ area) {s t : Swap}

variable {c : Client} {u : Fin NTMP} {addr p size : Nat}

include positive in
/-- Address 0 is outside the area, so a client that holds something has another address. -/
lemma client_addr_ne_zero (sound : Sound area s)
    (mine : clientRegion s c = range addr size) (held : 0 < size) : addr ≠ 0 := by
  rintro rfl
  obtain ⟨inside, _⟩ := tiles_iff.mp sound.tiles
  refine positive (inside (some c) 0 ?_)
  simp only [owner_some, mine, range, Set.mem_Ico]
  omega

lemma client_apart (sound : Sound area s) (c : Client) :
    Disjoint (clientRegion s c) (free s.swapmap) :=
  sound.tiles.disjoint (some c) none (by simp)

lemma swapout_sound (sound : Sound area s) {a : Fin 3 → Nat}
    (inCore : (s.proc p).loaded = true) (result : swapout s p a = some t) : Sound area t := by
  obtain ⟨r, a', mp', call, wf', _, effect⟩ := malloc3_spec sound.wf
    (btod (s.proc p).p_dsize) (btod (s.proc p).p_ssize) (btod USIZE) a
  simp only [swapout, call] at result
  split at result
  · cases result
  next found =>
  have ht := (some.inj result).symm
  rcases effect with ⟨zero, _⟩ | ⟨_, owned, apart, left, _⟩
  · exact absurd zero found
  have placed : ∀ n, clientRegion t (.seg p n) = Set.Ico (a' n) (a' n +
      ![btod (s.proc p).p_dsize, btod (s.proc p).p_ssize, btod USIZE] n) := by
    intro n
    simp only [ht, clientRegion, update_self]
    fin_cases n <;> rfl
  have others : ∀ c, (¬ ∃ n, c = Client.seg p n) → clientRegion t c = clientRegion s c := by
    rintro (⟨q, n⟩ | i | u) other
    · have different : q ≠ p := fun h => other ⟨n, by simp [h]⟩
      simp [ht, clientRegion, update_of_ne different]
    · simp [ht, clientRegion]
    · simp [ht, clientRegion]
  refine ⟨by simpa only [ht] using wf', tiles_take _ sound.tiles
    ?_ ?_ ?_ others ?_, by simpa only [ht] using sound.sized⟩
  · rintro _ ⟨n, rfl⟩
    simp [clientRegion, inCore]
  · rintro _ ⟨n, rfl⟩
    simpa only [owner_some, owner_none, placed] using owned n
  · rintro _ _ ⟨n, rfl⟩ ⟨m, rfl⟩ different
    simpa only [owner_some, placed] using apart n m (fun h => different (by simp [h]))
  · have map : t.swapmap = mp' := by simp only [ht]
    simp only [owner_none, map, left]
    congr 1
    ext x
    simp [occupied, placed]

def segPiece (pr : Proc) (n : Fin 3) : Nat × Nat := (segSize pr n, segAddr pr n)

lemma btod_eq_zero (x : Nat) : btod x = 0 ↔ x = 0 := by
  simp only [btod, DEV_BSIZE]
  omega

lemma swapinFrees_sublist (pr : Proc) :
    (swapinFrees pr).Sublist [segPiece pr 0, segPiece pr 1, segPiece pr 2] := by
  by_cases data : pr.p_dsize = 0 <;> by_cases stack : pr.p_ssize = 0 <;>
    simp [swapinFrees, segPiece, segSize, segAddr, data, stack]

/-- The pieces that `swapin` skips are empty. -/
lemma mem_spread_swapinFrees (pr : Proc) (x : Nat) :
    x ∈ spread (swapinFrees pr) ↔ ∃ n, x ∈ range (segAddr pr n) (segSize pr n) := by
  have empty : btod 0 = 0 := (btod_eq_zero 0).mpr rfl
  by_cases data : pr.p_dsize = 0 <;> by_cases stack : pr.p_ssize = 0 <;>
    simp [spread, swapinFrees, segSize, segAddr, data, stack, Fin.exists_fin_succ, range] <;> omega

include positive in
lemma swapin_sound (sound : Sound area s) {u0 : Nat} (out : (s.proc p).loaded = false)
    (room : roomFor s.swapmap (swapinFrees (s.proc p)) = true)
    (result : swapin u0 s p = some t) : Sound area t := by
  have mine : ∀ n, clientRegion s (.seg p n) =
      range (segAddr (s.proc p) n) (segSize (s.proc p) n) := by
    intro n
    simp [clientRegion, out]
  have isSegment : ∀ q ∈ swapinFrees (s.proc p), ∃ n, q = segPiece (s.proc p) n := by
    intro q hq
    have := (swapinFrees_sublist _).subset hq
    simp only [mem_cons, not_mem_nil, or_false] at this
    rcases this with rfl | rfl | rfl <;> exact ⟨_, rfl⟩
  have pairwise : (swapinFrees (s.proc p)).Pairwise
      (fun q r => Disjoint (range q.2 q.1) (range r.2 r.1)) := by
    refine List.Pairwise.sublist (swapinFrees_sublist _) ?_
    have apart : ∀ n m : Fin 3, n ≠ m → Disjoint
        (range (segPiece (s.proc p) n).2 (segPiece (s.proc p) n).1)
        (range (segPiece (s.proc p) m).2 (segPiece (s.proc p) m).1) := by
      intro n m different
      have := sound.tiles.disjoint (some (.seg p n)) (some (.seg p m)) (by simpa using different)
      simpa only [owner_some, mine, segPiece] using this
    simp [apart]
  have apart : Disjoint (spread (swapinFrees (s.proc p))) (free s.swapmap) := by
    refine Set.disjoint_left.mpr (fun x hx => ?_)
    obtain ⟨n, hn⟩ := (mem_spread_swapinFrees _ x).mp hx
    exact Set.disjoint_left.mp (client_apart sound (.seg p n)) (by simpa only [mine] using hn)
  obtain ⟨mp', call, wf', back⟩ := mfrees_spec sound.wf (fun q hq held => by
    obtain ⟨n, rfl⟩ := isSegment q hq
    exact client_addr_ne_zero positive sound (mine n) held) apart pairwise room
  simp only [swapin, call, map_some, some.injEq] at result
  subst result
  refine ⟨wf', tiles_return (fun c => ∃ n, c = Client.seg p n) sound.tiles ?_ ?_ ?_, sound.sized⟩
  · rintro _ ⟨n, rfl⟩
    simp [clientRegion]
  · rintro (⟨q, n⟩ | i | u) other
    · have different : q ≠ p := fun h => other ⟨n, by simp [h]⟩
      simp [owner_some, clientRegion, update_of_ne different]
    · rfl
    · rfl
  · ext x
    simp only [owner_none, owner_some, back, Set.mem_union, mem_spread_swapinFrees, Set.mem_iUnion]
    simp [mine]

lemma room_single {mp : Map} (room : roomFor mp [(size, addr)] = true) :
    overflows mp size addr = false := by
  simp only [roomFor, Bool.and_eq_true, Bool.not_eq_true'] at room
  exact room.1

include positive in
lemma release_one (sound : Sound area s)
    (mine : clientRegion s c = range addr size) (room : overflows s.swapmap size addr = false) :
    ∃ mp', mfree s.swapmap size addr = some mp' ∧ WellFormed mp' ∧
      free mp' = free s.swapmap ∪ range addr size ∧ ∀ t, t.swapmap = mp' → clientRegion t c = ∅ →
        (∀ d, d ≠ c → clientRegion t d = clientRegion s d) → Tiles area (owner t) := by
  obtain ⟨mp', call, wf', back⟩ := mfree_range sound.wf
    (client_addr_ne_zero positive sound mine) (mine ▸ client_apart sound c) room
  refine ⟨mp', call, wf', back, fun t map gone others => ?_⟩
  refine tiles_return (fun d => d = c) sound.tiles ?_ others ?_
  · rintro _ rfl
    exact gone
  · simp [map, back, mine]

include positive in
lemma take_one (sound : Sound area s) (asked : 0 < size) (nothing : clientRegion s c = ∅) :
    ∃ r mp', malloc s.swapmap size = some (r, mp') ∧ WellFormed mp' ∧
      ∀ t, t.swapmap = mp' → clientRegion t c = (if r = 0 then ∅ else range r size) →
        (∀ d, d ≠ c → clientRegion t d = clientRegion s d) → Tiles area (owner t) := by
  obtain ⟨r, mp', call, wf', _, effect⟩ := malloc_spec sound.wf asked
  refine ⟨r, mp', call, wf', fun t map gained others => ?_⟩
  rcases effect with ⟨_, rfl, rfl⟩ | ⟨_, _, _, _, _, owned, left⟩
  · have same : owner t = owner s := by
      funext o
      rcases o with _ | d
      · simp [map]
      · by_cases h : d = c
        · subst h
          simpa [nothing] using gained
        · exact others d h
    exact same ▸ sound.tiles
  · have nonzero : r ≠ 0 := by
      rintro rfl
      obtain ⟨inside, _⟩ := tiles_iff.mp sound.tiles
      exact positive (inside none 0 (owned (Set.mem_Ico.mpr (by omega))))
    simp only [nonzero, if_false] at gained
    refine tiles_take (fun d => d = c) sound.tiles ?_ ?_ ?_ others ?_
    · rintro _ rfl
      exact nothing
    · rintro _ rfl
      simpa only [owner_some, owner_none, gained, range] using owned
    · rintro _ _ rfl rfl different
      exact absurd rfl different
    · simp [map, left, gained, range]

include positive in
lemma execAlloc_sound (sound : Sound area s) {i : Nat} (none : s.bno i = 0)
    (result : execAlloc s i = some t) : Sound area t := by
  obtain ⟨r, mp', call, wf', tiles⟩ := take_one positive sound (c := .args i)
    (show 0 < btod (NCARGS + MAXBSIZE) by decide) (by simp [clientRegion, none])
  simp only [execAlloc, call, map_some, some.injEq] at result
  subst result
  refine ⟨wf', tiles _ rfl (by simp [clientRegion]) ?_, sound.sized⟩
  rintro (⟨p, n⟩ | j | u) other
  · rfl
  · have different : j ≠ i := fun h => other (by simp [h])
    simp [clientRegion, update_of_ne different]
  · rfl

include positive in
lemma execDone_sound (sound : Sound area s) {i : Nat}
    (room : s.bno i ≠ 0 → roomFor s.swapmap [(btod (NCARGS + MAXBSIZE), s.bno i)] = true)
    (result : execDone s i = some t) : Sound area t := by
  by_cases held : s.bno i = 0
  · simp only [execDone, held, ne_eq, not_true_eq_false, if_false, some.injEq] at result
    exact result ▸ sound
  · obtain ⟨mp', call, wf', _, tiles⟩ := release_one positive sound (c := .args i)
      (by simp [clientRegion, held]) (room_single (room held))
    simp only [execDone, ne_eq, held, not_false_eq_true, if_true, call, map_some,
      some.injEq] at result
    subst result
    refine ⟨wf', tiles _ rfl (by simp [clientRegion]) ?_, sound.sized⟩
    rintro (⟨p, n⟩ | j | u) other
    · rfl
    · have different : j ≠ i := fun h => other (by simp [h])
      simp [clientRegion, update_of_ne different]
    · rfl

lemma clientRegion_temp_ne (mp : Map) {tdstart tdsize : Fin NTMP → Nat}
    (starts : ∀ v, v ≠ u → tdstart v = s.tdstart v) (sizes : ∀ v, v ≠ u → tdsize v = s.tdsize v)
    (d : Client) (other : d ≠ .temp u) : clientRegion { s with swapmap := mp, tdstart, tdsize } d =
      clientRegion s d := by
  rcases d with ⟨p, n⟩ | i | v
  · rfl
  · rfl
  · have different : v ≠ u := fun h => other (by simp [h])
    simp [clientRegion, starts v different, sizes v different]

/-- The state as it would be had `swcioctl` cleared `tdstart` with the release. -/
def cleared (s : Swap) (u : Fin NTMP) (mp : Map) : Swap :=
  { s with swapmap := mp, tdstart := update s.tdstart u 0 }

include positive in
lemma tfrelease_sound (sound : Sound area s)
    (room : s.tdstart u ≠ 0 → roomFor s.swapmap [(s.tdsize u, s.tdstart u)] = true) :
    ∃ mp, tfrelease s u = some mp ∧ Sound area (cleared s u mp) ∧
      (s.tdstart u ≠ 0 → s.tdstart u ∈ free mp) := by
  have sized : ∀ mp v, (cleared s u mp).tdstart v ≠ 0 → 0 < (cleared s u mp).tdsize v := by
    intro mp v hv
    by_cases h : v = u
    · subst h
      simp [cleared] at hv
    · simp only [cleared, update_of_ne h] at hv
      exact sound.sized v hv
  by_cases held : s.tdstart u = 0
  · have same : cleared s u s.swapmap = s := by simp [cleared, ← held]
    exact ⟨s.swapmap, by simp [tfrelease, held], same.symm ▸ sound, fun h => absurd held h⟩
  · obtain ⟨mp, call, wf', back, tiles⟩ := release_one positive sound (c := .temp u)
      (by simp [clientRegion, held]) (room_single (room held))
    refine ⟨mp, by simp [tfrelease, Nat.pos_of_ne_zero held, call],
      ⟨wf', tiles _ rfl (by simp [cleared, clientRegion]) ?_, sized mp⟩, fun _ => ?_⟩
    · exact clientRegion_temp_ne mp (fun v h => update_of_ne h _ _) (fun _ _ => rfl)
    · have := sound.sized u held
      simp only [back, Set.mem_union, range, Set.mem_Ico]
      omega

include positive in
lemma tfalloc_sound (sound : Sound area s) {arg : Int}
    (room : s.tdstart u ≠ 0 → roomFor s.swapmap [(s.tdsize u, s.tdstart u)] = true)
    (keeps : s.tdstart u ≠ 0 → 0 < arg) {r : Option Errno × Int × Swap}
    (result : swcioctl s u .TFALLOC arg = some r) : Sound area r.2.2 := by
  obtain ⟨mp, release, clear, _⟩ := tfrelease_sound positive sound room
  by_cases asked : 0 < arg
  · have size : 0 < arg.toNat := by omega
    obtain ⟨addr, mp', call, wf', tiles⟩ := take_one positive clear (c := .temp u) size
      (by simp [clientRegion, cleared])
    have call' : malloc mp arg.toNat = some (addr, mp') := call
    simp only [swcioctl, release, bind_some, asked, if_true, call', map_some, some.injEq] at result
    subst result
    have others : ∀ tdsize : Fin NTMP → Nat, (∀ v, v ≠ u → tdsize v = s.tdsize v) →
        ∀ d, d ≠ .temp u → clientRegion { s with
          swapmap := mp', tdstart := update s.tdstart u addr, tdsize } d =
          clientRegion (cleared s u mp) d := by
      intro tdsize same d other
      exact (clientRegion_temp_ne mp' (fun v h => update_of_ne h _ _) same d other).trans
        (clientRegion_temp_ne mp (fun v h => update_of_ne h _ _) (fun _ _ => rfl) d other).symm
    split
    · next found =>
      refine ⟨wf', tiles _ rfl (by simp [clientRegion]) (others _
        (fun v h => update_of_ne h _ _)), fun v hv => ?_⟩
      by_cases h : v = u
      · subst h
        simpa only [update_self] using size
      · simp only [update_of_ne h] at hv ⊢
        exact sound.sized v hv
    · next failed =>
      obtain rfl : addr = 0 := by omega
      refine ⟨wf', tiles _ rfl (by simp [clientRegion]) (others _ (fun _ _ => rfl)), fun v hv => ?_⟩
      by_cases h : v = u
      · subst h
        simp at hv
      · simp only [update_of_ne h] at hv
        exact sound.sized v hv
  · have nothing : s.tdstart u = 0 := by
      by_contra h
      exact asked (keeps h)
    simp only [tfrelease, nothing, gt_iff_lt, lt_irrefl, if_false, some.injEq] at release
    simp only [swcioctl, tfrelease, nothing, gt_iff_lt, lt_irrefl, if_false, asked,
      bind_some, some.injEq] at result
    exact result ▸ sound

lemma resize_sound (sound : Sound area s) {d sz : Nat} (inCore : (s.proc p).loaded = true) :
    Sound area { s with
      proc := update s.proc p { s.proc p with p_dsize := d, p_ssize := sz } } := by
  have same : owner { s with
      proc := update s.proc p { s.proc p with p_dsize := d, p_ssize := sz } } = owner s := by
    funext o
    rcases o with _ | ⟨⟨q, n⟩ | i | u⟩
    · rfl
    · by_cases h : q = p
      · subst h
        simp [clientRegion, inCore]
      · simp [clientRegion, update_of_ne h]
    · rfl
    · rfl
  exact ⟨sound.wf, same ▸ sound.tiles, sound.sized⟩

include positive in
lemma step_sound (s : Swap) (op : Op) (t : Swap) (sound : Sound area s)
    (ok : Allowed s op ∧ Keeps s op) (step : Step s op t) : Sound area t := by
  obtain ⟨allowed, keeps⟩ := ok
  cases op with
  | swapout p a => exact swapout_sound sound allowed step
  | swapin p u0 => exact swapin_sound positive sound allowed.1 allowed.2 step
  | resize p d sz => exact some.inj step ▸ resize_sound sound allowed
  | execAlloc i => exact execAlloc_sound positive sound allowed step
  | execDone i => exact execDone_sound positive sound allowed step
  | ioctl unit cmd arg =>
    simp only [Step, apply] at step
    split at step
    · next inRange =>
      obtain ⟨r, call, rfl⟩ := map_eq_some_iff.mp step
      cases cmd with
      | TFALLOC => exact tfalloc_sound positive sound (allowed inRange) (keeps inRange) call
      | RDGETMEDIASIZE => exact some.inj call ▸ sound
      | other => exact some.inj call ▸ sound
    · exact some.inj step ▸ sound
  | tdread unit uio_offset iov_len => exact some.inj step ▸ sound
  | tdwrite unit uio_offset iov_len => exact some.inj step ▸ sound

include positive in
/-- A release that asks for nothing leaves its range with the device and in the map. -/
lemma release_shared (sound : Sound area s) {op : Op} (allowed : Allowed s op)
    (gives : ¬ Keeps s op) : ∃ t, Step s op t ∧ ¬ Owned area t := by
  rcases op with _ | _ | _ | _ | _ | ⟨unit, cmd, arg⟩ | _ | _
  case ioctl =>
    rcases cmd with _ | _ | _
    case TFALLOC =>
      simp only [Keeps, not_forall] at gives
      obtain ⟨inRange, held, small⟩ := gives
      obtain ⟨mp, release, clear, shared⟩ := tfrelease_sound positive sound (allowed inRange)
      refine ⟨{ s with swapmap := mp }, by simp [Step, apply, inRange, swcioctl, release, small],
        fun owned => ?_⟩
      obtain ⟨_, onto, _⟩ := tiles_iff.mp (freeSegments_tile clear.wf)
      obtain ⟨k, hk⟩ := onto _ (shared held)
      obtain ⟨_, _, unique⟩ := tiles_iff.mp owned
      have mine : s.tdstart ⟨unit, inRange⟩ ∈
          clientRegion { s with swapmap := mp } (.temp ⟨unit, inRange⟩) := by
        have := sound.sized _ held
        simp only [clientRegion, held, if_false, range, Set.mem_Ico]
        omega
      cases unique (.inl k) (.inr (.temp ⟨unit, inRange⟩)) _ hk mine
    all_goals exact absurd trivial gives
  all_goals exact absurd trivial gives

end Steps

/-! ## Histories -/

def SMAPSIZ : Nat := 10

/-- `swapent` before `mfree (swapmap, nswap, swapstart)`. -/
def emptyMap : Map := ⟨List.replicate SMAPSIZ terminator, SMAPSIZ⟩

/-- The kernel has put the swap area into the map and no client holds any of it. -/
structure Started (swapstart nswap : Nat) (s : Swap) : Prop where
  map : mfree emptyMap nswap swapstart = some s.swapmap
  procs : ∀ p, (s.proc p).loaded = true
  execs : ∀ i, s.bno i = 0
  temps : ∀ u, s.tdstart u = 0

lemma emptyMap_wellFormed : WellFormed emptyMap :=
  ⟨⟨replicate 9 terminator, rfl⟩, by simp [emptyMap, segments, terminator],
    by simp [Apart, emptyMap, segments, terminator]⟩

lemma started_sound {swapstart nswap : Nat} (started : Started swapstart nswap s) :
    0 ∉ Set.Ico swapstart (swapstart + nswap) ∧
      Sound (Set.Ico swapstart (swapstart + nswap)) s := by
  have nothing : free emptyMap = ∅ := by simp [free, covered, segments, emptyMap, terminator]
  have clients : ∀ c, clientRegion s c = ∅ := by
    rintro (⟨-, -⟩ | - | u)
    · simp [clientRegion, started.procs]
    · simp [clientRegion, started.execs]
    · simp [clientRegion, started.temps]
  have nonzero : 0 < nswap → swapstart ≠ 0 := by
    rintro positive rfl
    have := started.map
    simp [mfree, ne_of_gt positive] at this
  obtain ⟨mp', call, wf', back⟩ := mfree_range emptyMap_wellFormed nonzero (by simp [nothing])
    (by simp [overflows, newEnd, passed, inUse, emptyMap, SMAPSIZ, terminator])
  obtain rfl : s.swapmap = mp' := some.inj (started.map.symm.trans call)
  refine ⟨by simp only [Set.mem_Ico]; omega, wf', tiles_iff.mpr ⟨?_, ?_, ?_⟩,
    fun u h => absurd (started.temps u) h⟩
  · rintro (_ | c) x hx
    · simpa [back, nothing, range] using hx
    · simp [clients] at hx
  · intro x hx
    exact ⟨none, by simpa [back, nothing, range] using hx⟩
  · rintro (_ | c) (_ | d) x hx hy
    · rfl
    · simp [clients] at hy
    · simp [clients] at hx
    · simp [clients] at hx

/-- As long as no temp device is released by a size of 0 or less, every state
is tiled by the free segments and the clients; and the first such release ends that. -/
theorem swap_ownership {swapstart nswap : Nat} {start s : Swap} (ops : List Op)
    (started : Started swapstart nswap start)
    (run : Run Step (fun s op => Allowed s op ∧ Keeps s op) start ops s) :
    Owned (Set.Ico swapstart (swapstart + nswap)) s ∧ ∀ op, Allowed s op → ¬ Keeps s op →
        ∃ t, Step s op t ∧ ¬ Owned (Set.Ico swapstart (swapstart + nswap)) t := by
  obtain ⟨positive, begins⟩ := started_sound started
  have now := run_invariant _ (step_sound positive) run begins
  exact ⟨owned_of_sound now, fun op allowed gives => release_shared positive now allowed gives⟩

def freshSwap : Swap :=
  ⟨⟨⟨10, 1⟩ :: List.replicate 9 terminator, 10⟩, fun _ => ⟨0, 0, 0, 0, 0, true⟩, fun _ => 0,
    fun _ => 0, fun _ => 0⟩

lemma freshSwap_started : Started 1 10 freshSwap :=
  ⟨by decide, fun _ => rfl, fun _ => rfl, fun _ => rfl⟩

/-- Four blocks are allocated to the first temp device. -/
def allocatedSwap : Swap :=
  { freshSwap with
    swapmap := ⟨⟨6, 5⟩ :: List.replicate 9 terminator, 10⟩
    tdstart := update freshSwap.tdstart 0 1
    tdsize := update freshSwap.tdsize 0 4 }

theorem swap_ownership_allocated :
    Started 1 10 freshSwap ∧ Step freshSwap (.ioctl 0 .TFALLOC 4) allocatedSwap ∧
      Owned (Set.Ico 1 11) allocatedSwap :=
  ⟨freshSwap_started, rfl, (swap_ownership [.ioctl 0 .TFALLOC 4] freshSwap_started
    (.cons ⟨fun _ h => absurd rfl h, fun _ h => absurd rfl h⟩ rfl (.nil _))).1⟩

/-- Released by size 0, they are in the map and still the device's. -/
theorem released_swap_not_owned : Started 1 10 freshSwap ∧ ∃ s,
      Run Step Allowed freshSwap [.ioctl 0 .TFALLOC 4, .ioctl 0 .TFALLOC 0] s ∧
      ¬ Owned (Set.Ico 1 (1 + 10)) s := by
  refine ⟨freshSwap_started,
    { allocatedSwap with swapmap := ⟨⟨10, 1⟩ :: replicate 9 terminator, 10⟩ },
    .cons (fun _ h => absurd rfl h) rfl
      (.cons (fun _ _ => rfl) rfl (.nil _)), fun owned => ?_⟩
  obtain ⟨_, _, unique⟩ := tiles_iff.mp owned
  have inMap : 1 ∈ freeSegment { allocatedSwap with
      swapmap := ⟨⟨10, 1⟩ :: replicate 9 terminator, 10⟩ } 0 := by
    simp [freeSegment, segments, range]
  have inDevice : 1 ∈ clientRegion { allocatedSwap with
      swapmap := ⟨⟨10, 1⟩ :: replicate 9 terminator, 10⟩ } (.temp 0) := by
    simp [clientRegion, allocatedSwap, range]
  cases unique (.inl 0) (.inr (.temp 0)) 1 inMap inDevice

end SwapSpace
