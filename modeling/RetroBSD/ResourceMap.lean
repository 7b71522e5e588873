import RetroBSD.Runs
import Mathlib.Data.List.GetD
import Mathlib.Order.CompletePartialOrder

/-!
# Resource maps

`malloc`, `mfree` and `malloc3` of `sys/kernel/subr_rmap.c`. A map is an array
of slots, each a base address and a size, ended by the first slot of size 0.
Pointers into the array are positions; what lies from a pointer on is a suffix
of the slots. Addresses and sizes are natural numbers: the results are about
histories in which no address sum wraps around.

The `DIAGNOSTIC` overlap checks are not compiled in and are left out.
-/

namespace ResourceMap

open Runs List

scoped instance neZero : NeZero 3 := ⟨by decide⟩

structure MapEnt where
  m_size : Nat
  m_addr : Nat
deriving DecidableEq, Repr

/-- `m_map` is the array from its first slot on and `m_limit` the position of
the last slot that may be written. The name is used in a message only. -/
structure Map where
  m_map : List MapEnt
  m_limit : Nat
deriving DecidableEq, Repr

/-- The delimiter; also what a read past the array is taken to give. -/
def terminator : MapEnt := ⟨0, 0⟩

/-- Move the slots after the first one down by one place, up to and including
the first slot of size 0, as `malloc` and `mfree` do with `ep` one place behind `bp`. -/
def shiftDown : List MapEnt → List MapEnt
  | _ :: next :: rest =>
    next :: (if next.m_size = 0 then next :: rest else shiftDown (next :: rest))
  | slots => slots

/-- The search loop of `malloc` from the slot `bp` on. -/
def mallocFrom (size : Nat) : List MapEnt → Nat × List MapEnt
  | [] => (0, [])
  | bp :: rest =>
    if bp.m_size = 0 then (0, bp :: rest)
    else if size ≤ bp.m_size then
      if bp.m_size - size ≠ 0 then
        (bp.m_addr, ⟨bp.m_size - size, bp.m_addr + size⟩ :: rest)
      else (bp.m_addr, shiftDown (⟨0, bp.m_addr⟩ :: rest))
    else
      let r := mallocFrom size rest
      (r.1, bp :: r.2)

/-- `malloc`; `none` is the panic on size 0. -/
def malloc (mp : Map) (size : Nat) : Option (Nat × Map) :=
  if size = 0 then none
  else
    let r := mallocFrom size mp.m_map
    some (r.1, { mp with m_map := r.2 })

/-- How many slots `mfree` passes: those in use that start at or before `addr`. -/
def passed (addr : Nat) : List MapEnt → Nat
  | [] => 0
  | bp :: rest => if bp.m_size ≠ 0 ∧ bp.m_addr ≤ addr then passed addr rest + 1 else 0

/-- How many slots in use come before the end of the map. -/
def inUse : List MapEnt → Nat
  | [] => 0
  | bp :: rest => if bp.m_size ≠ 0 then inUse rest + 1 else 0

/-- Move the slots up by one place, the end of the map included; the result is
what then stands from the second place on. -/
def shiftUp : List MapEnt → List MapEnt
  | [] => []
  | bp :: rest => if bp.m_size = 0 then bp :: rest.tail else bp :: shiftUp rest

/-- `bp` and `ep = bp - 1` of `mfree` once the search loop has ended. -/
def slot (mp : Map) (i : Nat) : MapEnt := mp.m_map.getD i terminator

/-- The position one past the end of the map, compared with `m_limit` before a
new slot is made. -/
def newEnd (mp : Map) (addr : Nat) : Nat :=
  let i := passed addr mp.m_map
  i + inUse (mp.m_map.drop i) + 1

def abutsLeft (mp : Map) (addr : Nat) : Bool :=
  let i := passed addr mp.m_map
  let ep := slot mp (i - 1)
  decide (i ≠ 0 ∧ addr ≤ ep.m_addr + ep.m_size)

def abutsRight (mp : Map) (size addr : Nat) : Bool :=
  let bp := slot mp (passed addr mp.m_map)
  decide (bp.m_size ≠ 0 ∧ bp.m_addr ≤ addr + size)

/-- `mfree`; `none` is the panic on address 0. -/
def mfree (mp : Map) (size addr : Nat) : Option Map :=
  if size = 0 then some mp
  else if addr = 0 then none
  else
    let i := passed addr mp.m_map
    let bp := slot mp i
    let ep := slot mp (i - 1)
    if abutsLeft mp addr then
      if abutsRight mp size addr then
        some { mp with m_map := mp.m_map.take (i - 1) ++
          ⟨ep.m_size + size + bp.m_size, ep.m_addr⟩ :: shiftDown (mp.m_map.drop i) }
      else
        some { mp with m_map := mp.m_map.set (i - 1) ⟨ep.m_size + size, ep.m_addr⟩ }
    else if abutsRight mp size addr then
      some { mp with m_map := mp.m_map.set i ⟨bp.m_size + size, addr⟩ }
    else if newEnd mp addr > mp.m_limit then
      -- "overflow, lost %u clicks": the space is dropped and the map kept
      some mp
    else
      some { mp with m_map := mp.m_map.take i ++ ⟨size, addr⟩ :: shiftUp (mp.m_map.drop i) }

/-- The branch of `mfree` that loses the space it was given. -/
def overflows (mp : Map) (size addr : Nat) : Bool :=
  !abutsLeft mp addr && !abutsRight mp size addr && decide (mp.m_limit < newEnd mp addr)

/-- `madd` of `malloc3`: the position of the slot each segment is taken from. -/
abbrev Madd := Fin 3 → Option Nat

/-- One round of the inner loop of `malloc3` at the slot `bp`: the size left in
the slot, and `madd`. -/
def tryNext (sizes : Fin 3 → Nat) (bp : Nat) (st : Nat × Madd) (next : Fin 3) : Nat × Madd :=
  if st.2 next = none ∧ sizes next ≤ st.1 then
    (st.1 - sizes next, Function.update st.2 next (some bp))
  else st

def trySlot (sizes : Fin 3 → Nat) (bp : Nat) (st : Nat × Madd) : Nat × Madd :=
  tryNext sizes bp (tryNext sizes bp (tryNext sizes bp st 0) 1) 2

/-- `found == 3`: all three segments have a slot. -/
def complete (madd : Madd) : Bool :=
  (madd 0).isSome && (madd 1).isSome && (madd 2).isSome

/-- The slots, `madd` and `remap` when the search of `malloc3` ends. -/
structure Search where
  m_map : List MapEnt
  madd : Madd
  remap : Option Nat

/-- The outer loop of `malloc3` from the slot at position `bp` on. A slot is in
use when the loop reaches it, so it is emptied exactly when nothing is left of it;
`remap` is the first such slot. -/
def search (sizes : Fin 3 → Nat) (bp : Nat) (madd : Madd) : List MapEnt → Search
  | [] => ⟨[], madd, none⟩
  | e :: rest =>
    if e.m_size = 0 then ⟨e :: rest, madd, none⟩
    else
      let st := trySlot sizes bp (e.m_size, madd)
      let emptied := if st.1 = 0 then some bp else none
      if complete st.2 then ⟨⟨st.1, e.m_addr⟩ :: rest, st.2, emptied⟩
      else
        let r := search sizes (bp + 1) st.2 rest
        ⟨⟨st.1, e.m_addr⟩ :: r.m_map, r.madd, emptied.or r.remap⟩

/-- "couldn't get it all; restore the old sizes". -/
def giveBack (sizes : Fin 3 → Nat) (madd : Madd) (slots : List MapEnt) (next : Fin 3) :
    List MapEnt :=
  match madd next with
  | some i => slots.modify i (fun e => ⟨e.m_size + sizes next, e.m_addr⟩)
  | none => slots

/-- "got it all, update the addresses": the slots and the array `a`. -/
def resolve (sizes : Fin 3 → Nat) (madd : Madd) (st : List MapEnt × (Fin 3 → Nat))
    (next : Fin 3) : List MapEnt × (Fin 3 → Nat) :=
  match madd next with
  | some i =>
    (st.1.modify i (fun e => ⟨e.m_size, e.m_addr + sizes next⟩),
      Function.update st.2 next (st.1.getD i terminator).m_addr)
  | none => st

/-- The slots that the last loop of `malloc3` copies: those in use, and the one
with address 0, at which it stops. -/
def kept : List MapEnt → List MapEnt
  | [] => []
  | bp :: rest =>
    if bp.m_size ≠ 0 ∨ bp.m_addr = 0 then
      bp :: (if bp.m_addr = 0 then [] else kept rest)
    else kept rest

/-- "remove any entries of size 0; addr of 0 terminates". The slots read lie
beyond those already written, and what is not overwritten stays. -/
def squeeze (slots : List MapEnt) : Option Nat → List MapEnt
  | none => slots
  | some remap =>
    let copied := kept (slots.drop (remap + 1))
    slots.take remap ++ copied ++ slots.drop (remap + copied.length)

/-- `malloc3`: the value returned, the array `a` and the map. -/
def malloc3 (mp : Map) (d_size s_size u_size : Nat) (a : Fin 3 → Nat) :
    Nat × (Fin 3 → Nat) × Map :=
  let sizes : Fin 3 → Nat := ![d_size, s_size, u_size]
  let r := search sizes 0 (fun _ => none) mp.m_map
  if complete r.madd then
    let st := resolve sizes r.madd (resolve sizes r.madd (resolve sizes r.madd (r.m_map, a) 0) 1) 2
    (st.2 2, st.2, { mp with m_map := squeeze st.1 r.remap })
  else
    let slots := giveBack sizes r.madd (giveBack sizes r.madd
      (giveBack sizes r.madd r.m_map 0) 1) 2
    (0, a, { mp with m_map := slots })

/-! ## The form of a map -/

/-- Each segment ends before the next one begins: they are sorted by address,
disjoint, and no two abut. -/
def Apart (segs : List MapEnt) : Prop :=
  segs.Pairwise (fun e f => e.m_addr + e.m_size < f.m_addr)

/-- The slots hold the given segments, and then the end of the map. -/
structure Holds (slots segs : List MapEnt) : Prop where
  ended : ∃ unused, slots = segs ++ terminator :: unused
  positive : ∀ e ∈ segs, 0 < e.m_size
  apart : Apart segs

def segments (slots : List MapEnt) : List MapEnt :=
  slots.takeWhile (fun e => e.m_size ≠ 0)

def WellFormed (mp : Map) : Prop := Holds mp.m_map (segments mp.m_map)

def covered (segs : List MapEnt) : Set Nat :=
  {x | ∃ e ∈ segs, e.m_addr ≤ x ∧ x < e.m_addr + e.m_size}

def free (mp : Map) : Set Nat := covered (segments mp.m_map)

variable {left post pre right segs unused : List MapEnt} {mp : Map} {e : MapEnt} {addr size : Nat}

lemma segments_eq {slots : List MapEnt} (holds : Holds slots segs) : segments slots = segs := by
  obtain ⟨unused, rfl⟩ := holds.ended
  unfold segments
  rw [takeWhile_append_of_pos (fun e he => by have := holds.positive e he; simpa using by omega)]
  simp [terminator]

lemma wellFormed_of_holds (holds : Holds mp.m_map segs) : WellFormed mp := by
  unfold WellFormed
  rwa [segments_eq holds]

lemma free_of_holds (holds : Holds mp.m_map segs) : free mp = covered segs := by
  unfold free
  rw [segments_eq holds]

lemma apart_split (pre post : List MapEnt) (e : MapEnt) : Apart (pre ++ e :: post) ↔
      Apart pre ∧ Apart post ∧ (∀ f ∈ pre, f.m_addr + f.m_size < e.m_addr) ∧
      (∀ g ∈ post, e.m_addr + e.m_size < g.m_addr) ∧
      ∀ f ∈ pre, ∀ g ∈ post, f.m_addr + f.m_size < g.m_addr := by
  simp only [Apart, pairwise_append, pairwise_cons, mem_cons]
  constructor
  · rintro ⟨hpre, ⟨hep, hpost⟩, hcross⟩
    exact ⟨hpre, hpost, fun f hf => hcross f hf e (.inl rfl), hep,
      fun f hf g hg => hcross f hf g (.inr hg)⟩
  · rintro ⟨hpre, hpost, hpe, hep, hcross⟩
    refine ⟨hpre, ⟨hep, hpost⟩, ?_⟩
    rintro f hf g (rfl | hg)
    · exact hpe f hf
    · exact hcross f hf g hg

/-! ## malloc -/

lemma shiftDown_segments (e : MapEnt) (post unused : List MapEnt)
    (positive : ∀ f ∈ post, 0 < f.m_size) : shiftDown (e :: (post ++ terminator :: unused)) =
      post ++ terminator :: terminator :: unused := by
  induction post generalizing e with
  | nil => simp [shiftDown, terminator]
  | cons f post ih =>
    have hf : f.m_size ≠ 0 := by have := positive f mem_cons_self; omega
    simp only [cons_append, shiftDown, if_neg hf]
    rw [ih f (fun g hg => positive g (mem_cons_of_mem f hg))]

lemma mallocFrom_none (unused : List MapEnt)
    (small : ∀ e ∈ segs, e.m_size < size) (positive : ∀ e ∈ segs, 0 < e.m_size) :
    mallocFrom size (segs ++ terminator :: unused) = (0, segs ++ terminator :: unused) := by
  induction segs with
  | nil => simp [mallocFrom, terminator]
  | cons e segs ih =>
    have hlt := small e mem_cons_self
    have hpos := positive e mem_cons_self
    have tail := ih (fun f hf => small f (mem_cons_of_mem e hf))
      (fun f hf => positive f (mem_cons_of_mem e hf))
    simp only [cons_append, mallocFrom]
    rw [if_neg (by omega), if_neg (by omega), tail]

/-- What is left of the segment that `malloc` takes its units from. -/
def remainder (size : Nat) (e : MapEnt) : List MapEnt :=
  if e.m_size = size then [] else [⟨e.m_size - size, e.m_addr + size⟩]

lemma mallocFrom_some (unused : List MapEnt)
    (small : ∀ f ∈ pre, f.m_size < size) (fits : size ≤ e.m_size) (asked : 0 < size)
    (positive : ∀ f ∈ pre ++ e :: post, 0 < f.m_size) :
    ∃ unused', mallocFrom size (pre ++ e :: post ++ terminator :: unused) =
      (e.m_addr, pre ++ remainder size e ++ post ++ terminator :: unused') := by
  induction pre with
  | nil =>
    simp only [nil_append, cons_append, mallocFrom]
    rw [if_neg (by omega), if_pos fits]
    by_cases whole : e.m_size = size
    · refine ⟨terminator :: unused, ?_⟩
      rw [shiftDown_segments _ _ _ (fun f hf => positive f (by simp [hf]))]
      simp [remainder, whole]
    · refine ⟨unused, ?_⟩
      rw [if_pos (by omega)]
      simp [remainder, whole]
  | cons f pre ih =>
    have hlt := small f mem_cons_self
    have hpos := positive f (by simp)
    obtain ⟨unused', tail⟩ := ih (fun g hg => small g (mem_cons_of_mem f hg))
      (fun g hg => positive g (mem_cons_of_mem f hg))
    refine ⟨unused', ?_⟩
    simp only [cons_append, mallocFrom]
    rw [if_neg (by omega), if_neg (by omega)]
    rw [tail]

lemma first_fit (size : Nat) (segs : List MapEnt) : (∀ e ∈ segs, e.m_size < size) ∨
      ∃ pre e post, segs = pre ++ e :: post ∧ (∀ f ∈ pre, f.m_size < size) ∧ size ≤ e.m_size := by
  induction segs with
  | nil => exact .inl (by simp)
  | cons e segs ih =>
    by_cases fits : size ≤ e.m_size
    · exact .inr ⟨[], e, segs, rfl, by simp, fits⟩
    rcases ih with small | ⟨pre, f, post, rfl, small, fits'⟩
    · refine .inl (fun f hf => ?_)
      rcases mem_cons.mp hf with rfl | hf
      · omega
      · exact small f hf
    · refine .inr ⟨e :: pre, f, post, rfl, fun g hg => ?_, fits'⟩
      rcases mem_cons.mp hg with rfl | hg
      · omega
      · exact small g hg

lemma covered_append (left right : List MapEnt) :
    covered (left ++ right) = covered left ∪ covered right := by
  ext x
  simp [covered, or_and_right, exists_or]

lemma mem_covered_cons (e : MapEnt) (segs : List MapEnt) (x : Nat) :
    x ∈ covered (e :: segs) ↔ (e.m_addr ≤ x ∧ x < e.m_addr + e.m_size) ∨ x ∈ covered segs := by
  simp [covered]

lemma covered_nil : covered [] = ∅ := by
  ext x
  simp [covered]

lemma apart_remainder (apart : Apart (pre ++ e :: post)) (fits : size ≤ e.m_size) :
    Apart (pre ++ remainder size e ++ post) := by
  obtain ⟨hpre, hpost, hpe, hep, hcross⟩ := (apart_split pre post e).mp apart
  unfold remainder
  split
  · simpa [Apart, pairwise_append] using .intro hpre ⟨hpost, hcross⟩
  · rw [append_assoc]
    refine (apart_split _ _ _).mpr ⟨hpre, hpost, fun f hf => ?_, fun g hg => ?_, hcross⟩
    · have := hpe f hf; dsimp only; omega
    · have := hep g hg; dsimp only; omega

lemma covered_remainder (apart : Apart (pre ++ e :: post)) (fits : size ≤ e.m_size) :
    covered (pre ++ remainder size e ++ post) =
      covered (pre ++ e :: post) \ Set.Ico e.m_addr (e.m_addr + size) := by
  obtain ⟨-, -, hpe, hep, -⟩ := (apart_split pre post e).mp apart
  ext x
  have rest : x ∈ covered (remainder size e) ↔ e.m_addr + size ≤ x ∧ x < e.m_addr + e.m_size := by
    unfold remainder
    split
    · simp only [covered_nil, Set.mem_empty_iff_false, false_iff]
      omega
    · simp only [mem_covered_cons, covered_nil, Set.mem_empty_iff_false, or_false]
      omega
  simp only [Set.mem_sdiff, covered_append, Set.mem_union, mem_covered_cons, Set.mem_Ico, rest]
  by_cases before : x ∈ covered pre
  · obtain ⟨f, hf, hx⟩ := id before
    have := hpe f hf
    simp only [before, true_or, true_and, true_iff]
    omega
  by_cases after : x ∈ covered post
  · obtain ⟨g, hg, hx⟩ := id after
    have := hep g hg
    simp only [after, or_true, true_and, true_iff]
    omega
  · simp only [before, after, false_or, or_false]
    omega

/-- Either no segment is large enough, and nothing changes; or the units come
from the lowest segment that is, and exactly they are no longer free. -/
def MallocEffect (mp mp' : Map) (size r : Nat) : Prop :=
  ((∀ e ∈ segments mp.m_map, e.m_size < size) ∧ r = 0 ∧ mp' = mp) ∨
  ∃ e ∈ segments mp.m_map, size ≤ e.m_size ∧ r = e.m_addr ∧
    (∀ f ∈ segments mp.m_map, size ≤ f.m_size → e.m_addr ≤ f.m_addr) ∧
    Set.Ico r (r + size) ⊆ free mp ∧ free mp' = free mp \ Set.Ico r (r + size)

lemma malloc_spec (wf : WellFormed mp) (asked : 0 < size) :
    ∃ r mp', malloc mp size = some (r, mp') ∧ WellFormed mp' ∧ mp'.m_limit = mp.m_limit ∧
      MallocEffect mp mp' size r := by
  obtain ⟨⟨unused, slots⟩, positive, apart⟩ := id wf
  have unfolded : malloc mp size = some ((mallocFrom size mp.m_map).1,
      { mp with m_map := (mallocFrom size mp.m_map).2 }) := by
    simp [malloc, show size ≠ 0 by omega]
  rcases first_fit size (segments mp.m_map) with small | ⟨pre, e, post, split, small, fits⟩
  · have none := mallocFrom_none unused small positive
    rw [← slots] at none
    rw [none] at unfolded
    exact ⟨0, mp, unfolded, wf, rfl, .inl ⟨small, rfl, rfl⟩⟩
  · rw [split] at positive apart
    obtain ⟨unused', taken⟩ := mallocFrom_some unused small fits asked positive
    rw [← split, ← slots] at taken
    rw [taken] at unfolded
    have holds : Holds (pre ++ remainder size e ++ post ++ terminator :: unused')
        (pre ++ remainder size e ++ post) := by
      refine ⟨⟨unused', rfl⟩, fun f hf => ?_, apart_remainder apart fits⟩
      simp only [mem_append] at hf
      rcases hf with (hf | hf) | hf
      · exact positive f (by simp [hf])
      · unfold remainder at hf
        split at hf
        · simp at hf
        · obtain rfl := mem_singleton.mp hf
          dsimp only
          omega
      · exact positive f (by simp [hf])
    refine ⟨e.m_addr, _, unfolded, wellFormed_of_holds holds, rfl, .inr ⟨e, ?_, fits, rfl, ?_, ?_, ?_⟩⟩
    · rw [split]; simp
    · rw [split]
      obtain ⟨_, _, _, later, _⟩ := (apart_split pre post e).mp apart
      intro f hf large
      simp only [mem_append, mem_cons] at hf
      rcases hf with hf | rfl | hf
      · have := small f hf; omega
      · exact le_rfl
      · have := later f hf; omega
    · intro x hx
      rw [Set.mem_Ico] at hx
      unfold free
      rw [split, covered_append, Set.mem_union, mem_covered_cons]
      exact .inr (.inl (by omega))
    · rw [free_of_holds holds, free, split, covered_remainder apart fits]

/-! ## mfree -/

/-- The place in the map where an address belongs. -/
lemma place_of (addr : Nat) (segs : List MapEnt) (apart : Apart segs) :
    ∃ left right, segs = left ++ right ∧ (∀ e ∈ left, e.m_addr ≤ addr) ∧
      ∀ e ∈ right, addr < e.m_addr := by
  induction segs with
  | nil => exact ⟨[], [], rfl, by simp, by simp⟩
  | cons e segs ih =>
    obtain ⟨later, tail⟩ := pairwise_cons.mp apart
    by_cases before : e.m_addr ≤ addr
    · obtain ⟨left, right, rfl, hl, hr⟩ := ih tail
      refine ⟨e :: left, right, rfl, fun f hf => ?_, hr⟩
      rcases mem_cons.mp hf with rfl | hf
      · exact before
      · exact hl f hf
    · refine ⟨[], e :: segs, rfl, by simp, fun f hf => ?_⟩
      rcases mem_cons.mp hf with rfl | hf
      · omega
      · have := later f hf
        omega

lemma passed_eq (before : ∀ e ∈ left, e.m_addr ≤ addr) (after : ∀ e ∈ right, addr < e.m_addr)
    (positive : ∀ e ∈ left, 0 < e.m_size) :
    passed addr (left ++ (right ++ terminator :: unused)) = left.length := by
  induction left with
  | nil =>
    cases right with
    | nil => simp [passed, terminator]
    | cons e right =>
      have := after e mem_cons_self
      simp only [nil_append, cons_append, passed, length_nil]
      rw [if_neg (by omega)]
  | cons e left ih =>
    have hb := before e mem_cons_self
    have hp := positive e mem_cons_self
    simp only [cons_append, passed, length_cons]
    rw [if_pos (by omega), ih (fun f hf => before f (mem_cons_of_mem e hf))
      (fun f hf => positive f (mem_cons_of_mem e hf))]

lemma inUse_eq (positive : ∀ e ∈ segs, 0 < e.m_size) :
    inUse (segs ++ terminator :: unused) = segs.length := by
  induction segs with
  | nil => simp [inUse, terminator]
  | cons e segs ih =>
    have hp := positive e mem_cons_self
    simp only [cons_append, inUse, length_cons]
    rw [if_pos (by omega), ih (fun f hf => positive f (mem_cons_of_mem e hf))]

lemma shiftUp_segments (positive : ∀ e ∈ segs, 0 < e.m_size) :
    shiftUp (segs ++ terminator :: unused) = segs ++ terminator :: unused.tail := by
  induction segs with
  | nil => simp [shiftUp, terminator]
  | cons e segs ih =>
    have hp := positive e mem_cons_self
    simp only [cons_append, shiftUp]
    rw [if_neg (by omega), ih (fun f hf => positive f (mem_cons_of_mem e hf))]

/-- The segments once `size` units at `addr` are given back between `left` and `right`. -/
inductive Joined (size addr : Nat) : List MapEnt → List MapEnt → List MapEnt → Prop where
  | both (left right : List MapEnt) (ep bp : MapEnt) (low : ep.m_addr + ep.m_size = addr)
      (high : bp.m_addr = addr + size) :
      Joined size addr (left ++ [ep]) (bp :: right)
        (left ++ ⟨ep.m_size + size + bp.m_size, ep.m_addr⟩ :: right)
  | below (left right : List MapEnt) (ep : MapEnt) (low : ep.m_addr + ep.m_size = addr)
      (high : ∀ g ∈ right, addr + size < g.m_addr) :
      Joined size addr (left ++ [ep]) right (left ++ ⟨ep.m_size + size, ep.m_addr⟩ :: right)
  | above (left right : List MapEnt) (bp : MapEnt) (low : ∀ f ∈ left, f.m_addr + f.m_size < addr)
      (high : bp.m_addr = addr + size) :
      Joined size addr left (bp :: right) (left ++ ⟨bp.m_size + size, addr⟩ :: right)
  | new (left right : List MapEnt) (low : ∀ f ∈ left, f.m_addr + f.m_size < addr)
      (high : ∀ g ∈ right, addr + size < g.m_addr) :
      Joined size addr left right (left ++ ⟨size, addr⟩ :: right)

section Joining

variable (joined : Joined size addr left right segs) (apart : Apart (left ++ right))

include joined apart

/-- One segment takes the place of those that abut the space given back. -/
lemma Joined.merge :
    ∃ pre mid m post, left ++ right = pre ++ (mid ++ post) ∧ segs = pre ++ m :: post ∧
      (∀ f ∈ pre, f.m_addr + f.m_size < m.m_addr) ∧ (∀ g ∈ post, m.m_addr + m.m_size < g.m_addr) ∧
      ∀ x, m.m_addr ≤ x ∧ x < m.m_addr + m.m_size ↔
        x ∈ covered mid ∨ addr ≤ x ∧ x < addr + size := by
  have alone := fun e x => mem_covered_cons e [] x
  simp only [covered_nil, Set.mem_empty_iff_false, or_false] at alone
  cases joined with
  | both left right ep bp low high =>
    rw [append_assoc, singleton_append, apart_split] at apart
    obtain ⟨_, sorted, below, _⟩ := apart
    refine ⟨left, [ep, bp], _, right, by simp, rfl, below, fun g hg => ?_, fun x => ?_⟩
    · have := (pairwise_cons.mp sorted).1 g hg
      dsimp only
      omega
    · rw [mem_covered_cons, alone]
      dsimp only
      omega
  | below left right ep low high =>
    rw [append_assoc, singleton_append, apart_split] at apart
    obtain ⟨_, _, below, _⟩ := apart
    refine ⟨left, [ep], _, right, by simp, rfl, below, fun g hg => ?_, fun x => ?_⟩
    · have := high g hg
      dsimp only
      omega
    · rw [alone]
      dsimp only
      omega
  | above left right bp low high =>
    obtain ⟨_, _, _, above, _⟩ := (apart_split _ _ _).mp apart
    refine ⟨left, [bp], _, right, rfl, rfl, low, fun g hg => ?_, fun x => ?_⟩
    · have := above g hg
      dsimp only
      omega
    · rw [alone]
      dsimp only
      omega
  | new left right low high =>
    exact ⟨left, [], _, right, rfl, rfl, low, high, fun x => by simp [covered_nil]⟩

lemma joined_apart : Apart segs := by
  obtain ⟨pre, mid, m, post, split, rfl, low, high, -⟩ := joined.merge apart
  rw [split] at apart
  obtain ⟨before, rest, across⟩ := pairwise_append.mp apart
  exact (apart_split _ _ _).mpr ⟨before, (pairwise_append.mp rest).2.1, low, high,
    fun f hf g hg => across f hf g (mem_append_right mid hg)⟩

lemma joined_covered : covered segs = covered (left ++ right) ∪ Set.Ico addr (addr + size) := by
  obtain ⟨pre, mid, m, post, split, rfl, -, -, here⟩ := joined.merge apart
  ext x
  simp only [split, mem_covered_cons, here, covered_append, Set.mem_union]
  tauto

lemma joined_positive (asked : 0 < size) (positive : ∀ e ∈ left ++ right, 0 < e.m_size) :
    ∀ e ∈ segs, 0 < e.m_size := by
  obtain ⟨pre, mid, m, post, split, rfl, -, -, here⟩ := joined.merge apart
  intro e he
  rcases mem_append.mp he with he | he
  · exact positive e (by simp [split, he])
  rcases mem_cons.mp he with rfl | he
  · have := (here addr).mpr (.inr ⟨le_rfl, by omega⟩)
    omega
  · exact positive e (by simp [split, he])

end Joining

lemma slot_append (left rest : List MapEnt) (slots : mp.m_map = left ++ rest) :
    slot mp left.length = rest.headD terminator := by
  rw [slot, slots, getD_eq_getElem?_getD, getElem?_append_right (le_rfl), Nat.sub_self]
  cases rest <;> rfl

lemma slot_last {rest : List MapEnt} (slots : mp.m_map = left ++ [e] ++ rest) :
    slot mp ((left ++ [e]).length - 1) = e := by
  have := slot_append left (e :: rest) (by rw [slots]; simp)
  simpa using this

lemma abutsLeft_iff {rest : List MapEnt}
    (slots : mp.m_map = left ++ rest) (place : passed addr mp.m_map = left.length)
    (below : ∀ e ∈ left, e.m_addr + e.m_size ≤ addr) :
    abutsLeft mp addr = true ↔ ∃ left' ep, left = left' ++ [ep] ∧ ep.m_addr + ep.m_size = addr := by
  rcases eq_nil_or_concat' left with rfl | ⟨left', ep, rfl⟩
  · simp [abutsLeft, place]
  · have hep := below ep (by simp)
    simp only [abutsLeft, place, slot_last slots]
    constructor
    · intro h
      have abut := (of_decide_eq_true h).2
      exact ⟨left', ep, rfl, by omega⟩
    · rintro ⟨left'', ep', same, abut⟩
      have : ep = ep' := by
        have := congrArg getLast? same
        simpa using this
      subst ep'
      simp only [length_append, length_singleton, decide_eq_true_eq]
      omega

lemma abutsRight_iff (slots : mp.m_map = left ++ (right ++ terminator :: unused))
    (place : passed addr mp.m_map = left.length) (positive : ∀ e ∈ right, 0 < e.m_size)
    (above : ∀ e ∈ right, addr + size ≤ e.m_addr) : abutsRight mp size addr = true ↔
      ∃ bp right', right = bp :: right' ∧ bp.m_addr = addr + size := by
  simp only [abutsRight, place, slot_append _ _ slots, decide_eq_true_eq]
  cases right with
  | nil => simp [terminator]
  | cons bp right =>
    have hbp := above bp mem_cons_self
    have hpos := positive bp mem_cons_self
    simp only [cons_append, headD_cons, cons.injEq]
    constructor
    · intro h
      exact ⟨bp, right, ⟨rfl, rfl⟩, by omega⟩
    · rintro ⟨bp', -, ⟨rfl, rfl⟩, abut⟩
      omega

lemma gap_below
    (below : ∀ e ∈ left, e.m_addr + e.m_size ≤ addr) (before : ∀ e ∈ left, e.m_addr ≤ addr)
    (sorted : Apart left)
    (noAbut : ¬ ∃ left' ep, left = left' ++ [ep] ∧ ep.m_addr + ep.m_size = addr) :
    ∀ f ∈ left, f.m_addr + f.m_size < addr := by
  intro f hf
  obtain ⟨pre, post, rfl⟩ := append_of_mem hf
  obtain ⟨_, _, _, later, _⟩ := (apart_split pre post f).mp sorted
  rcases post with _ | ⟨g, post⟩
  · have le := below f hf
    have ne : f.m_addr + f.m_size ≠ addr := fun h => noAbut ⟨pre, f, rfl, h⟩
    omega
  · have := later g mem_cons_self
    have := before g (by simp)
    omega

lemma gap_above {limit : Nat} (above : ∀ e ∈ right, limit ≤ e.m_addr) (sorted : Apart right)
    (noAbut : ¬ ∃ bp right', right = bp :: right' ∧ bp.m_addr = limit) :
    ∀ g ∈ right, limit < g.m_addr := by
  intro g hg
  obtain ⟨pre, post, rfl⟩ := append_of_mem hg
  obtain ⟨_, _, earlier, _⟩ := (apart_split pre post g).mp sorted
  rcases pre with _ | ⟨f, pre⟩
  · have le := above g hg
    have ne : g.m_addr ≠ limit := fun h => noAbut ⟨g, post, rfl, h⟩
    omega
  · have := earlier f mem_cons_self
    have := above f (by simp)
    omega

/-- On a map of the right form `mfree` does what its comments say, unless it
loses the space. -/
lemma mfree_joined (holds : Holds mp.m_map segs) (asked : 0 < size) (nonzero : addr ≠ 0)
    (apart : Disjoint (Set.Ico addr (addr + size)) (covered segs))
    (room : overflows mp size addr = false) :
    ∃ left right segs' unused, segs = left ++ right ∧ Joined size addr left right segs' ∧
      mfree mp size addr = some { mp with m_map := segs' ++ terminator :: unused } ∧
      (segs.length < segs'.length → abutsLeft mp addr = false ∧ abutsRight mp size addr = false) := by
  obtain ⟨⟨unused, slots⟩, positive, sorted⟩ := holds
  obtain ⟨left, right, rfl, before, after⟩ := place_of addr segs sorted
  have outside : ∀ e ∈ left ++ right, ∀ x, e.m_addr ≤ x → x < e.m_addr + e.m_size →
      ¬ (addr ≤ x ∧ x < addr + size) := by
    intro e he x hlo hhi hx
    exact Set.disjoint_left.mp apart (Set.mem_Ico.mpr hx) ⟨e, he, hlo, hhi⟩
  have below : ∀ e ∈ left, e.m_addr + e.m_size ≤ addr := by
    intro e he
    by_contra h
    exact outside e (by simp [he]) addr (before e he) (by omega) (by omega)
  have above : ∀ e ∈ right, addr + size ≤ e.m_addr := by
    intro e he
    by_contra h
    have hp := positive e (by simp [he])
    have := after e he
    exact outside e (by simp [he]) e.m_addr (le_rfl) (by omega) (by omega)
  have positiveL : ∀ e ∈ left, 0 < e.m_size := fun e he => positive e (by simp [he])
  have positiveR : ∀ e ∈ right, 0 < e.m_size := fun e he => positive e (by simp [he])
  obtain ⟨sortedL, sortedR, _⟩ := pairwise_append.mp sorted
  rw [append_assoc] at slots
  have place : passed addr mp.m_map = left.length := by
    rw [slots]
    exact passed_eq before after positiveL
  have dropped : mp.m_map.drop left.length = right ++ terminator :: unused := by
    rw [slots, drop_left]
  have onLeft := abutsLeft_iff slots place below
  have onRight := abutsRight_iff slots place positiveR above
  have unfolded := mfree.eq_def mp size addr
  rw [if_neg (by omega), if_neg nonzero] at unfolded
  simp only [place, dropped] at unfolded
  by_cases hl : abutsLeft mp addr = true
  · obtain ⟨left', ep, rfl, low⟩ := onLeft.mp hl
    rw [if_pos hl, slot_last slots] at unfolded
    by_cases hr : abutsRight mp size addr = true
    · obtain ⟨bp, right', rfl, high⟩ := onRight.mp hr
      refine ⟨_, _, _, terminator :: unused, rfl, .both left' right' ep bp low high, ?_, by
        simp only [length_append, length_cons]; omega⟩
      rw [if_pos hr, slot_append _ _ slots, cons_append, shiftDown_segments bp right' unused
        (fun e he => positiveR e (mem_cons_of_mem bp he))] at unfolded
      rw [unfolded, slots]
      simp
    · have high := gap_above above sortedR (fun h => hr (onRight.mpr h))
      refine ⟨_, _, _, unused, rfl, .below left' right ep low high, ?_, by
        simp only [length_append, length_cons, length_nil]; omega⟩
      rw [if_neg hr] at unfolded
      rw [unfolded, slots]
      simp
  · have low := gap_below below before sortedL (fun h => hl (onLeft.mpr h))
    rw [if_neg hl] at unfolded
    by_cases hr : abutsRight mp size addr = true
    · obtain ⟨bp, right', rfl, high⟩ := onRight.mp hr
      refine ⟨_, _, _, unused, rfl, .above left right' bp low high, ?_, by
        simp only [length_append, length_cons]; omega⟩
      rw [if_pos hr, slot_append _ _ slots] at unfolded
      rw [unfolded, slots]
      simp
    · have high := gap_above above sortedR (fun h => hr (onRight.mpr h))
      refine ⟨_, _, _, unused.tail, rfl, .new left right low high, ?_, fun _ =>
        ⟨Bool.not_eq_true _ ▸ hl, Bool.not_eq_true _ ▸ hr⟩⟩
      have fits : ¬ newEnd mp addr > mp.m_limit := by simpa [overflows, hl, hr] using room
      rw [if_neg hr, if_neg fits, shiftUp_segments positiveR] at unfolded
      rw [unfolded, slots]
      simp

lemma mfree_spec (wf : WellFormed mp) (asked : 0 < size)
    (nonzero : addr ≠ 0) (apart : Disjoint (Set.Ico addr (addr + size)) (free mp))
    (room : overflows mp size addr = false) :
    ∃ mp', mfree mp size addr = some mp' ∧ WellFormed mp' ∧ mp'.m_limit = mp.m_limit ∧
      free mp' = free mp ∪ Set.Ico addr (addr + size) := by
  obtain ⟨left, right, segs, unused, split, joined, result, -⟩ :=
    mfree_joined wf asked nonzero apart room
  have positive := wf.positive
  have sorted := wf.apart
  rw [split] at positive sorted
  have holds : Holds (segs ++ terminator :: unused) segs :=
    ⟨⟨unused, rfl⟩, joined_positive joined sorted asked positive, joined_apart joined sorted⟩
  refine ⟨_, result, wellFormed_of_holds holds, rfl, ?_⟩
  rw [free_of_holds holds, joined_covered joined sorted, ← split, free]

end ResourceMap
