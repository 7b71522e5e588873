import Mathlib.Tactic
import Mathlib.Order.CompletePartialOrder

/-!
# Tilings of a set by named regions

A family of regions tiles an area when the regions are pairwise disjoint and
together are the whole area. The changes considered hand points over between a
pool and the other regions.
-/

namespace Tilings

universe u v

variable {Point : Type u} {Name : Type v}

structure Tiles (area : Set Point) (region : Name → Set Point) : Prop where
  disjoint : ∀ i j, i ≠ j → Disjoint (region i) (region j)
  union : ⋃ i, region i = area

/-- In terms of points: nothing outside the area, and one region for each point in it. -/
lemma tiles_iff {area : Set Point} {region : Name → Set Point} : Tiles area region ↔
      (∀ i x, x ∈ region i → x ∈ area) ∧ (∀ x ∈ area, ∃ i, x ∈ region i) ∧
      ∀ i j x, x ∈ region i → x ∈ region j → i = j := by
  constructor
  · intro tiles
    refine ⟨fun i x hx => ?_, fun x hx => ?_, fun i j x hi hj => ?_⟩
    · exact tiles.union ▸ Set.mem_iUnion.mpr ⟨i, hx⟩
    · exact Set.mem_iUnion.mp (tiles.union ▸ hx)
    · by_contra different
      exact Set.disjoint_left.mp (tiles.disjoint i j different) hi hj
  · rintro ⟨inside, onto, unique⟩
    refine ⟨fun i j different => ?_, ?_⟩
    · exact Set.disjoint_left.mpr (fun x hi hj => different (unique i j x hi hj))
    · ext x
      exact ⟨fun h => (Set.mem_iUnion.mp h).elim (fun i hi => inside i x hi),
        fun h => Set.mem_iUnion.mpr (onto x h)⟩

/-! The name `none` stands for a pool. Some of the other regions, those in `changed`,
are made out of points of the pool or go back to it. -/

variable {area : Set Point} {region region' : Option Name → Set Point} (changed : Name → Prop)

lemma tiles_take (tiles : Tiles area region) (before : ∀ c, changed c → region (some c) = ∅)
    (owned : ∀ c, changed c → region' (some c) ⊆ region none)
    (apart : ∀ c d, changed c → changed d → c ≠ d → Disjoint (region' (some c)) (region' (some d)))
    (others : ∀ c, ¬ changed c → region' (some c) = region (some c))
    (left : region' none = region none \ ⋃ c, ⋃ _ : changed c, region' (some c)) :
    Tiles area region' := by
  obtain ⟨inside, onto, unique⟩ := tiles_iff.mp tiles
  have pool : ∀ {x}, x ∈ region' none ↔
      x ∈ region none ∧ ∀ c, changed c → x ∉ region' (some c) := by
    intro x
    simp [left]
  have notInPool : ∀ {c x}, x ∈ region' (some c) → x ∉ region' none := by
    intro c x hc hp
    obtain ⟨old, out⟩ := pool.mp hp
    by_cases new : changed c
    · exact out c new hc
    · cases unique _ _ x old (others c new ▸ hc)
  refine tiles_iff.mpr ⟨fun i x hx => ?_, fun x hx => ?_, fun i j x hi hj => ?_⟩
  · cases i with
    | none => exact inside none x (pool.mp hx).1
    | some c =>
      by_cases new : changed c
      · exact inside none x (owned c new hx)
      · exact inside _ x (others c new ▸ hx)
  · by_cases taken : ∃ c, changed c ∧ x ∈ region' (some c)
    · obtain ⟨c, _, hc⟩ := taken
      exact ⟨some c, hc⟩
    · obtain ⟨i, hi⟩ := onto x hx
      cases i with
      | none => exact ⟨none, pool.mpr ⟨hi, fun c new hc => taken ⟨c, new, hc⟩⟩⟩
      | some c =>
        by_cases new : changed c
        · exact absurd hi (by simp [before c new])
        · exact ⟨some c, others c new ▸ hi⟩
  · cases i with
    | none =>
      cases j with
      | none => rfl
      | some d => exact absurd hi (notInPool hj)
    | some c =>
      cases j with
      | none => exact absurd hj (notInPool hi)
      | some d =>
        by_cases hc : changed c <;> by_cases hd : changed d
        · by_contra different
          exact Set.disjoint_left.mp (apart c d hc hd (fun h => different (congrArg some h))) hi hj
        · cases unique _ _ x (owned c hc hi) (others d hd ▸ hj)
        · cases unique _ _ x (owned d hd hj) (others c hc ▸ hi)
        · exact unique _ _ x (others c hc ▸ hi) (others d hd ▸ hj)

lemma tiles_return (tiles : Tiles area region) (after : ∀ c, changed c → region' (some c) = ∅)
    (others : ∀ c, ¬ changed c → region' (some c) = region (some c))
    (back : region' none = region none ∪ ⋃ c, ⋃ _ : changed c, region (some c)) :
    Tiles area region' := by
  obtain ⟨inside, onto, unique⟩ := tiles_iff.mp tiles
  have pool : ∀ {x}, x ∈ region' none ↔ x ∈ region none ∨ ∃ c, changed c ∧ x ∈ region (some c) := by
    intro x
    simp [back]
  have kept : ∀ {c x}, x ∈ region' (some c) → ¬ changed c ∧ x ∈ region (some c) := by
    intro c x hx
    by_cases gone : changed c
    · simp only [after c gone, Set.mem_empty_iff_false] at hx
    · exact ⟨gone, others c gone ▸ hx⟩
  have notInPool : ∀ {c x}, x ∈ region' (some c) → x ∉ region' none := by
    intro c x hx hp
    obtain ⟨stays, hc⟩ := kept hx
    rcases pool.mp hp with h | ⟨d, gone, hd⟩
    · cases unique _ _ x hc h
    · cases unique _ _ x hc hd
      exact stays gone
  refine tiles_iff.mpr ⟨fun i x hx => ?_, fun x hx => ?_, fun i j x hi hj => ?_⟩
  · cases i with
    | none => exact (pool.mp hx).elim (inside none x) (fun ⟨c, _, hc⟩ => inside _ x hc)
    | some c => exact inside _ x (kept hx).2
  · obtain ⟨i, hi⟩ := onto x hx
    cases i with
    | none => exact ⟨none, pool.mpr (.inl hi)⟩
    | some c =>
      by_cases gone : changed c
      · exact ⟨none, pool.mpr (.inr ⟨c, gone, hi⟩)⟩
      · exact ⟨some c, others c gone ▸ hi⟩
  · cases i with
    | none =>
      cases j with
      | none => rfl
      | some d => exact absurd hi (notInPool hj)
    | some c =>
      cases j with
      | none => exact absurd hj (notInPool hi)
      | some d => exact unique _ _ x (kept hi).2 (kept hj).2

/-- The pool may in turn be tiled by pieces. -/
lemma tiles_refine {Piece : Type*} {piece : Piece → Set Point} (tiles : Tiles area region)
    (pieces : Tiles (region none) piece) :
    Tiles area (Sum.elim piece (fun c => region (some c))) := by
  obtain ⟨inside, onto, unique⟩ := tiles_iff.mp tiles
  obtain ⟨inside', onto', unique'⟩ := tiles_iff.mp pieces
  refine tiles_iff.mpr ⟨fun i x hx => ?_, fun x hx => ?_, fun i j x hi hj => ?_⟩
  · cases i with
    | inl k => exact inside none x (inside' k x hx)
    | inr c => exact inside _ x hx
  · obtain ⟨i, hi⟩ := onto x hx
    cases i with
    | none => exact (onto' x hi).elim (fun k hk => ⟨.inl k, hk⟩)
    | some c => exact ⟨.inr c, hi⟩
  · cases i with
    | inl k =>
      cases j with
      | inl l => exact congrArg Sum.inl (unique' k l x hi hj)
      | inr d => cases unique _ _ x (inside' k x hi) hj
    | inr c =>
      cases j with
      | inl l => cases unique _ _ x hi (inside' l x hj)
      | inr d => exact congrArg Sum.inr (Option.some.inj (unique _ _ x hi hj))

end Tilings
