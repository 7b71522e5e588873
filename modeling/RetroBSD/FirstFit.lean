import Mathlib.Tactic

/-!
# Requests that go to the first slot with room

Requests are served by a row of slots, each request by the first slot that has room for it. It
does not matter whether the slots are swept once and each is offered to all requests in turn,
or whether the requests sweep the slots one after the other.
-/

namespace FirstFit

open Function (update update_of_ne update_self update_eq_self update_comm update_eq_self_iff)
open List

variable {κ σ : Type} (fits : κ → σ → Bool) (cut : κ → σ → σ)

/-! ### One request -/

/-- One request and the slots from position `bp` on; `p` is the position that it has already. -/
def place (n : κ) : ℕ → Option ℕ → List σ → List σ × Option ℕ
  | _, p, [] => ([], p)
  | bp, p, e :: rest =>
    if p = none ∧ fits n e = true then (cut n e :: rest, some bp)
    else (e :: (place n (bp + 1) p rest).1, (place n (bp + 1) p rest).2)

lemma place_served (n : κ) (bp i : ℕ) (slots : List σ) :
    place fits cut n bp (some i) slots = (slots, some i) := by
  induction slots generalizing bp with
  | nil => rfl
  | cons e rest ih => simp [place, ih]

/-- The first slot with room is cut, or there is none. -/
lemma place_cases (n : κ) (bp : ℕ) (slots : List σ) :
    (place fits cut n bp none slots = (slots, none) ∧ ∀ e ∈ slots, fits n e = false) ∨
      ∃ pre e post, slots = pre ++ e :: post ∧ (∀ f ∈ pre, fits n f = false) ∧ fits n e = true ∧
        place fits cut n bp none slots = (pre ++ cut n e :: post, some (bp + pre.length)) := by
  induction slots generalizing bp with
  | nil => exact .inl ⟨rfl, fun e inside => absurd inside not_mem_nil⟩
  | cons e rest ih =>
    cases room : fits n e with
    | true =>
      refine .inr ⟨[], e, rest, rfl, fun f inside => absurd inside not_mem_nil, room, ?_⟩
      rw [place, if_pos ⟨rfl, room⟩]
      rfl
    | false =>
      have step : place fits cut n bp none (e :: rest) =
          (e :: (place fits cut n (bp + 1) none rest).1, (place fits cut n (bp + 1) none rest).2) := by
        rw [place, if_neg fun open_ => Bool.false_ne_true (room.symm.trans open_.2)]
      rw [step]
      rcases ih (bp + 1) with ⟨stay, none_⟩ | ⟨pre, f, post, rfl, before, here, cuts⟩
      · left
        rw [stay]
        exact ⟨rfl, forall_mem_cons.mpr ⟨room, none_⟩⟩
      · right
        refine ⟨e :: pre, f, post, rfl, forall_mem_cons.mpr ⟨room, before⟩, here, ?_⟩
        rw [cuts, Nat.add_assoc, Nat.add_comm 1]
        rfl

/-! ### All requests -/

variable [DecidableEq κ]

/-- The slot at position `bp` is offered to one request. -/
def offer (bp : ℕ) (st : σ × (κ → Option ℕ)) (n : κ) : σ × (κ → Option ℕ) :=
  if st.2 n = none ∧ fits n st.1 = true then (cut n st.1, update st.2 n (some bp)) else st

/-- The slots from position `bp` on, each offered to all requests. -/
def sweep (ns : List κ) : ℕ → (κ → Option ℕ) → List σ → List σ × (κ → Option ℕ)
  | _, pos, [] => ([], pos)
  | bp, pos, e :: rest =>
    let st := ns.foldl (offer fits cut bp) (e, pos)
    let r := sweep ns (bp + 1) st.2 rest
    (st.1 :: r.1, r.2)

variable {ns : List κ} {n : κ}

/-- A request that is not among those that are offered a slot changes nothing for them. -/
lemma offers_update (other : n ∉ ns) (bp : ℕ) (v : Option ℕ) (e : σ) (pos : κ → Option ℕ) :
    ns.foldl (offer fits cut bp) (e, update pos n v) = ((ns.foldl (offer fits cut bp) (e, pos)).1,
        update (ns.foldl (offer fits cut bp) (e, pos)).2 n v) := by
  induction ns generalizing e pos with
  | nil => rfl
  | cons m ns ih =>
    have different : m ≠ n := fun same => other (same ▸ mem_cons_self)
    have rest : n ∉ ns := fun inside => other (mem_cons_of_mem m inside)
    have free : update pos n v m = pos m := update_of_ne different v pos
    rw [foldl_cons, foldl_cons]
    by_cases taken : pos m = none ∧ fits m e = true
    · have here : offer fits cut bp (e, update pos n v) m =
          (cut m e, update (update pos m (some bp)) n v) := by
        simp [offer, free, if_pos taken, update_comm different]
      rw [here, ih rest, offer, if_pos taken]
    · have here : offer fits cut bp (e, update pos n v) m = (e, update pos n v) := by
        simp [offer, free, if_neg taken]
      rw [here, ih rest, offer, if_neg taken]

lemma offers_other (other : n ∉ ns) (bp : ℕ) (e : σ) (pos : κ → Option ℕ) :
    (ns.foldl (offer fits cut bp) (e, pos)).2 n = pos n := by
  have same := congrArg (fun st : σ × (κ → Option ℕ) => st.2 n)
    (offers_update fits cut other bp (pos n) e pos)
  simpa only [update_eq_self, update_self] using same

/-- **The loops commute.** The first request may go through all slots before the others. -/
lemma sweep_cons (other : n ∉ ns) (bp : ℕ) (pos : κ → Option ℕ) (slots : List σ) :
    sweep fits cut (n :: ns) bp pos slots =
      sweep fits cut ns bp (update pos n (place fits cut n bp (pos n) slots).2)
        (place fits cut n bp (pos n) slots).1 := by
  induction slots generalizing bp pos with
  | nil => simp [sweep, place]
  | cons e rest ih =>
    by_cases taken : pos n = none ∧ fits n e = true
    · have here : offer fits cut bp (e, pos) n = (cut n e, update pos n (some bp)) := if_pos taken
      have served := offers_other fits cut other bp (cut n e) (update pos n (some bp))
      rw [update_self] at served
      rw [place, if_pos taken, sweep, foldl_cons, here, sweep]
      rw [ih, served, place_served]
      have kept : update (ns.foldl (offer fits cut bp) (cut n e,
          update pos n (some bp))).2 n (some bp) =
            (ns.foldl (offer fits cut bp) (cut n e, update pos n (some bp))).2 :=
        update_eq_self_iff.mpr served.symm
      dsimp only
      rw [kept]
    · have here : offer fits cut bp (e, pos) n = (e, pos) := if_neg taken
      rw [place, if_neg taken, sweep, foldl_cons, here, sweep]
      dsimp only
      rw [ih, offers_other fits cut other, offers_update fits cut other]

lemma offers_served {pos : κ → Option ℕ} (served : ∀ n ∈ ns, pos n ≠ none) (bp : ℕ)
    (e : σ) : ns.foldl (offer fits cut bp) (e, pos) = (e, pos) := by
  induction ns with
  | nil => rfl
  | cons n ns ih =>
    rw [foldl_cons, offer, if_neg fun open_ => served n mem_cons_self open_.1]
    exact ih fun m inside => served m (mem_cons_of_mem n inside)

/-- Where all requests have been served nothing more happens. -/
lemma sweep_served {pos : κ → Option ℕ} (served : ∀ n ∈ ns, pos n ≠ none) (bp : ℕ)
    (slots : List σ) : sweep fits cut ns bp pos slots = (slots, pos) := by
  induction slots generalizing bp with
  | nil => rfl
  | cons e rest ih => simp [sweep, offers_served fits cut served, ih]

end FirstFit
