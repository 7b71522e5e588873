import RetroBSD.FirstFit
import RetroBSD.ResourceMapHistory

/-!
# `malloc3` and three calls of `malloc`

`malloc3` offers every slot to the three segments in turn, while three calls of `malloc` search
the map from its start each time and close the gaps in between. The slots that have been used up
stay in the map of `malloc3` until its end; they are too small for any request.
-/

namespace ResourceMap

open FirstFit List Option
open Function (update update_of_ne update_self)

def room (sizes : Fin 3 → Nat) (n : Fin 3) (e : MapEnt) : Bool := sizes n ≤ e.m_size

/-- What is left of a slot, also when that is nothing. -/
def cutOff (sizes : Fin 3 → Nat) (n : Fin 3) (e : MapEnt) : MapEnt :=
  ⟨e.m_size - sizes n, e.m_addr + sizes n⟩

/-! ### The search of `malloc3` -/

lemma tryNext_offer (sizes : Fin 3 → Nat) (bp : Nat) (st : MapEnt × Madd) (n : Fin 3) :
    tryNext sizes bp (st.1.m_size, st.2) n = ((offer (room sizes) (cutOff sizes) bp st n).1.m_size,
        (offer (room sizes) (cutOff sizes) bp st n).2) := by
  simp only [tryNext, offer, room, decide_eq_true_eq]
  split_ifs
  · rfl
  · rfl

lemma trySlot_offers (sizes : Fin 3 → Nat) (bp : Nat) (e : MapEnt) (madd : Madd) :
    trySlot sizes bp (e.m_size, madd) =
      (([0, 1, 2].foldl (offer (room sizes) (cutOff sizes) bp) (e, madd)).1.m_size,
        ([0, 1, 2].foldl (offer (room sizes) (cutOff sizes) bp) (e, madd)).2) := by
  rw [trySlot, tryNext_offer sizes bp (e, madd), tryNext_offer, tryNext_offer]
  rfl

variable {n : Fin 3} {sizes : Fin 3 → Nat} {segs slots : List MapEnt} {madd : Madd} {mp : Map}
  {e : MapEnt}

/-- The search stops early, but by then all segments have their slots. -/
lemma search_sweep (sizes : Fin 3 → Nat) (bp : Nat) (madd : Madd)
    (positive : ∀ e ∈ segs, 0 < e.m_size) (unused : List MapEnt) :
    (search sizes bp madd (segs ++ terminator :: unused)).madd =
      (sweep (room sizes) (cutOff sizes) [0, 1, 2] bp madd segs).2 := by
  induction segs generalizing bp madd with
  | nil => rfl
  | cons e segs ih =>
    have used : e.m_size ≠ 0 := ne_of_gt (positive e mem_cons_self)
    rw [cons_append, search, if_neg used, trySlot_offers, sweep]
    by_cases done : complete ([0, 1, 2].foldl (offer (room sizes) (cutOff sizes) bp) (e, madd)).2 = true
    · have served := (complete_iff _).mp done
      rw [if_pos done, sweep_served]
      intro n _ open_
      obtain ⟨i, found⟩ := served n
      cases open_.symm.trans found
    · rw [if_neg done]
      exact ih _ _ fun f inside => positive f (mem_cons_of_mem e inside)

/-! ### One segment after the other -/

lemma taken_update (open_ : madd n = none) (i k : Nat) : taken sizes (update madd n (some i)) k =
      taken sizes madd k + if k = i then sizes n else 0 := by
  have served m : (if update madd n (some i) m = some k then sizes m else 0) =
      (if madd m = some k then sizes m else 0) +
        if m = n then (if k = i then sizes n else 0) else 0 := by
    by_cases same : m = n
    · subst m
      simp [open_, eq_comm]
    · rw [update_of_ne same, if_neg same, add_zero]
  simp [taken, served, Finset.sum_add_distrib]

lemma getD_middle (pre post : List MapEnt) (e : MapEnt) (k : Nat) :
    (pre ++ e :: post).getD k terminator =
      if k = pre.length then e else (pre ++ terminator :: post).getD k terminator := by
  split_ifs with here
  · rw [here, getD_eq_getElem?_getD, getElem?_append_right (le_rfl), Nat.sub_self]
    rfl
  · rcases Nat.lt_or_ge k pre.length with before | behind
    · rw [getD_eq_getElem?_getD, getD_eq_getElem?_getD, getElem?_append_left before,
        getElem?_append_left before]
    · obtain ⟨j, rfl⟩ := Nat.exists_eq_add_of_lt (Nat.lt_of_le_of_ne behind (Ne.symm here))
      rw [getD_eq_getElem?_getD, getD_eq_getElem?_getD,
        getElem?_append_right (by omega), getElem?_append_right (by omega),
        show pre.length + j + 1 - pre.length = j + 1 by omega]
      rfl

/-- A slot is cut for one more segment. -/
lemma trimmed_place {pre post : List MapEnt}
    (trimmed : Trimmed sizes madd segs (pre ++ e :: post)) (open_ : madd n = none)
    (fits : room sizes n e = true) : Trimmed sizes (update madd n (some pre.length)) segs
      (pre ++ cutOff sizes n e :: post) := by
  have small : sizes n ≤ e.m_size := of_decide_eq_true fits
  have length := trimmed.length
  simp only [length_append] at length
  refine ⟨?_, fun k inside => ?_, fun k inside => ?_⟩
  · simp only [length_append]
    exact length
  · have before := trimmed.addr k inside
    rw [getD_middle] at before ⊢
    rw [taken_update open_]
    split_ifs at before ⊢
    · rw [cutOff, before, add_assoc]
    · rw [before, add_zero]
  · have before := trimmed.size k inside
    rw [getD_middle] at before ⊢
    rw [taken_update open_]
    split_ifs at before ⊢
    · simp only [cutOff]
      omega
    · rw [add_zero, before]

lemma trimmed_unique {x y : List MapEnt}
    (one : Trimmed sizes madd segs x) (two : Trimmed sizes madd segs y) : x = y := by
  refine ext_getD (one.length.trans two.length.symm) fun k inside => ?_
  rw [one.length] at inside
  have size : (x.getD k terminator).m_size = (y.getD k terminator).m_size := by
    have first := one.size k inside
    have second := two.size k inside
    omega
  have addr : (x.getD k terminator).m_addr = (y.getD k terminator).m_addr := by
    rw [one.addr k inside, two.addr k inside]
  rw [show x.getD k terminator = ⟨(x.getD k terminator).m_size, (x.getD k terminator).m_addr⟩ from rfl,
    size, addr]

/-- The three segments one after the other. -/
lemma sweep_three (sizes : Fin 3 → Nat) (segs : List MapEnt) {U₁ U₂ U₃ : List MapEnt}
    {i₀ i₁ i₂ : Option Nat} (first : place (room sizes) (cutOff sizes) 0 0 none segs = (U₁, i₀))
    (second : place (room sizes) (cutOff sizes) 1 0 none U₁ = (U₂, i₁))
    (third : place (room sizes) (cutOff sizes) 2 0 none U₂ = (U₃, i₂)) :
    (sweep (room sizes) (cutOff sizes) [0, 1, 2] 0 (fun _ => none) segs).2 =
      update (update (update (fun _ => none) 0 i₀) 1 i₁) 2 i₂ := by
  rw [sweep_cons _ _ (by decide), first]
  rw [sweep_cons _ _ (by decide), update_of_ne (by decide), second]
  rw [sweep_cons _ _ (by decide), update_of_ne (by decide),
    update_of_ne (by decide), third, sweep_served _ _ (by simp)]

/-! ### `malloc` among slots that have been used up -/

/-- The slots without those that have been used up. -/
def live (slots : List MapEnt) : List MapEnt := slots.filter fun e => e.m_size ≠ 0

lemma mem_live : e ∈ live slots ↔ e ∈ slots ∧ 0 < e.m_size := by
  rw [live, mem_filter, decide_eq_true_eq, Nat.pos_iff_ne_zero]

lemma segments_live (slots unused : List MapEnt) :
    segments (live slots ++ terminator :: unused) = live slots := by
  rw [segments, takeWhile_append_of_pos]
  · exact append_nil _
  · intro e inside
    rw [decide_eq_true_eq]
    exact ne_of_gt (mem_live.mp inside).2

lemma live_middle (pre post : List MapEnt) (e : MapEnt) :
    live (pre ++ e :: post) = live pre ++ live [e] ++ live post := by
  rw [live, filter_append, ← singleton_append, filter_append, ← append_assoc]
  rfl

lemma live_one (used : 0 < e.m_size) : live [e] = [e] :=
  filter_cons_of_pos (decide_eq_true used.ne')

/-- The map holds what is live of the slots. -/
def Shows (mp : Map) (slots : List MapEnt) : Prop :=
  ∃ unused, mp.m_map = live slots ++ terminator :: unused

lemma malloc_none (shows : Shows mp slots) {size : Nat}
    (asked : 0 < size) (small : ∀ e ∈ slots, e.m_size < size) : malloc mp size = some (0, mp) := by
  obtain ⟨unused, shape⟩ := shows
  have used : ∀ e ∈ live slots, 0 < e.m_size := fun e inside => (mem_live.mp inside).2
  have nothing := mallocFrom_none unused (fun e inside => small e (mem_live.mp inside).1) used
  rw [malloc, if_neg asked.ne', shape, nothing, ← shape]

lemma malloc_some {pre post : List MapEnt} {size : Nat}
    (shows : Shows mp (pre ++ e :: post)) (asked : 0 < size) (small : ∀ f ∈ pre, f.m_size < size)
    (fits : size ≤ e.m_size) :
    ∃ mp', malloc mp size = some (e.m_addr, mp') ∧ mp'.m_limit = mp.m_limit ∧
      Shows mp' (pre ++ ⟨e.m_size - size, e.m_addr + size⟩ :: post) := by
  obtain ⟨unused, shape⟩ := shows
  have used : live [e] = [e] := live_one (lt_of_lt_of_le asked fits)
  have left : live [⟨e.m_size - size, e.m_addr + size⟩] = remainder size e := by
    rw [remainder]
    by_cases whole : e.m_size = size
    · rw [if_pos whole, whole, Nat.sub_self]
      rfl
    · rw [if_neg whole]
      exact live_one (Nat.sub_pos_of_lt (Nat.lt_of_le_of_ne fits (Ne.symm whole)))
  rw [live_middle, used] at shape
  have positive : ∀ f ∈ live pre ++ e :: live post, 0 < f.m_size := by
    intro f inside
    rcases mem_append.mp inside with before | behind
    · exact (mem_live.mp before).2
    · rcases mem_cons.mp behind with rfl | behind
      · omega
      · exact (mem_live.mp behind).2
  obtain ⟨unused', found⟩ := mallocFrom_some unused
    (fun f inside => small f (mem_live.mp inside).1) fits asked positive
  rw [append_assoc (live pre), singleton_append] at shape
  refine ⟨⟨live pre ++ remainder size e ++ live post ++ terminator :: unused', mp.m_limit⟩, ?_, rfl,
    unused', ?_⟩
  · rw [malloc, if_neg asked.ne', shape, found]
  · rw [live_middle, left]

def got (mp : Map) (size : Nat) : Option (Nat × Map) := (malloc mp size).filter (·.1 ≠ 0)

/-- Three calls of `malloc` that all succeed. -/
def mallocs (mp : Map) (d_size s_size u_size : Nat) : Option ((Fin 3 → Nat) × Map) :=
  (got mp d_size).bind fun x => (got x.2 s_size).bind fun y =>
    (got y.2 u_size).map fun z => (![x.1, y.1, z.1], z.2)

/-- What is free after a call, with some segments taken already. -/
structure Along (sizes : Fin 3 → Nat) (segs : List MapEnt) (limit : Nat) (madd : Madd)
    (slots : List MapEnt) (mp : Map) : Prop where
  trimmed : Trimmed sizes madd segs slots
  shows : Shows mp slots
  limit : mp.m_limit = limit

/-- The next segment comes from the slot that `malloc` takes it from. -/
lemma Along.got {limit : Nat} (along : Along sizes segs limit madd slots mp)
    (nonzero : ∀ e ∈ segs, e.m_addr ≠ 0) (open_ : madd n = none) (asked : 0 < sizes n) :
    (place (room sizes) (cutOff sizes) n 0 none slots = (slots, none) ∧ got mp (sizes n) = none) ∨
      ∃ i slots' mp', place (room sizes) (cutOff sizes) n 0 none slots = (slots', some i) ∧
        ResourceMap.got mp (sizes n) =
          some ((segs.getD i terminator).m_addr + taken sizes madd i, mp') ∧
        Along sizes segs limit (update madd n (some i)) slots' mp' := by
  rcases place_cases (room sizes) (cutOff sizes) n 0 slots with
    ⟨stay, small⟩ | ⟨pre, e, post, rfl, before, fits, cuts⟩
  · left
    refine ⟨stay, ?_⟩
    rw [ResourceMap.got, malloc_none along.shows asked fun e inside => by
      have room_e := of_decide_eq_false (small e inside)
      omega]
    rfl
  · right
    obtain ⟨mp', found, limit', shows'⟩ := malloc_some along.shows asked (fun f inside => by
        have room_f := of_decide_eq_false (before f inside)
        omega) (of_decide_eq_true fits)
    have inside : pre.length < segs.length := by
      have length := along.trimmed.length
      simp only [length_append, length_cons] at length
      omega
    have addr := along.trimmed.addr pre.length inside
    rw [getD_middle, if_pos rfl] at addr
    have start : e.m_addr ≠ 0 := by
      have free := nonzero _ (getElem_mem inside)
      rw [addr, getD_eq_getElem?_getD, getElem?_eq_getElem inside, getD_some]
      omega
    refine ⟨pre.length, _, mp', by rw [cuts, Nat.zero_add], ?_,
      trimmed_place along.trimmed open_ fits, shows', limit'.trans along.limit⟩
    rw [ResourceMap.got, found, ← addr]
    exact if_pos (decide_eq_true start)

/-! ### Both allocations -/

lemma sizes_pos {d_size s_size u_size : Nat} (d : 0 < d_size) (s : 0 < s_size) (u : 0 < u_size)
    (n : Fin 3) : 0 < ![d_size, s_size, u_size] n := by
  fin_cases n
  · exact d
  · exact s
  · exact u

/-- The map before the first call. -/
lemma along_start (wf : WellFormed mp) (sizes : Fin 3 → Nat) :
    Along sizes (segments mp.m_map) mp.m_limit (fun _ => none) (segments mp.m_map) mp := by
  refine ⟨⟨rfl, fun k _ => ?_, fun k _ => ?_⟩, ?_, rfl⟩
  · rw [taken_eq_zero fun n => by nofun, add_zero]
  · rw [taken_eq_zero fun n => by nofun, add_zero]
  · obtain ⟨unused, shape⟩ := wf.ended
    have all : live (segments mp.m_map) = segments mp.m_map :=
      filter_eq_self.mpr fun e inside => decide_eq_true (ne_of_gt (wf.positive e inside))
    exact ⟨unused, by rw [all, ← shape]⟩

/-- Three calls of `malloc`, and the slots that the search of `malloc3` finds. -/
lemma mallocs_cases (wf : WellFormed mp) (nonzero : ∀ e ∈ segments mp.m_map, e.m_addr ≠ 0)
    (asked : ∀ n, 0 < sizes n) : (mallocs mp (sizes 0) (sizes 1) (sizes 2) = none ∧
        ∃ n, (search sizes 0 (fun _ => none) mp.m_map).madd n = none) ∨
      ∃ i₀ i₁ i₂ slots mp', (search sizes 0 (fun _ => none) mp.m_map).madd =
          update (update (update (fun _ => none) 0 (some i₀)) 1 (some i₁)) 2 (some i₂) ∧
        Along sizes (segments mp.m_map) mp.m_limit (search sizes 0 (fun _ => none) mp.m_map).madd
          slots mp' ∧
        mallocs mp (sizes 0) (sizes 1) (sizes 2) =
          some (![((segments mp.m_map).getD i₀ terminator).m_addr,
            ((segments mp.m_map).getD i₁ terminator).m_addr + (if i₁ = i₀ then sizes 0 else 0),
            ((segments mp.m_map).getD i₂ terminator).m_addr + (if i₂ = i₀ then sizes 0 else 0) +
              (if i₂ = i₁ then sizes 1 else 0)], mp') := by
  obtain ⟨unused, shape⟩ := id wf.ended
  have found : (search sizes 0 (fun _ => none) mp.m_map).madd =
      (sweep (room sizes) (cutOff sizes) [0, 1, 2] 0 (fun _ => none) (segments mp.m_map)).2 := by
    conv_lhs => rw [shape]
    exact search_sweep sizes 0 _ wf.positive unused
  rw [found]
  have idle k : taken sizes (fun _ => none) k = 0 := taken_eq_zero fun n => by nofun
  rcases (along_start wf sizes).got nonzero rfl (asked 0) with
    ⟨first, fails⟩ | ⟨i₀, U₁, mp₁, first, got₀, along⟩
  · left
    refine ⟨by rw [mallocs, fails, bind_none], 0, ?_⟩
    rw [sweep_three sizes _ first rfl rfl]
    rfl
  rw [idle, add_zero] at got₀
  rcases along.got nonzero (update_of_ne (by decide) _ _) (asked 1) with
    ⟨second, fails⟩ | ⟨i₁, U₂, mp₂, second, got₁, along⟩
  · left
    refine ⟨by rw [mallocs, got₀, bind_some, fails, bind_none], 1, ?_⟩
    rw [sweep_three sizes _ first second rfl]
    rfl
  rw [taken_update rfl, idle, zero_add] at got₁
  rcases along.got nonzero (by
      rw [update_of_ne (by decide), update_of_ne (by decide)]) (asked 2) with
    ⟨third, fails⟩ | ⟨i₂, U₃, mp₃, third, got₂, along⟩
  · left
    refine ⟨by rw [mallocs, got₀, bind_some, got₁, bind_some, fails, map_none], 2, ?_⟩
    rw [sweep_three sizes _ first second third]
    rfl
  rw [taken_update (update_of_ne (by decide) _ _), taken_update rfl, idle, zero_add,
    ← add_assoc] at got₂
  right
  have places := sweep_three sizes _ first second third
  refine ⟨i₀, i₁, i₂, U₃, mp₃, places, ?_, ?_⟩
  · rw [places]
    exact along
  · rw [mallocs, got₀, bind_some, got₁, bind_some, got₂, map_some]

/-- Two maps hold the same segments. What lies behind the end of a map is not part of it. -/
def SameMap (x y : Map) : Prop := segments x.m_map = segments y.m_map ∧ x.m_limit = y.m_limit

/-- **`malloc3`.** It returns what three calls of `malloc` return and leaves the map that they leave,
if all three succeed; otherwise it returns 0, and nothing has changed. -/
theorem malloc3_as_mallocs {mp : Map} (wf : WellFormed mp)
    (nonzero : ∀ e ∈ segments mp.m_map, e.m_addr ≠ 0) {d_size s_size u_size : Nat}
    (d : 0 < d_size) (s : 0 < s_size) (u : 0 < u_size) (a : Fin 3 → Nat) :
    (∀ a' mp', mallocs mp d_size s_size u_size = some (a', mp') →
      ∃ mp'', malloc3 mp d_size s_size u_size a = (a' 2, a', mp'') ∧ SameMap mp'' mp') ∧
    (mallocs mp d_size s_size u_size = none → malloc3 mp d_size s_size u_size a = (0, a, mp)) := by
  rcases mallocs_cases wf nonzero (sizes_pos d s u) with
    ⟨fails, n, open_⟩ | ⟨i₀, i₁, i₂, slots, mp', places, along, gets⟩
  · refine ⟨fun a' mp' gets => absurd (fails.symm.trans gets) (by nofun), fun _ => ?_⟩
    apply malloc3_undone
    intro done
    obtain ⟨i, served⟩ := (complete_iff _).mp done n
    exact nomatch open_.symm.trans served
  · refine ⟨fun a' mp'' gets' => ?_, fun fails => absurd (fails.symm.trans gets) (by nofun)⟩
    cases some.inj (gets.symm.trans gets')
    have done : complete (search ![d_size, s_size, u_size] 0 (fun _ => none) mp.m_map).madd = true := by
      rw [places]
      rfl
    obtain ⟨a', segs', unused', result, trimmed, placed⟩ :=
      malloc3_done wf d_size s_size u_size a rfl done
    cases trimmed_unique trimmed along.trimmed
    have addresses : a' = ![((segments mp.m_map).getD i₀ terminator).m_addr,
        ((segments mp.m_map).getD i₁ terminator).m_addr + (if i₁ = i₀ then d_size else 0),
        ((segments mp.m_map).getD i₂ terminator).m_addr + (if i₂ = i₀ then d_size else 0) +
          (if i₂ = i₁ then s_size else 0)] := by
      rw [places] at placed
      have turned (x y : Nat) : (some x = some y) = (y = x) :=
        propext ⟨fun same => (some.inj same).symm, fun same => congrArg some same.symm⟩
      have first := placed.first i₀ rfl
      have second := placed.second i₁ rfl
      have third := placed.third i₂ rfl
      simp only [update_self, ne_eq, Fin.reduceEq, not_false_eq_true,
        update_of_ne, turned] at second third
      funext n
      fin_cases n
      · exact first
      · exact second
      · exact third
    rw [addresses] at result
    refine ⟨_, result, ?_, along.limit.symm⟩
    obtain ⟨unused, shape⟩ := along.shows
    rw [shape, segments_live]
    exact segments_live slots unused'

theorem two_segments_in_one_pass :
    mallocs twoSegments 3 4 1 = some (![10, 20, 13], ⟨[⟨6, 24⟩, ⟨0, 0⟩, ⟨0, 0⟩, ⟨0, 0⟩, ⟨0, 0⟩], 4⟩) ∧
      ∃ mp, malloc3 twoSegments 3 4 1 (fun _ => 0) = (13, ![10, 20, 13], mp) ∧
        SameMap mp ⟨[⟨6, 24⟩, ⟨0, 0⟩, ⟨0, 0⟩, ⟨0, 0⟩, ⟨0, 0⟩], 4⟩ := by
  have gets : mallocs twoSegments 3 4 1 =
      some (![10, 20, 13], ⟨[⟨6, 24⟩, ⟨0, 0⟩, ⟨0, 0⟩, ⟨0, 0⟩, ⟨0, 0⟩], 4⟩) := by decide
  exact ⟨gets, (malloc3_as_mallocs twoSegments_wellFormed (by decide) (by decide) (by decide)
    (by decide) fun _ => 0).1 _ _ gets⟩

end ResourceMap
