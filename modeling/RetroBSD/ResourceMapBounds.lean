import RetroBSD.ResourceMapHistory

/-!
# The slots of `swapmap` that are touched

`swapmap` is declared with `m_limit` one past its last slot, while `mfree` takes it for the last
one. The slots that a call reads or writes are those from the first one up to its reach.
-/

namespace ResourceMap

open Runs List

/-- `NPROC`. -/
abbrev SMAPSIZ : Nat := 10

/-- `swapmap` as it is declared. -/
def swapmap : Map := ⟨List.replicate SMAPSIZ terminator, SMAPSIZ⟩

/-! ### How far a call goes -/

/-- `shiftDown`: the slots from the first one on that are read or written. -/
def shiftDownReach : List MapEnt → Nat
  | _ :: next :: rest => if next.m_size = 0 then 2 else shiftDownReach (next :: rest) + 1
  | _ => 2

def mallocReach (size : Nat) : List MapEnt → Nat
  | [] => 1
  | bp :: rest =>
    if bp.m_size = 0 then 1
    else if size ≤ bp.m_size then
      if bp.m_size - size ≠ 0 then 1 else shiftDownReach (bp :: rest)
    else mallocReach size rest + 1

/-- `mfree`: the slots up to `bp`; those that are moved down, up to the end of the map; or those
that are moved up, the end of the map included, unless the map overflows. -/
def mfreeReach (mp : Map) (size addr : Nat) : Nat :=
  if size = 0 ∨ addr = 0 then 0
  else
    let i := passed addr mp.m_map
    if abutsLeft mp addr then
      if abutsRight mp size addr then i + shiftDownReach (mp.m_map.drop i) else i + 1
    else if abutsRight mp size addr then i + 1
    else if newEnd mp addr > mp.m_limit then newEnd mp addr
    else newEnd mp addr + 1

def searchReach (sizes : Fin 3 → Nat) (bp : Nat) (madd : Madd) : List MapEnt → Nat
  | [] => 1
  | e :: rest =>
    if e.m_size = 0 then 1
    else
      let st := trySlot sizes bp (e.m_size, madd)
      if complete st.2 then 1 else searchReach sizes (bp + 1) st.2 rest + 1

def keptReach : List MapEnt → Nat
  | [] => 1
  | bp :: rest => if bp.m_addr = 0 then 1 else keptReach rest + 1

def squeezeReach (slots : List MapEnt) : Option Nat → Nat
  | none => 0
  | some remap => remap + 1 + keptReach (slots.drop (remap + 1))

/-- `malloc3`; the slots in `madd` have been read by the search. -/
def malloc3Reach (mp : Map) (d_size s_size u_size : Nat) (a : Fin 3 → Nat) : Nat :=
  let sizes : Fin 3 → Nat := ![d_size, s_size, u_size]
  let r := search sizes 0 (fun _ => none) mp.m_map
  let searched := searchReach sizes 0 (fun _ => none) mp.m_map
  if complete r.madd then
    max searched (squeezeReach (resolveAll sizes r.madd (r.m_map, a)).1 r.remap)
  else searched

/-- The number of slots, from the first one on, that an operation reads or writes. -/
def reach (mp : Map) : Op → Nat
  | .malloc size => if size = 0 then 0 else mallocReach size mp.m_map
  | .malloc3 d_size s_size u_size a => malloc3Reach mp d_size s_size u_size a
  | .mfree size addr => mfreeReach mp size addr

/-! ### Maps with an end -/

section

variable {segs unused : List MapEnt}

lemma shiftDownReach_segments (e : MapEnt) (positive : ∀ f ∈ segs, 0 < f.m_size) :
    shiftDownReach (e :: (segs ++ terminator :: unused)) = segs.length + 2 := by
  induction segs generalizing e with
  | nil => rfl
  | cons f segs ih =>
    have used : f.m_size ≠ 0 := ne_of_gt (positive f mem_cons_self)
    rw [cons_append, shiftDownReach, if_neg used,
      ih f fun g inside => positive g (mem_cons_of_mem f inside), length_cons]

lemma mallocReach_le (unused : List MapEnt) (size : Nat) (positive : ∀ f ∈ segs, 0 < f.m_size) :
    mallocReach size (segs ++ terminator :: unused) ≤ segs.length + 1 := by
  induction segs with
  | nil => exact Nat.le_refl 1
  | cons f segs ih =>
    have rest := fun g inside => positive g (mem_cons_of_mem f inside)
    have used : f.m_size ≠ 0 := ne_of_gt (positive f mem_cons_self)
    rw [cons_append, mallocReach, if_neg used, length_cons]
    split_ifs
    · omega
    · rw [shiftDownReach_segments f rest]
    · have later := ih rest
      omega

lemma searchReach_le (unused : List MapEnt) (sizes : Fin 3 → Nat) (bp : Nat) (madd : Madd)
    (positive : ∀ f ∈ segs, 0 < f.m_size) :
    searchReach sizes bp madd (segs ++ terminator :: unused) ≤ segs.length + 1 := by
  induction segs generalizing bp madd with
  | nil => exact Nat.le_refl 1
  | cons f segs ih =>
    have used : f.m_size ≠ 0 := ne_of_gt (positive f mem_cons_self)
    have later := ih (bp + 1) (trySlot sizes bp (f.m_size, madd)).2
      fun g inside => positive g (mem_cons_of_mem f inside)
    rw [cons_append, searchReach, if_neg used, length_cons]
    dsimp only
    split_ifs
    · omega
    · omega

lemma keptReach_segments (placed : ∀ e ∈ segs, e.m_addr ≠ 0) :
    keptReach (segs ++ terminator :: unused) = segs.length + 1 := by
  induction segs with
  | nil => rfl
  | cons f segs ih =>
    rw [cons_append, keptReach, if_neg (placed f mem_cons_self),
      ih fun g inside => placed g (mem_cons_of_mem f inside), length_cons]

/-- The end of the map is where it is, wherever the count begins. -/
lemma passed_inUse (addr : Nat) (slots : List MapEnt) :
    passed addr slots + inUse (slots.drop (passed addr slots)) = inUse slots := by
  induction slots with
  | nil => rfl
  | cons bp rest ih =>
    rw [passed]
    split_ifs with before
    · rw [drop_succ_cons, inUse, if_pos before.1]
      omega
    · rw [drop_zero, zero_add]

end

/-! ### One call -/

section

variable {mp : Map} (wf : WellFormed mp)
include wf

lemma inUse_segments : inUse mp.m_map = (segments mp.m_map).length := by
  obtain ⟨unused, shape⟩ := id wf.ended
  conv_lhs => rw [shape]
  exact inUse_eq wf.positive

lemma newEnd_eq (addr : Nat) : newEnd mp addr = (segments mp.m_map).length + 1 := by
  rw [newEnd, passed_inUse, inUse_segments wf]

lemma malloc3Reach_le (d_size s_size u_size : Nat) (a : Fin 3 → Nat) :
    malloc3Reach mp d_size s_size u_size a ≤ (segments mp.m_map).length + 1 := by
  obtain ⟨unused, shape⟩ := id wf.ended
  have used := inUse_segments wf
  have walk := searched ![d_size, s_size, u_size] 0 (fun _ => none) mp.m_map (by intro n j h; cases h)
  have searches := searchReach_le unused ![d_size, s_size, u_size] 0 (fun _ => none) wf.positive
  rw [← shape] at searches
  rw [malloc3Reach]
  split_ifs with done
  · apply Nat.max_le.mpr
    refine ⟨searches, ?_⟩
    obtain ⟨segs', resolved, trimmed⟩ := resolved_trimmed shape walk used
    rw [resolved]
    cases remap : (search ![d_size, s_size, u_size] 0 _ mp.m_map).remap with
    | none => exact Nat.zero_le _
    | some p =>
      obtain ⟨k, rfl, inside, -⟩ := walk.remap p remap
      have placed := apart_tail_nonzero (trimmed_apart trimmed wf.apart)
      have within : 0 + k + 1 ≤ segs'.length := by
        rw [trimmed.length]
        omega
      have left : ∀ e ∈ segs'.drop (0 + k + 1), e.m_addr ≠ 0 := by
        intro e inside
        apply placed e
        rw [← drop_one]
        exact mem_of_mem_drop (by rwa [drop_drop, add_comm])
      rw [squeezeReach, drop_append_of_le_length within, keptReach_segments left,
        length_drop, trimmed.length]
      omega
  · exact searches

/-- Only a new slot is made behind the end of the map. -/
lemma mfreeReach_cases {size addr : Nat} (asked : 0 < size) (nonzero : addr ≠ 0)
    (room : (segments mp.m_map).length + 1 ≤ mp.m_limit) :
    ((abutsLeft mp addr = true ∨ abutsRight mp size addr = true) ∧
        mfreeReach mp size addr ≤ (segments mp.m_map).length + 1) ∨
      (¬ abutsLeft mp addr = true ∧ ¬ abutsRight mp size addr = true ∧
        mfreeReach mp size addr = (segments mp.m_map).length + 2) := by
  obtain ⟨unused, shape⟩ := id wf.ended
  have ends := newEnd_eq wf addr
  have within : passed addr mp.m_map ≤ (segments mp.m_map).length := by
    have split := passed_inUse addr mp.m_map
    rw [inUse_segments wf] at split
    omega
  simp only [mfreeReach]
  split_ifs with none_ left right right' over_
  · omega
  · left
    refine ⟨.inl left, ?_⟩
    have inside : passed addr mp.m_map < (segments mp.m_map).length := by
      by_contra outside
      have last : passed addr mp.m_map = (segments mp.m_map).length := by omega
      have empty : slot mp (passed addr mp.m_map) = terminator := by
        rw [last]
        exact slot_append _ _ shape
      rw [abutsRight, decide_eq_true_eq, empty] at right
      exact right.1 rfl
    have slots : mp.m_map.drop (passed addr mp.m_map) = (segments mp.m_map)[passed addr mp.m_map] ::
          ((segments mp.m_map).drop (passed addr mp.m_map + 1) ++ terminator :: unused) := by
      have split : (segments mp.m_map ++ terminator :: unused).drop (passed addr mp.m_map) = _ :=
        drop_append_of_le_length within
      rw [← shape, drop_eq_getElem_cons inside] at split
      exact split
    have positive : ∀ f ∈ (segments mp.m_map).drop (passed addr mp.m_map + 1), 0 < f.m_size :=
      fun f later => wf.positive f (mem_of_mem_drop later)
    rw [slots, shiftDownReach_segments _ positive, length_drop]
    omega
  · exact .inl ⟨.inl left, by omega⟩
  · exact .inl ⟨.inr right', by omega⟩
  · omega
  · exact .inr ⟨left, right', by omega⟩

omit wf in
lemma joined_length {size addr : Nat} {left right segs : List MapEnt}
    (joined : Joined size addr left right segs) : segs.length ≤ (left ++ right).length + 1 := by
  cases joined with
  | both left right ep bp low high =>
    simp only [length_append, length_cons]
    omega
  | below left right ep low high =>
    simp only [length_append, length_cons]
    omega
  | above left right bp low high => simp
  | new left right low high =>
    simp only [length_append, length_cons]
    omega

omit wf in
lemma segments_ended {segs unused : List MapEnt} (positive : ∀ e ∈ segs, 0 < e.m_size) :
    segments (segs ++ terminator :: unused) = segs := by
  rw [segments, takeWhile_append_of_pos]
  · exact append_nil _
  · intro e inside
    rw [decide_eq_true_eq]
    exact ne_of_gt (positive e inside)

lemma malloc_slots {mp' : Map} {size r : Nat} (asked : 0 < size)
    (done : malloc mp size = some (r, mp')) :
    (segments mp'.m_map).length ≤ (segments mp.m_map).length := by
  obtain ⟨unused, shape⟩ := id wf.ended
  have positive := wf.positive
  rw [malloc, if_neg asked.ne'] at done
  cases done
  rcases first_fit size (segments mp.m_map) with small | ⟨pre, e, post, split, small, fits⟩
  · have none_ := mallocFrom_none unused small positive
    rw [← shape] at none_
    rw [none_]
  · rw [split] at positive
    obtain ⟨unused', found⟩ := mallocFrom_some unused small fits asked positive
    rw [← split, ← shape] at found
    have left : (remainder size e).length ≤ 1 := by
      rw [remainder]
      split_ifs
      · exact Nat.zero_le 1
      · exact Nat.le_refl 1
    have live : ∀ f ∈ pre ++ remainder size e ++ post, 0 < f.m_size := by
      intro f inside
      rcases mem_append.mp inside with before | behind
      · rcases mem_append.mp before with before | rest
        · exact positive f (mem_append_left _ before)
        · rw [remainder] at rest
          split_ifs at rest with whole
          · exact absurd rest not_mem_nil
          · cases mem_singleton.mp rest
            exact Nat.sub_pos_of_lt (Nat.lt_of_le_of_ne fits (Ne.symm whole))
      · exact positive f (mem_append_right _ (mem_cons_of_mem e behind))
    dsimp only
    rw [found]
    dsimp only
    rw [segments_ended live, split]
    simp only [length_append, length_cons]
    omega

lemma malloc3_slots (d_size s_size u_size : Nat) (a : Fin 3 → Nat) :
    (segments (malloc3 mp d_size s_size u_size a).2.2.m_map).length ≤ (segments mp.m_map).length := by
  by_cases done : complete (search ![d_size, s_size, u_size] 0 (fun _ => none) mp.m_map).madd = true
  · obtain ⟨a', segs', unused', unfolded, trimmed, -⟩ :=
      malloc3_done wf d_size s_size u_size a rfl done
    have live : ∀ e ∈ segs'.filter (fun e => e.m_size ≠ 0), 0 < e.m_size := by
      intro e inside
      exact Nat.pos_of_ne_zero (of_decide_eq_true (mem_filter.mp inside).2)
    rw [unfolded]
    rw [segments_ended live, ← trimmed.length]
    exact length_filter_le _ _
  · rw [malloc3_undone mp d_size s_size u_size a done]

end

/-! ### Histories of `swapmap` -/

/-- The protocol of the callers: only units that are not free are given back. -/
def Protocol (mp : Map) : Op → Prop
  | .malloc size => 0 < size
  | .malloc3 _ _ u_size _ => 0 < u_size
  | .mfree size addr => 0 < size ∧ addr ≠ 0 ∧ Disjoint (Set.Ico addr (addr + size)) (free mp)

/-- A new slot is made only while two slots of `swapent` are left. -/
def Roomy (mp : Map) : Op → Prop
  | .mfree size addr => abutsLeft mp addr = true ∨ abutsRight mp size addr = true ∨
      (segments mp.m_map).length + 2 ≤ SMAPSIZ
  | _ => True

/-- The map lies within `swapent`, with its end. -/
structure Within (mp : Map) : Prop where
  form : WellFormed mp
  limit : mp.m_limit = SMAPSIZ
  end_ : (segments mp.m_map).length + 1 ≤ SMAPSIZ

/-- One call stays within `swapent` if and only if it makes no slot where there is no room. -/
lemma reach_iff {mp : Map} (within : Within mp) {op : Op} (protocol : Protocol mp op) :
    reach mp op ≤ SMAPSIZ ↔ Roomy mp op := by
  have bound := within.end_
  cases op with
  | malloc size =>
    refine iff_of_true ?_ trivial
    obtain ⟨unused, shape⟩ := id within.form.ended
    have reaches := mallocReach_le unused size within.form.positive
    rw [← shape] at reaches
    rw [reach, if_neg protocol.ne']
    exact reaches.trans bound
  | malloc3 d_size s_size u_size a =>
    exact iff_of_true ((malloc3Reach_le within.form d_size s_size u_size a).trans bound) trivial
  | mfree size addr =>
    obtain ⟨asked, nonzero, -⟩ := protocol
    rcases mfreeReach_cases within.form asked nonzero (within.limit ▸ bound) with
      ⟨abuts, reaches⟩ | ⟨left, right, reaches⟩
    · exact iff_of_true (reaches.trans bound) (or_assoc.mp (.inl abuts))
    · rw [reach, reaches, Roomy]
      simp [left, right]

lemma within_step (mp : Map) (op : Op) (mp' : Map) (within : Within mp)
    (allowed : Protocol mp op ∧ Roomy mp op) (step : Step mp op mp') : Within mp' := by
  obtain ⟨protocol, roomy⟩ := allowed
  have bound := within.end_
  have fits : Allowed mp op := by
    cases op with
    | malloc size => exact protocol
    | malloc3 d_size s_size u_size a => exact protocol
    | mfree size addr =>
      refine ⟨protocol.1, protocol.2.1, protocol.2.2, ?_⟩
      have ends := newEnd_eq within.form addr
      have room : decide (mp.m_limit < newEnd mp addr) = false :=
        decide_eq_false (by rw [within.limit]; omega)
      rw [overflows, room, Bool.and_false]
  obtain ⟨mp'', result, form, limit, -⟩ := apply_spec within.form fits
  cases Option.some.inj (result.symm.trans step)
  refine ⟨form, limit.trans within.limit, ?_⟩
  cases op with
  | malloc size =>
    obtain ⟨⟨r, mp''⟩, done, rfl⟩ := Option.map_eq_some_iff.mp step
    have slots := malloc_slots within.form protocol done
    dsimp only
    omega
  | malloc3 d_size s_size u_size a =>
    cases step
    have slots := malloc3_slots within.form d_size s_size u_size a
    omega
  | mfree size addr =>
    obtain ⟨left, right, segs', unused, split, joined, done, made⟩ :=
      mfree_joined within.form fits.1 fits.2.1 fits.2.2.1 fits.2.2.2
    cases Option.some.inj (done.symm.trans step)
    have positive := within.form.positive
    have sorted := within.form.apart
    rw [split] at positive sorted
    dsimp only
    rw [segments_ended (joined_positive joined sorted fits.1 positive)]
    rcases Nat.lt_or_ge (segments mp.m_map).length segs'.length with more | same
    · obtain ⟨notLeft, notRight⟩ := made more
      rw [Roomy, notLeft, notRight] at roomy
      simp only [Bool.false_eq_true, false_or] at roomy
      have one : segs'.length ≤ (segments mp.m_map).length + 1 := by
        rw [split]
        exact joined_length joined
      omega
    · omega

lemma swapmap_within : Within swapmap := by
  refine ⟨⟨⟨replicate 9 terminator, rfl⟩, ?_, ?_⟩, rfl, by decide⟩
  · exact fun e inside => absurd inside not_mem_nil
  · exact List.Pairwise.nil

/-- **The bound of the array.** In every history in which new slots are made only while two are
left, the next call stays within `swapent` if and only if it does the same. -/
theorem swapmap_in_bounds {mp : Map} (ops : List Op)
    (run : Run Step (fun mp op => Protocol mp op ∧ Roomy mp op) swapmap ops mp) {op : Op}
    (protocol : Protocol mp op) : reach mp op ≤ SMAPSIZ ↔ Roomy mp op :=
  reach_iff (run_invariant Within within_step run swapmap_within) protocol

theorem first_call_in_bounds : Protocol swapmap (.mfree 40 1) ∧ reach swapmap (.mfree 40 1) = 2 ∧
    (reach swapmap (.mfree 40 1) ≤ SMAPSIZ ↔ Roomy swapmap (.mfree 40 1)) := by
  have protocol : Protocol swapmap (.mfree 40 1) := by
    refine ⟨by decide, by decide, ?_⟩
    rw [show free swapmap = ∅ from covered_nil]
    exact Set.disjoint_empty _
  exact ⟨protocol, by decide, swapmap_in_bounds [] (.nil swapmap) protocol⟩

/-- The units that are given back lie outside all segments. -/
def Separate (mp : Map) : Op → Prop
  | .mfree size addr => 0 < size ∧ addr ≠ 0 ∧
      ∀ e ∈ segments mp.m_map, addr + size ≤ e.m_addr ∨ e.m_addr + e.m_size ≤ addr
  | .malloc size => 0 < size
  | .malloc3 _ _ u_size _ => 0 < u_size

instance (mp : Map) : (op : Op) → Decidable (Separate mp op)
  | .mfree size addr => inferInstanceAs (Decidable (0 < size ∧ addr ≠ 0 ∧
      ∀ e ∈ segments mp.m_map, addr + size ≤ e.m_addr ∨ e.m_addr + e.m_size ≤ addr))
  | .malloc size => inferInstanceAs (Decidable (0 < size))
  | .malloc3 _ _ u_size _ => inferInstanceAs (Decidable (0 < u_size))

lemma Separate.protocol {mp : Map} {op : Op} (separate : Separate mp op) : Protocol mp op := by
  cases op with
  | malloc size => exact separate
  | malloc3 d_size s_size u_size a => exact separate
  | mfree size addr =>
    obtain ⟨asked, nonzero, outside⟩ := separate
    refine ⟨asked, nonzero, Set.disjoint_left.mpr ?_⟩
    rintro x inside ⟨e, segment, low, high⟩
    rw [Set.mem_Ico] at inside
    rcases outside e segment with above | below
    · omega
    · omega

/-- The swap area is given to the map, eighteen blocks are taken, and every other one of them is
given back. -/
def fragments : List Op :=
  .mfree 40 1 :: (List.replicate 18 (.malloc 1) ++ [1, 3, 5, 7, 9, 11, 13, 15].map (.mfree 1 ·))

/-- The tenth segment is entered into the last slot, and the end of the map behind the array. -/
theorem tenth_segment_overruns : ∃ mp, Run Step Protocol swapmap fragments mp ∧
    Protocol mp (.mfree 1 17) ∧ SMAPSIZ < reach mp (.mfree 1 17) := by
  have follows : follow apply Separate swapmap fragments = some
      ⟨[⟨1, 1⟩, ⟨1, 3⟩, ⟨1, 5⟩, ⟨1, 7⟩, ⟨1, 9⟩, ⟨1, 11⟩, ⟨1, 13⟩, ⟨1, 15⟩, ⟨22, 19⟩, ⟨0, 0⟩], 10⟩ := by
    decide
  refine ⟨_, (run_of_follow follows).mono fun _ _ => Separate.protocol, Separate.protocol ?_, ?_⟩
  · decide
  · decide

end ResourceMap
