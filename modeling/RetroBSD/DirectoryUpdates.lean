import RetroBSD.DirectorySearch
import RetroBSD.Runs

/-!
# Changing a directory

Entering, removing and rewriting an entry after the search of `namei`. Every
change keeps a directory well formed and changes the list of its names by the one
entry it is about, as long as the size of the directory is below the largest
`off_t`.
-/

namespace Directory

open Words Runs List

/-- What `namei` is called with; `ndp` is what the caller's record held before. -/
structure Call where
  name : List UInt8
  lockparent : Bool
  /-- Whether `access` refuses to write the directory. -/
  denied : Bool
  ndp : Nameidata

inductive Op where
  | enter (call : Call) (ino : Nat)
  | remove (call : Call)
  | rewrite (call : Call) (flag : Flag) (nc_prevoffset : Option Int) (ino : Nat)

inductive Outcome where
  | done (d : Dir)
  | refused (e : Errno)
  | panic (p : Panic)
  /-- The name is there although it is to be entered. -/
  | exists
  /-- A block is missing or an entry is mangled. -/
  | damaged

/-- The search and the change. -/
def exec (d : Dir) : Op → Outcome
  | .enter call ino =>
    match namei d .CREATE call.lockparent call.denied call.ndp call.name none with
    | .absent ndp =>
      match direnter d ndp ino with
      | .done d => .done d
      | .panic p => .panic p
      | _ => .damaged
    | .error e => .refused e
    | .found _ _ => .exists
    | .hole => .damaged
  | .remove call =>
    match namei d .DELETE call.lockparent call.denied call.ndp call.name none with
    | .found ndp d =>
      match dirremove d ndp with
      | some d => .done d
      | none => .damaged
    | .error e => .refused e
    | _ => .damaged
  | .rewrite call flag nc_prevoffset ino =>
    match namei d flag call.lockparent call.denied call.ndp call.name nc_prevoffset with
    | .found ndp d => .done (dirrewrite d ndp ino)
    | .error e => .refused e
    | _ => .damaged

def DirStep (d : Dir) (op : Op) (d' : Dir) : Prop := exec d op = .done d'

def Component (name : List UInt8) : Prop := 0 < name.length ∧ name.length ≤ MAXNAMLEN

def Inumber (ino : Nat) : Prop := 0 < ino ∧ ino < 2 ^ 32

instance (name : List UInt8) : Decidable (Component name) := inferInstanceAs (Decidable (_ ∧ _))

instance (ino : Nat) : Decidable (Inumber ino) := inferInstanceAs (Decidable (_ ∧ _))

def Dir.Has (d : Dir) (name : List UInt8) : Prop := name ∈ d.live.map Prod.fst

/-- What is entered is absent and the rest is present. A search that resumes does so at
a block boundary, which is all that `nc_prevoffset` is set to. -/
def Proper (d : Dir) : Op → Prop
  | .enter call ino => Component call.name ∧ Inumber ino ∧ ¬ d.Has call.name
  | .remove call => Component call.name ∧ d.Has call.name
  | .rewrite call _ nc_prevoffset ino => Component call.name ∧ Inumber ino ∧ d.Has call.name ∧
      ∀ p, nc_prevoffset = some p → 0 ≤ p ∧ p % DIRBLKSIZ = 0

/-- The directory can still grow by a block. -/
def Grows (d : Dir) : Op → Prop
  | .enter _ _ => d.i_size + DIRBLKSIZ < 2 ^ 31
  | _ => True

/-- The change of the list of names. -/
def Changed (d : Dir) (op : Op) (d' : Dir) : Prop :=
  match op with
  | .enter call ino => ∃ l₁ l₂, d.live = l₁ ++ l₂ ∧ d'.live = l₁ ++ (call.name, ino) :: l₂
  | .remove call => ∃ l₁ l₂ ino, d.live = l₁ ++ (call.name, ino) :: l₂ ∧ d'.live = l₁ ++ l₂
  | .rewrite call _ _ ino => ∃ l₁ l₂ old, d.live = l₁ ++ (call.name, old) :: l₂ ∧
      d'.live = l₁ ++ (call.name, ino) :: l₂

/-- Why `namei` refuses: no access, a directory that was removed, or a new target for
the directory itself. -/
def Barred (d : Dir) : Op → Prop
  | .enter call _ => call.denied = true ∨ d.i_nlink = 0
  | .remove call => call.denied = true
  | .rewrite call flag _ _ => flag = .CREATE ∧ call.lockparent = true ∧
      (call.denied = true ∨ (call.name, d.i_number) ∈ d.live) ∨ flag = .DELETE ∧ call.denied = true

/-! ## One block changes -/

section Blocks

variable {d : Dir} {k : Nat} {b b' : Block}

lemma range_split {j n : Nat} (small : j < n) :
    List.range n = List.range j ++ j :: (List.range (n - j - 1)).map (j + 1 + ·) := by
  have parts : n = j + (1 + (n - j - 1)) := by omega
  conv_lhs => rw [parts, range_add, range_add]
  simp [add_assoc]

/-- The names before, in and after a block. -/
lemma live_split (small : k < d.count) : ∃ l₁ l₂, d.live = l₁ ++ names (d.entries k) ++ l₂ ∧
    ∀ d' : Dir, d'.count = d.count → (∀ j, j ≠ k → d'.entries j = d.entries j) →
      d'.live = l₁ ++ names (d'.entries k) ++ l₂ := by
  have cut : ∀ d' : Dir, d'.count = d.count → d'.live =
      (range k).flatMap (fun j => names (d'.entries j)) ++ names (d'.entries k) ++
        ((range (d.count - k - 1)).map (k + 1 + ·)).flatMap (fun j => names (d'.entries j)) := by
    intro d' same
    simp [Dir.live, same, range_split small]
  refine ⟨_, _, cut d rfl, fun d' same others => ?_⟩
  rw [cut d' same]
  congr 1
  · congr 1
    refine flatMap_congr (fun j hj => ?_)
    have := mem_range.mp hj
    rw [others j (by omega)]
  · refine flatMap_congr (fun j hj => ?_)
    obtain ⟨-, _, rfl⟩ := mem_map.mp hj
    rw [others _ (by omega)]

def Dir.with (d : Dir) (k : Nat) (b : Block) : Dir :=
  { d with blocks := Function.update d.blocks k (some b) }

lemma with_entries (d : Dir) (k j : Nat) (b : Block) :
    (d.with k b).entries j = if j = k then entries b else d.entries j := by
  by_cases h : j = k
  · subst h
    simp [Dir.with, Dir.entries]
  · simp [Dir.with, Dir.entries, h]

/-- The names `old` of the directory give way to `new`. -/
def Replaced (d d' : Dir) (old new : List (List UInt8 × Nat)) : Prop :=
  ∃ l₁ l₂, d.live = l₁ ++ old ++ l₂ ∧ d'.live = l₁ ++ new ++ l₂ ∧
    ((d'.live.map Prod.fst).Nodup → WellFormed d')

/-- Some entries of a block give way to others that take the same space. -/
lemma change_spec (wf : WellFormed d) (small : k < d.count) (here : d.blocks k = some b)
    {es mid mid' fs : List Entry} (split : d.entries k = es ++ mid ++ fs)
    (same : ∀ i, i < span es ∨ span es + span mid ≤ i → b' i = b i)
    (laid : Laid b' (span es) mid') (good : ∀ e ∈ mid', e.Good) (spans : span mid' = span mid) :
    Replaced d (d.with k b') (names mid) (names mid') := by
  obtain ⟨b₀, here₀, _, laidAll, goodAll, fills⟩ := wellFormed_block wf small
  rw [here] at here₀
  cases here₀
  rw [split] at laidAll goodAll fills
  obtain ⟨laidLeft, laidRight⟩ := (laid_append _ fs).mp laidAll
  obtain ⟨laidEs, _⟩ := (laid_append es mid).mp laidLeft
  simp only [span_append] at fills laidRight
  have goodNew : ∀ e ∈ es ++ mid' ++ fs, e.Good := by
    intro e he
    simp only [mem_append] at he
    rcases he with (he | he) | he
    · exact goodAll e (by simp [he])
    · exact good e he
    · exact goodAll e (by simp [he])
  have laidNew : Laid b' 0 (es ++ mid' ++ fs) := by
    refine (laid_append _ _).mpr ⟨(laid_append _ _).mpr ⟨?_, by simpa using laid⟩, ?_⟩
    · exact laid_congr (fun e he => goodAll e (by simp [he])) (fun i _ high => same i (by omega)) laidEs
    · simp only [span_append, spans]
      exact laid_congr (fun e he => goodAll e (by simp [he])) (fun i low _ => same i (by omega)) laidRight
  obtain ⟨tiled, isNew⟩ := tiled_of_laid laidNew goodNew (by simp only [span_append]; omega)
  obtain ⟨l₁, l₂, before, after⟩ := live_split small
  refine ⟨l₁ ++ names es, names fs ++ l₂, ?_, ?_, fun distinct => ⟨wf.nonneg, wf.bounded, wf.whole, ?_, distinct⟩⟩
  · simp [before, split, names_append]
  · rw [after (d.with k b') rfl (fun j h => by simp [with_entries, h])]
    simp [with_entries, isNew, names_append]
  · intro j hj
    by_cases h : j = k
    · subst h
      exact ⟨b', by simp [Dir.with], tiled⟩
    · obtain ⟨x, hx, tiledX⟩ := wf.tiled j hj
      exact ⟨x, by simp [Dir.with, h, hx], tiledX⟩

end Blocks

/-! ## Truncation -/

section Truncation

variable {d : Dir} {m : Nat}

lemma itrunc_count (d : Dir) (m : Nat) : (itrunc d (DIRBLKSIZ * m)).count = m := by
  simp only [itrunc, Dir.count, DIRBLKSIZ]
  omega

lemma itrunc_entries {j : Nat} (small : j < m) : (itrunc d (DIRBLKSIZ * m)).entries j = d.entries j := by
  have inside : j * DIRBLKSIZ < DIRBLKSIZ * m := by
    simp only [DIRBLKSIZ]
    omega
  simp [itrunc, Dir.entries, inside]

/-- Blocks without live entries are cut off. -/
lemma itrunc_live (le : m ≤ d.count) (dead : ∀ j, m ≤ j → j < d.count → names (d.entries j) = []) :
    (itrunc d (DIRBLKSIZ * m)).live = d.live := by
  obtain ⟨n, total⟩ := Nat.exists_eq_add_of_le le
  have cut : ((range n).map (m + ·)).flatMap (fun j => names (d.entries j)) = [] := by
    simp only [flatMap_eq_nil_iff, mem_map, mem_range]
    rintro _ ⟨j, hj, rfl⟩
    exact dead _ (by omega) (by omega)
  simp only [Dir.live, itrunc_count, total, range_add, flatMap_append, cut, append_nil]
  refine flatMap_congr (fun j hj => ?_)
  rw [itrunc_entries (mem_range.mp hj)]

lemma itrunc_wellFormed (wf : WellFormed d) (le : m ≤ d.count)
    (dead : ∀ j, m ≤ j → j < d.count → names (d.entries j) = []) :
    WellFormed (itrunc d (DIRBLKSIZ * m)) := by
  have size := wellFormed_size wf
  have bounded := wf.bounded
  refine ⟨Int.natCast_nonneg _, ?_, ?_, fun j hj => ?_, by rw [itrunc_live le dead]; exact wf.distinct⟩
  · simp only [itrunc, DIRBLKSIZ] at size ⊢
    omega
  · simp only [itrunc, DIRBLKSIZ]
    omega
  · rw [itrunc_count] at hj
    obtain ⟨b, here, tiled⟩ := wf.tiled j (by omega)
    have inside : j * DIRBLKSIZ < DIRBLKSIZ * m := by
      simp only [DIRBLKSIZ]
      omega
    exact ⟨b, by simp [itrunc, inside, here], tiled⟩

end Truncation

/-! ## Entering -/

section Entering

variable {d : Dir} {k : Nat} {ndp : Nameidata} {ino : Nat}

lemma block_of_offset {o : Nat} (inside : o < DIRBLKSIZ) {offset : Int}
    (place : offset = (DIRBLKSIZ * k + o : Nat)) : lblkno offset = k ∧ blkoff offset = o ∧ ¬ offset < 0 := by
  simp only [place, lblkno, blkoff, DIRBLKSIZ] at inside ⊢
  omega

lemma names_kept (es : List Entry) : names (kept es) = names es := by
  induction es with
  | nil => rfl
  | cons e es ih =>
    by_cases h : e.live = true
    · have trimmed : e.trim.live = true := h
      simp only [names, kept_cons, h, if_true, filter_cons, trimmed, map_cons] at ih ⊢
      rw [ih]
      rfl
    · simp only [names, kept_cons, h, filter_cons]
      exact ih

lemma length_le_span {es : List Entry} (good : ∀ e ∈ es, e.Good) : es.length ≤ span es := by
  induction es with
  | nil => simp
  | cons e es ih =>
    have positive := (good e (by simp)).positive
    have rest := ih (fun x hx => good x (by simp [hx]))
    simp only [length_cons, span_cons]
    omega

lemma enter_slot (wf : WellFormed d) (small : k < d.count) {es slot fs : List Entry}
    (split : d.entries k = es ++ slot ++ fs) (nonempty : slot ≠ []) (dent : Direct)
    (inumber : Inumber dent.d_ino) (room : DIRSIZ dent.d_namlen ≤ freeSpace slot) {offset : Int}
    (place : offset = (DIRBLKSIZ * k + span es : Nat)) : ∃ b c b', blkatoff d offset = some b ∧
      compactloop (blkoff offset) (span slot) (span slot + 1) ⟨b, blkoff offset,
        DIRSIZ (d_namlen b (blkoff offset)),
        d_reclen b (blkoff offset) - DIRSIZ (d_namlen b (blkoff offset)),
        d_reclen b (blkoff offset)⟩ = some c ∧
      c.finish dent = .ok b' ∧ d.bwrite offset b' = d.with k b' ∧
      Replaced d (d.with k b') [] [((List.range dent.d_namlen).map dent.d_name, dent.d_ino)] := by
  obtain ⟨b, here, _, laid, good, fills⟩ := wellFormed_block wf small
  rw [split] at laid good fills
  obtain ⟨laidLeft, _⟩ := (laid_append _ fs).mp laid
  have laidSlot := ((laid_append es slot).mp laidLeft).2
  have goodSlot : ∀ x ∈ slot, x.Good := fun x hx => good x (by simp [hx])
  have spans := kept_span goodSlot
  have long := length_le_span goodSlot
  have sizes := DIRSIZ_bounds dent.d_namlen
  simp only [span_append, DIRBLKSIZ] at fills
  have inside : span es < DIRBLKSIZ := by
    simp only [DIRBLKSIZ]
    omega
  obtain ⟨isBlock, isOffset, nonneg⟩ := block_of_offset inside place
  rw [zero_add] at laidSlot
  obtain ⟨c, b', loop, finish, laid', same⟩ := compact_spec nonempty laidSlot goodSlot (by omega) dent
    inumber.2 room (k := span slot + 1) (by omega)
  -- all lengths in the block are multiples of four
  have aligned : freeSpace slot % 4 = 0 := by
    clear * - goodSlot
    induction slot with
    | nil => rfl
    | cons e es ih =>
      have here := (goodSlot e (by simp)).aligned
      have need := (DIRSIZ_bounds e.name.length).2.2
      have rest := ih (fun x hx => goodSlot x (by simp [hx]))
      simp only [freeSpace_cons, Entry.free, Entry.need]
      split_ifs <;> omega
  have goodNew : ∀ e ∈ kept slot ++
      [⟨dent.d_ino, freeSpace slot, (range dent.d_namlen).map dent.d_name⟩], e.Good := by
    intro e he
    rcases mem_append.mp he with h | h
    · exact kept_good slot e h
    · rw [mem_singleton.mp h]
      exact ⟨by simp only; omega, aligned, by simpa [Entry.need] using room⟩
  obtain ⟨l₁, l₂, before, after, wf'⟩ := change_spec wf small here split same laid' goodNew
    (by simp only [span_append, span_cons, span_nil]; omega)
  have alive : names [⟨dent.d_ino, freeSpace slot, (range dent.d_namlen).map dent.d_name⟩] =
      [((range dent.d_namlen).map dent.d_name, dent.d_ino)] := by
    have : dent.d_ino ≠ 0 := by have := inumber.1; omega
    simp [names, Entry.live, this]
  rw [isOffset]
  refine ⟨b, c, b', by simp [blkatoff, nonneg, isBlock, here], loop, finish,
    by simp [Dir.bwrite, Dir.with, isBlock], l₁ ++ names slot, l₂, ?_, ?_, wf'⟩
  · rw [before, append_nil]
  · simp [after, names_append, names_kept, alive]

/-- The directory with a new block for the entry. -/
def newBlock (d : Dir) (dent : Direct) : Dir :=
  let d' := rdwri d { dent with d_reclen := DIRBLKSIZ } (DIRSIZ dent.d_namlen) (DIRBLKSIZ * d.count : Nat)
  { d' with i_size := roundup d'.i_size DIRBLKSIZ }

lemma newBlock_size (wf : WellFormed d) (dent : Direct) :
    (newBlock d dent).i_size = roundup (d.i_size + DIRSIZ dent.d_namlen) DIRBLKSIZ := by
  have size := wellFormed_size wf
  have sizes := DIRSIZ_bounds dent.d_namlen
  have still : ∀ b, (d.bwrite (DIRBLKSIZ * d.count : Nat) b).i_size = d.i_size := fun _ => rfl
  have larger : ((DIRBLKSIZ * d.count : Nat) : Int) + (DIRSIZ dent.d_namlen : Nat) > d.i_size := by
    omega
  have same : ((DIRBLKSIZ * d.count : Nat) : Int) = d.i_size := by
    rw [size]
    push_cast
    rfl
  simp only [newBlock, rdwri, still, larger, if_true]
  rw [same]

lemma enter_block (wf : WellFormed d) (dent : Direct) (namlen : dent.d_namlen ≤ MAXNAMLEN)
    (inumber : Inumber dent.d_ino) (grows : d.i_size + DIRBLKSIZ < 2 ^ 31) {d' : Dir}
    (isNew : d' = newBlock d dent) :
    d'.live = d.live ++ [((List.range dent.d_namlen).map dent.d_name, dent.d_ino)] ∧
      ((d'.live.map Prod.fst).Nodup → WellFormed d') := by
  have size := wellFormed_size wf
  have sizes := DIRSIZ_bounds dent.d_namlen
  simp only [MAXNAMLEN, DIRBLKSIZ] at namlen grows size
  have boundary : ((DIRBLKSIZ * d.count : Nat) : Int) = (DIRBLKSIZ * d.count + 0 : Nat) := rfl
  obtain ⟨isBlock, isOffset, _⟩ := block_of_offset (by decide) boundary
  have newSize : d'.i_size = (DIRBLKSIZ * (d.count + 1) : Nat) := by
    rw [isNew, newBlock_size wf, roundup_eq (by omega) (by simp only [DIRBLKSIZ]; omega)]
    simp only [DIRBLKSIZ]
    omega
  have newCount : d'.count = d.count + 1 := by
    simp only [Dir.count, newSize, DIRBLKSIZ]
    omega
  have blocks : d'.blocks = Function.update d.blocks d.count
      (some (copyIn ((d.blocks d.count).getD zeroBlock) 0 { dent with d_reclen := DIRBLKSIZ }
        (DIRSIZ dent.d_namlen))) := by
    rw [isNew]
    simp only [newBlock, rdwri]
    split_ifs <;> simp only [Dir.bwrite, isBlock, isOffset]
  have laid : Laid (copyIn ((d.blocks d.count).getD zeroBlock) 0 { dent with d_reclen := DIRBLKSIZ }
      (DIRSIZ dent.d_namlen)) 0 [⟨dent.d_ino, DIRBLKSIZ, (range dent.d_namlen).map dent.d_name⟩] := by
    refine ⟨?_, trivial⟩
    rw [entryAt_copyIn _ _ _ (by simp only; omega) (by simp only; omega)]
    simp only [Nat.mod_eq_of_lt inumber.2]
    rfl
  have good : ∀ e ∈ [Entry.mk dent.d_ino DIRBLKSIZ ((range dent.d_namlen).map dent.d_name)], e.Good := by
    intro e he
    rw [mem_singleton.mp he]
    refine ⟨Nat.zero_lt_succ _, by simp [DIRBLKSIZ], ?_⟩
    simp only [Entry.need, length_map, length_range, DIRBLKSIZ]
    omega
  obtain ⟨tiled, isEntries⟩ := tiled_of_laid laid good (by simp)
  have old : ∀ j, j < d.count → d'.entries j = d.entries j := by
    intro j hj
    have h : j ≠ d.count := by omega
    simp [Dir.entries, blocks, h]
  have new : d'.entries d.count = [⟨dent.d_ino, DIRBLKSIZ, (range dent.d_namlen).map dent.d_name⟩] := by
    simp only [Dir.entries, blocks, Function.update_self, Option.map_some, Option.getD_some, isEntries]
  have positive : dent.d_ino ≠ 0 := by have := inumber.1; omega
  refine ⟨?_, fun distinct => ⟨by omega, ?_, ?_, fun j hj => ?_, distinct⟩⟩
  · simp only [Dir.live, newCount, range_succ, flatMap_append, flatMap_cons, flatMap_nil,
      append_nil, new]
    congr 1
    · exact flatMap_congr (fun j hj => by rw [old j (mem_range.mp hj)])
    · simp [names, Entry.live, positive]
  · rw [newSize]
    simp only [DIRBLKSIZ]
    omega
  · rw [newSize]
    simp only [DIRBLKSIZ]
    omega
  · by_cases h : j = d.count
    · subst h
      exact ⟨_, by rw [blocks, Function.update_self], tiled⟩
    · obtain ⟨b, here, tiledB⟩ := wf.tiled j (by omega)
      exact ⟨b, by rw [blocks, Function.update_of_ne h, here], tiledB⟩

lemma nodup_insert {l₁ l₂ : List (List UInt8 × Nat)} {name : List UInt8} (ino : Nat)
    (distinct : ((l₁ ++ l₂).map Prod.fst).Nodup) (absent : name ∉ (l₁ ++ l₂).map Prod.fst) :
    ((l₁ ++ (name, ino) :: l₂).map Prod.fst).Nodup := by
  simp only [map_append] at distinct absent ⊢
  exact nodup_middle.mpr (nodup_cons.mpr ⟨absent, distinct⟩)

/-- Without a slot the entry starts a new block. -/
lemma exec_newBlock (wf : WellFormed d) {call : Call}
    (free : ¬ Barred d (.enter call ino)) {t : Search}
    (search : passes d call.name (Search.start .CREATE call.name.length) none = .notfound t)
    (looking : t.slotstatus = .NONE) : exec d (.enter call ino) =
      .done (newBlock d { call.ndp.ni_dent.component call.name with d_ino := ino }) := by
  simp only [Barred, not_or] at free
  have isZero : blkoff ((DIRBLKSIZ * d.count : Nat) : Int) = 0 := by
    simp only [blkoff, DIRBLKSIZ]
    omega
  unfold exec
  simp only [namei, reduceCtorEq, if_false, search, namei_notfound, ne_eq, free.2, not_false_eq_true,
    and_self, if_true, free.1, Bool.false_eq_true, looking, roundup_size wf, direnter, isZero, not_true, newBlock]

/-- A name that is absent is entered, and no panic is reached. -/
lemma exec_enter (wf : WellFormed d) {call : Call} (proper : Proper d (.enter call ino))
    (grows : Grows d (.enter call ino)) (free : ¬ Barred d (.enter call ino)) :
    ∃ d', exec d (.enter call ino) = .done d' ∧ WellFormed d' ∧ Changed d (.enter call ino) d' := by
  obtain ⟨component, inumber, absent⟩ := proper
  obtain ⟨t, search, seeks, offset, needed⟩ := search_absent wf absent
  have size := wellFormed_size wf
  have bounded := wf.bounded
  simp only [DIRBLKSIZ] at size
  have named := component_name call.ndp.ni_dent call.name
  have namlen : (call.ndp.ni_dent.component call.name).d_namlen = call.name.length := rfl
  by_cases looking : t.slotstatus = .NONE
  · obtain ⟨live, wf'⟩ := enter_block wf { call.ndp.ni_dent.component call.name with d_ino := ino }
      component.2 inumber grows rfl
    simp only [named] at live
    refine ⟨_, exec_newBlock wf free search looking, wf' ?_, d.live, [], by simp, live⟩
    rw [live]
    exact nodup_insert ino (by simpa using wf.distinct) (by simpa [Dir.Has] using absent)
  · obtain ⟨k, es, slot, fs, small, split, nonempty, isOffset, isSize, room⟩ := seeks.slot looking
    have reached := seeks.reached
    obtain ⟨_, _, _, _, good, fills⟩ := wellFormed_block wf small
    rw [split] at good fills
    have long := length_le_span (fun e he => good e (by simp [he]) : ∀ e ∈ slot, e.Good)
    have positive : 0 < slot.length := length_pos_iff.mpr nonempty
    simp only [span_append, DIRBLKSIZ] at fills
    obtain ⟨b, c, b', block, loop, finish, written, l₁, l₂, before, after, wf'⟩ := enter_slot wf small split
      nonempty { call.ndp.ni_dent.component call.name with d_ino := ino } inumber
      (by simp only [namlen]; omega) rfl
    simp only [named, append_assoc, singleton_append, append_nil] at before after
    have distinct : ((d.with k b').live.map Prod.fst).Nodup := by
      rw [after]
      exact nodup_insert ino (before ▸ wf.distinct) (before ▸ absent)
    -- the directory ends behind the last block with a live entry
    obtain ⟨stop, isStop⟩ : ∃ x, x = ((DIRBLKSIZ * k + span es : Nat) : Int) + (span slot : Nat) := ⟨_, rfl⟩
    obtain ⟨m, isEnd, low, high, dead⟩ : ∃ m, roundup (if t.enduseful < stop then stop else t.enduseful)
          DIRBLKSIZ = (DIRBLKSIZ * m : Nat) ∧ k < m ∧ m ≤ d.count ∧
        ∀ j, m ≤ j → j < d.count → names ((d.with k b').entries j) = [] := by
      simp only [DIRBLKSIZ] at offset isStop
      obtain ⟨useful, isUseful, atLeast, atLeast', atMost⟩ : ∃ x,
          (if t.enduseful < stop then stop else t.enduseful) = x ∧
          t.enduseful ≤ x ∧ stop ≤ x ∧ x ≤ 1024 * d.count := by
        refine ⟨_, rfl, ?_⟩
        split_ifs <;> omega
      rw [roundup_eq (by omega) (by simp only [DIRBLKSIZ]; omega)]
      refine ⟨((useful + 1023) / 1024).toNat, by simp only [DIRBLKSIZ]; omega, by omega, by omega,
        fun j hj small' => ?_⟩
      rw [with_entries, if_neg (by omega)]
      simp only [names, map_eq_nil_iff, filter_eq_nil_iff]
      intro e he live
      have := seeks.earlier j small' e he live
      simp only [DIRBLKSIZ] at this
      omega
    simp only [Barred, not_or, Bool.not_eq_true] at free
    have run : exec d (.enter call ino) = .done (if m < d.count then itrunc (d.with k b') (DIRBLKSIZ * m)
        else d.with k b') := by
      have some_ : ¬ ((span slot : Nat) : Int) = 0 := by omega
      have fits : ¬ stop > d.i_size := by
        simp only [DIRBLKSIZ] at isStop
        omega
      have cut : (((DIRBLKSIZ * m : Nat) : Int) ≠ 0 ∧ ((DIRBLKSIZ * m : Nat) : Int) < (d.with k b').i_size) ↔
          m < d.count := by
        simp only [Dir.with, DIRBLKSIZ]
        omega
      unfold exec
      simp only [namei, reduceCtorEq, if_false, search, namei_notfound, ne_eq, free.2, not_false_eq_true,
        and_self, if_true, free.1, Bool.false_eq_true, looking, isOffset, Option.getD_some, isSize,
        ← isStop, isEnd, direnter, some_, fits, block, Int.toNat_natCast, loop, finish, written]
      simp only [ne_eq] at cut
      simp only [cut]
    refine ⟨_, run, ?_, l₁, l₂, before, ?_⟩
    · split_ifs with cut
      · exact itrunc_wellFormed (wf' distinct) high dead
      · exact wf' distinct
    · rw [← after]
      split_ifs with cut
      · exact itrunc_live high dead
      · rfl

end Entering

/-! ## Removing and rewriting -/

section Present

variable {d : Dir} {k : Nat} {es fs : List Entry} {e : Entry} {t : Search}

/-- What `namei` leaves in `ni_dent` for the entry it found. -/
def foundDent (old : Direct) (name : List UInt8) (e : Entry) : Direct :=
  { old.component name with d_ino := e.ino, d_reclen := e.reclen }

lemma found_block (wf : WellFormed d) (small : k < d.count) (stands : Stands d k es e fs t) :
    (∀ x ∈ es ++ e :: fs, x.Good) ∧ span es + (e.reclen + span fs) = 1024 ∧
      lblkno t.ni_offset = k ∧ blkoff t.ni_offset = span es := by
  obtain ⟨_, _, _, _, good, fills⟩ := wellFormed_block wf small
  rw [stands.split] at good fills
  have positive := (good e (by simp)).positive
  simp only [span_append, span_cons, DIRBLKSIZ] at fills
  obtain ⟨isBlock, isOffset, _⟩ := block_of_offset (by simp only [DIRBLKSIZ]; omega : span es < DIRBLKSIZ)
    stands.offset
  exact ⟨good, fills, isBlock, isOffset⟩

/-- The entry is inside the directory, so its size stays. -/
lemma found_inside (wf : WellFormed d) (small : k < d.count) (stands : Stands d k es e fs t) :
    ¬ ((t.entryoffsetinblock : Int) + DIRSIZ (d_namlen t.bp t.entryoffsetinblock) > d.i_size) ∧
    d_ino t.bp t.entryoffsetinblock = e.ino ∧ d_reclen t.bp t.entryoffsetinblock = e.reclen := by
  obtain ⟨good, fills, _⟩ := found_block wf small stands
  have size := wellFormed_size wf
  have room := (good e (by simp)).room
  have need := need_entryAt t.bp t.entryoffsetinblock
  rw [stands.entry] at need
  have place := stands.place
  simp only [DIRBLKSIZ] at size
  exact ⟨by omega, congrArg Entry.ino stands.entry, congrArg Entry.reclen stands.entry⟩

variable {call : Call} {ino : Nat}

/-- A new inode number, which may be zero, is written over that of an entry. -/
lemma rdwri_ino (wf : WellFormed d) (small : k < d.count) (stands : Stands d k es e fs t)
    (old : Direct) (bound : ino < 2 ^ 32) :
    ∃ b', rdwri d { foundDent old e.name e with d_ino := ino } (DIRSIZ e.name.length) t.ni_offset = d.with k b' ∧
      Replaced d (d.with k b') (names [e]) (names [{ e with ino }]) := by
  obtain ⟨good, fills, isBlock, isOffset⟩ := found_block wf small stands
  have size := wellFormed_size wf
  have goodE := good e (by simp)
  have room := goodE.room
  have sizes := DIRSIZ_bounds e.name.length
  have named := component_name old e.name
  have split : d.entries k = es ++ [e] ++ fs := by simpa using stands.split
  simp only [Entry.need, DIRBLKSIZ] at room size
  have short : e.reclen < 65536 := by omega
  have inside : ¬ t.ni_offset + (DIRSIZ e.name.length : Nat) > d.i_size := by
    have := stands.offset
    simp only [DIRBLKSIZ] at this
    omega
  have written : rdwri d { foundDent old e.name e with d_ino := ino } (DIRSIZ e.name.length) t.ni_offset =
      d.with k (copyIn t.bp (span es) { foundDent old e.name e with d_ino := ino } (DIRSIZ e.name.length)) := by
    have still : ∀ b, (d.bwrite t.ni_offset b).i_size = d.i_size := fun _ => rfl
    simp only [rdwri, still, inside, isBlock, isOffset, stands.block, Option.getD_some]
    simp [Dir.bwrite, Dir.with, isBlock]
  have laid : Laid (copyIn t.bp (span es) { foundDent old e.name e with d_ino := ino } (DIRSIZ e.name.length))
      (span es) [{ e with ino }] := by
    have lengths : (foundDent old e.name e).d_namlen = e.name.length := rfl
    refine ⟨?_, trivial⟩
    rw [entryAt_copyIn _ _ _ (by simp only [lengths]; omega) (by simp only [lengths]; omega)]
    simp only [Nat.mod_eq_of_lt bound]
    have isReclen : (foundDent old e.name e).d_reclen % 65536 = e.reclen := Nat.mod_eq_of_lt short
    congr 1
  refine ⟨_, written, change_spec wf small stands.block split (fun i h => ?_) laid (fun x hx => ?_) (by simp)⟩
  · simp only [copyIn]
    simp only [span_cons, span_nil] at h
    rw [if_neg (by omega)]
  · rw [mem_singleton.mp hx]
    exact ⟨goodE.positive, goodE.aligned, goodE.room⟩

lemma nodup_remove {l₁ l₂ : List (List UInt8 × Nat)} {x : List UInt8 × Nat}
    (distinct : ((l₁ ++ x :: l₂).map Prod.fst).Nodup) : ((l₁ ++ l₂).map Prod.fst).Nodup := by
  simp only [map_append] at distinct ⊢
  exact (nodup_cons.mp (nodup_middle.mp distinct)).2

lemma names_live (live : e.live = true) : names [e] = [(e.name, e.ino)] := by
  simp [names, live]

/-- The space of an entry goes to the one before it. -/
lemma dirremove_join (wf : WellFormed d) (small : k < d.count) {x : Entry}
    (stands : Stands d k (es ++ [x]) e fs t) (live : e.live = true) :
    ∃ b', (blkatoff d (t.ni_offset - (t.ni_offset - t.prevoff))).map (fun b =>
        d.bwrite (t.ni_offset - (t.ni_offset - t.prevoff)) (setU16 b
          (blkoff (t.ni_offset - (t.ni_offset - t.prevoff)) + 4)
          (d_reclen b (blkoff (t.ni_offset - (t.ni_offset - t.prevoff))) + e.reclen))) = some (d.with k b') ∧
      Replaced d (d.with k b') [(e.name, e.ino)] [] := by
  obtain ⟨b, here, _, laid, good, fills⟩ := wellFormed_block wf small
  have split : d.entries k = es ++ [x, e] ++ fs := by simpa using stands.split
  rw [split] at laid good fills
  have goodX := good x (by simp)
  have goodE := good e (by simp)
  have positive := goodX.positive
  simp only [span_append, span_cons, DIRBLKSIZ] at fills
  obtain ⟨isBlock, isOffset, nonneg⟩ := block_of_offset (by simp only [DIRBLKSIZ]; omega : span es < DIRBLKSIZ)
    (stands.previous es x rfl)
  have isPrevious : t.ni_offset - (t.ni_offset - t.prevoff) = t.prevoff := by omega
  have laidX : entryAt b (span es) = x := by
    have := ((laid_append es [x, e]).mp ((laid_append _ fs).mp laid).1).2.1
    simpa using this
  have reclen : d_reclen b (span es) = x.reclen := congrArg Entry.reclen laidX
  have laid' : Laid (setU16 b (span es + 4) (x.reclen + e.reclen)) (span es)
      [{ x with reclen := x.reclen + e.reclen }] := by
    refine ⟨?_, trivial⟩
    rw [entryAt_setReclen, laidX, Nat.mod_eq_of_lt (by omega)]
  have roomX := goodX.room
  have needs := (DIRSIZ_bounds x.name.length).1
  have elsewhere : ∀ i, i < span es ∨ span es + span [x, e] ≤ i →
      setU16 b (span es + 4) (x.reclen + e.reclen) i = b i := by
    intro i h
    simp only [setU16]
    simp only [span_cons, Entry.need] at h roomX
    rw [if_neg (by omega)]
  have goodBoth : ∀ y ∈ [{ x with reclen := x.reclen + e.reclen }], y.Good := by
    intro y hy
    have alignedX := goodX.aligned
    have alignedE := goodE.aligned
    rw [mem_singleton.mp hy]
    exact ⟨by simp only; omega, by simp only; omega, by simp only [Entry.need] at roomX ⊢; omega⟩
  obtain ⟨l₁, l₂, before, after, wf'⟩ := change_spec wf small here split elsewhere laid' goodBoth (by simp)
  refine ⟨_, by rw [isPrevious]; simp [blkatoff, nonneg, isBlock, here, isOffset, reclen, Dir.bwrite, Dir.with], l₁ ++ names [x], l₂, ?_, ?_, wf'⟩
  · have both : names [x, e] = names [x] ++ [(e.name, e.ino)] := by
      rw [← names_live live]
      exact names_append [x] [e]
    rw [before, both]
    simp
  · have same : names [{ x with reclen := x.reclen + e.reclen }] = names [x] := by
      by_cases h : x.live = true
      · have : ({ x with reclen := x.reclen + e.reclen } : Entry).live = true := h
        rw [names_live h, names_live this]
      · have : ¬ ({ x with reclen := x.reclen + e.reclen } : Entry).live = true := h
        simp [names, h, this]
    rw [after, same, append_nil]

/-- A name that is present is removed. -/
lemma exec_remove (wf : WellFormed d) (proper : Proper d (.remove call))
    (free : ¬ Barred d (.remove call)) :
    ∃ d', exec d (.remove call) = .done d' ∧ WellFormed d' ∧ Changed d (.remove call) d' := by
  obtain ⟨component, present⟩ := proper
  simp only [Barred] at free
  obtain ⟨k, es, e, fs, t, search, small, stands, live, isName⟩ :=
    (finds_once wf .DELETE call.name.length).present present
  obtain ⟨inside, isIno, isReclen⟩ := found_inside wf small stands
  obtain ⟨good, _, _, isOffset⟩ := found_block wf small stands
  have found : exec d (.remove call) =
      match dirremove d ⟨foundDent call.ndp.ni_dent call.name e, t.ni_offset,
        if blkoff t.ni_offset = 0 then 0 else t.ni_offset - t.prevoff, 0⟩ with
      | some d => .done d
      | none => .damaged := by
    unfold exec
    simp only [namei, reduceCtorEq, if_false, search, namei_found, free, inside, isIno,
      isReclen, foundDent]
  rw [found]
  rw [← isName] at component ⊢
  cases es using reverseRecOn with
  | nil =>
    -- the first entry of the block becomes free
    have start : blkoff t.ni_offset = 0 := isOffset
    have bound : 0 < 2 ^ 32 := by decide
    obtain ⟨b', written, l₁, l₂, before, after, wf'⟩ :=
      rdwri_ino wf small stands call.ndp.ni_dent bound
    have dead : names [{ e with ino := 0 }] = [] := by simp [names, Entry.live]
    rw [names_live live, append_assoc] at before
    rw [dead, append_nil] at after
    have removed : dirremove d ⟨foundDent call.ndp.ni_dent e.name e, t.ni_offset, 0, 0⟩ =
        some (d.with k b') := by
      rw [← written]
      rfl
    have distinct := wf.distinct
    rw [before] at distinct
    refine ⟨d.with k b', ?_, wf' (by rw [after]; exact nodup_remove distinct), l₁, l₂, e.ino, ?_, after⟩
    · simp only [start, if_true, removed]
    · simpa [isName] using before
  | append_singleton es x =>
    obtain ⟨b', written, l₁, l₂, before, after, wf'⟩ := dirremove_join wf small stands live
    rw [append_assoc] at before
    rw [append_nil] at after
    have goodX := good x (by simp)
    have positive := goodX.positive
    simp only [span_append, span_cons, span_nil] at isOffset
    have later : ¬ blkoff t.ni_offset = 0 := by omega
    have previous := stands.previous es x rfl
    have offset := stands.offset
    simp only [span_append, span_cons, span_nil] at offset
    have apart : ¬ t.ni_offset - t.prevoff = 0 := by omega
    have isLength : (foundDent call.ndp.ni_dent e.name e).d_reclen = e.reclen := rfl
    have distinct := wf.distinct
    rw [before] at distinct
    refine ⟨d.with k b', ?_, wf' (by rw [after]; exact nodup_remove distinct), l₁, l₂, e.ino, ?_, after⟩
    · simp only [later, if_false, dirremove, apart, isLength, written]
    · simpa [isName] using before

section

variable (wf : WellFormed d) {flag : Flag} {prevoffset : Option Int}
  (proper : Proper d (.rewrite call flag prevoffset ino))
include wf proper

lemma rewrite_found :
    ∃ k es e fs t, namei d flag call.lockparent call.denied call.ndp call.name prevoffset =
        namei_found d flag call.lockparent call.denied
          { call.ndp with ni_dent := call.ndp.ni_dent.component call.name, ni_endoff := 0 } t ∧
      k < d.count ∧ Stands d k es e fs t ∧ e.live = true ∧ e.name = call.name ∧
      (call.name, e.ino) ∈ d.live := by
  obtain ⟨_, _, present, boundary⟩ := proper
  obtain ⟨k, es, e, fs, t, search, small, stands, live, isName⟩ : ∃ k es e fs t,
      passes d call.name (Search.start flag call.name.length)
        (if flag = .LOOKUP then prevoffset else none) = .found t ∧ k < d.count ∧ Stands d k es e fs t ∧
      e.live = true ∧ e.name = call.name := by
    by_cases lookup : flag = .LOOKUP
    · subst lookup
      cases prevoffset with
      | none => exact (finds_once wf .LOOKUP call.name.length).present present
      | some p =>
        obtain ⟨nonneg, aligned⟩ := boundary p rfl
        exact (finds_twice wf call.name.length nonneg aligned).present present
    · simp only [lookup]
      exact (finds_once wf flag call.name.length).present present
  exact ⟨k, es, e, fs, t, by simp [namei, search], small, stands, live, isName,
    isName ▸ stands.listed small live⟩

/-- A name that is present gets a new inode. -/
lemma exec_rewrite (free : ¬ Barred d (.rewrite call flag prevoffset ino)) :
    ∃ d', exec d (.rewrite call flag prevoffset ino) = .done d' ∧ WellFormed d' ∧
      Changed d (.rewrite call flag prevoffset ino) d' := by
  obtain ⟨k, es, e, fs, t, searched, small, stands, live, isName, listed⟩ := rewrite_found wf proper
  obtain ⟨component, inumber, _⟩ := proper
  obtain ⟨inside, isIno, isReclen⟩ := found_inside wf small stands
  have found : ∃ count, exec d (.rewrite call flag prevoffset ino) =
      .done (dirrewrite d ⟨foundDent call.ndp.ni_dent call.name e, t.ni_offset, count, 0⟩ ino) := by
    unfold exec
    simp only [searched]
    cases flag with
    | LOOKUP =>
      exact ⟨call.ndp.ni_count, by
        simp [namei_found, inside, isIno, isReclen, foundDent]⟩
    | DELETE =>
      have granted : call.denied = false := by simpa [Barred] using free
      exact ⟨if blkoff t.ni_offset = 0 then 0 else t.ni_offset - t.prevoff, by
        simp [namei_found, granted, inside, isIno, isReclen, foundDent]⟩
    | CREATE =>
      by_cases lock : call.lockparent = true
      · have granted : call.denied = false := by
          by_contra h
          exact free (.inl ⟨rfl, lock, .inl (by simpa using h)⟩)
        have other : ¬ d.i_number = e.ino := by
          intro h
          exact free (.inl ⟨rfl, lock, .inr (h ▸ listed)⟩)
        exact ⟨call.ndp.ni_count, by
          simp [namei_found, lock, granted, inside, isIno, isReclen, other, foundDent]⟩
      · exact ⟨call.ndp.ni_count, by
          simp [namei_found, lock, inside, isIno, isReclen, foundDent]⟩
  obtain ⟨count, run⟩ := found
  rw [← isName] at component run
  obtain ⟨b', written, l₁, l₂, before, after, wf'⟩ :=
    rdwri_ino wf small stands call.ndp.ni_dent inumber.2
  have rewritten : dirrewrite d ⟨foundDent call.ndp.ni_dent e.name e, t.ni_offset, count, 0⟩ ino = d.with k b' := by
    rw [← written]
    rfl
  have alive : ({ e with ino } : Entry).live = true := by
    have := inumber.1
    simp only [Entry.live, ne_eq, decide_not, Bool.not_eq_true', decide_eq_false_iff_not]
    omega
  rw [names_live live] at before
  rw [names_live alive] at after
  have sameNames : (d.with k b').live.map Prod.fst = d.live.map Prod.fst := by
    rw [before, after]
    simp
  refine ⟨d.with k b', by rw [run, rewritten], wf' (sameNames ▸ wf.distinct), l₁, l₂, e.ino, ?_, ?_⟩
  · simpa [isName] using before
  · simpa [isName] using after

end

end Present

/-! ## All changes -/

section Runs

variable {d d' : Dir}

lemma fst_unique {l : List (List UInt8 × Nat)} (distinct : (l.map Prod.fst).Nodup) {name : List UInt8}
    {i j : Nat} (hi : (name, i) ∈ l) (hj : (name, j) ∈ l) : i = j := by
  have := inj_on_of_nodup_map distinct hi hj rfl
  exact congrArg Prod.snd this

/-- What is barred is refused, and nothing changes. -/
lemma exec_barred (wf : WellFormed d) {op : Op} (proper : Proper d op) (barred : Barred d op) :
    ∃ e, exec d op = .refused e := by
  unfold exec
  cases op with
  | enter call ino =>
    obtain ⟨t, search, _⟩ := search_absent wf proper.2.2
    by_cases gone : d.i_nlink = 0
    · exact ⟨.enoent, by simp [namei, search, namei_notfound, gone]⟩
    · have denied : call.denied = true := barred.resolve_right gone
      exact ⟨.denied, by simp [namei, search, namei_notfound, gone, denied]⟩
  | remove call =>
    have denied : call.denied = true := barred
    obtain ⟨k, es, e, fs, t, search, _⟩ := (finds_once wf .DELETE call.name.length).present proper.2
    exact ⟨.denied, by simp [namei, search, namei_found, denied]⟩
  | rewrite call flag prevoffset ino =>
    obtain ⟨k, es, e, fs, t, searched, small, stands, _, _, listed⟩ := rewrite_found wf proper
    obtain ⟨inside, isIno, _⟩ := found_inside wf small stands
    simp only [searched]
    rcases barred with ⟨rfl, lock, why⟩ | ⟨rfl, denied⟩
    · by_cases denied : call.denied = true
      · exact ⟨.denied, by simp [namei_found, lock, denied]⟩
      · have self := why.resolve_left denied
        have same := fst_unique wf.distinct self listed
        exact ⟨.eisdir, by simp [namei_found, lock, denied, inside, isIno, same]⟩
    · exact ⟨.denied, by simp [namei_found, denied]⟩

/-- Every change that is not refused is made. -/
lemma exec_spec (wf : WellFormed d) {op : Op} (proper : Proper d op) (grows : Grows d op) :
    (Barred d op ∧ ∃ e, exec d op = .refused e) ∨
      ∃ d', exec d op = .done d' ∧ WellFormed d' ∧ Changed d op d' := by
  by_cases barred : Barred d op
  · exact .inl ⟨barred, exec_barred wf proper barred⟩
  · right
    cases op with
    | enter call ino => exact exec_enter wf proper grows barred
    | remove call => exact exec_remove wf proper barred
    | rewrite call flag prevoffset ino => exact exec_rewrite wf proper barred

lemma dirStep_wellFormed (d : Dir) (op : Op) (d' : Dir) (wf : WellFormed d)
    (allowed : Proper d op ∧ Grows d op) (step : DirStep d op d') : WellFormed d' := by
  rcases exec_spec wf allowed.1 allowed.2 with ⟨_, e, refused⟩ | ⟨d'', done, wf', _⟩
  · rw [DirStep, refused] at step
    cases step
  · rw [DirStep, done] at step
    cases step
    exact wf'

/-- As long as the directory does not outgrow an `off_t`, it stays well formed, every
change is of the one name it is about, and no panic is reached. -/
theorem directory_changes {start : Dir} (ops : List Op) (wf : WellFormed start)
    (run : Run DirStep (fun d op => Proper d op ∧ Grows d op) start ops d) :
    WellFormed d ∧ ∀ op, Proper d op → Grows d op → (∀ p, exec d op ≠ .panic p) ∧
      (∀ d', exec d op = .done d' → WellFormed d' ∧ Changed d op d') ∧
      (¬ Barred d op → ∃ d', exec d op = .done d') := by
  have now := run_invariant WellFormed dirStep_wellFormed run wf
  refine ⟨now, fun op proper grows => ?_⟩
  rcases exec_spec now proper grows with ⟨barred, e, refused⟩ | ⟨d', done, wf', changed⟩
  · rw [refused]
    exact ⟨fun p h => (by cases h), fun d' h => (by cases h), fun h => absurd barred h⟩
  · rw [done]
    refine ⟨fun p h => (by cases h), fun d'' h => ?_, fun _ => ⟨d', rfl⟩⟩
    cases h
    exact ⟨wf', changed⟩

def emptyDir : Dir := ⟨2, 2, 0, fun _ => none⟩

def callFor (name : List UInt8) : Call := ⟨name, true, false, ⟨⟨0, 0, 0, fun _ => 0⟩, 0, 0, 0⟩⟩

lemma empty_wellFormed : WellFormed emptyDir :=
  ⟨by decide, by decide, by decide, fun k small => absurd small (by simp [Dir.count, emptyDir]), by decide⟩

theorem directory_changes_empty : ∃ d d', WellFormed emptyDir ∧
    Run DirStep (fun d op => Proper d op ∧ Grows d op) emptyDir [.enter (callFor [97]) 3] d ∧
    d.live = [([97], 3)] ∧ exec d (.remove (callFor [97])) = .done d' ∧
    WellFormed d' ∧ Changed d (.remove (callFor [97])) d' := by
  have run : Run DirStep (fun d op => Proper d op ∧ Grows d op) emptyDir [.enter (callFor [97]) 3] _ :=
    .cons ⟨⟨by decide, by decide, by simp [Dir.Has, Dir.live, Dir.count, emptyDir]⟩, by simp [Grows, emptyDir, DIRBLKSIZ]⟩
      rfl (.nil _)
  refine ⟨_, _, empty_wellFormed, run, rfl, rfl, ((directory_changes _ empty_wellFormed run).2 (.remove _) ⟨by decide, ?_⟩ trivial).2.1 _ rfl⟩
  exact mem_singleton.mpr rfl

end Runs

/-! ## Where the search starts -/

section Hints

/-- What a search that found its entry at `ni_offset` leaves in `nc_prevoffset`. -/
def hint (ni_offset : Nat) : Int := (ni_offset / DIRBLKSIZ * DIRBLKSIZ : Nat)

variable {d : Dir} {name : List UInt8} {j j' : Nat} {es es' fs fs' : List Entry} {e e' : Entry}
  {t t' : Search}

/-- A live name stands at one place only. -/
lemma stands_unique (wf : WellFormed d) (small : j < d.count) (small' : j' < d.count)
    (stands : Stands d j es e fs t) (stands' : Stands d j' es' e' fs' t')
    (found : e.live = true ∧ e.name = name) (found' : e'.live = true ∧ e'.name = name) :
    j = j' ∧ es = es' := by
  have distinct := wf.distinct
  rw [Dir.live, map_flatMap] at distinct
  obtain ⟨each, apart⟩ := nodup_flatMap.mp distinct
  have listed : name ∈ (names (d.entries j)).map Prod.fst :=
    mem_map.mpr ⟨_, mem_names.mpr ⟨e, by simp [stands.split], found.1, found.2, rfl⟩, rfl⟩
  have listed' : name ∈ (names (d.entries j')).map Prod.fst :=
    mem_map.mpr ⟨_, mem_names.mpr ⟨e', by simp [stands'.split], found'.1, found'.2, rfl⟩, rfl⟩
  have : Std.Symm (Function.onFun List.Disjoint fun k => (names (d.entries k)).map Prod.fst) :=
    ⟨fun _ _ disjoint => disjoint.symm⟩
  obtain rfl : j = j' := by
    by_contra different
    exact apart.forall (mem_range.mpr small) (mem_range.mpr small') different listed listed'
  have alone : ∀ x ∈ es ++ fs, ¬ (x.live = true ∧ x.name = name) := by
    rintro x inside hit
    have once := each j (mem_range.mpr small)
    rw [stands.split, ← singleton_append, names_append, names_append, names_live found.1, map_append,
      map_append, map_singleton, singleton_append, nodup_middle, nodup_cons, ← map_append,
      ← names_append, found.2] at once
    exact once.1 (mem_map.mpr ⟨_, mem_names.mpr ⟨x, inside, hit.1, hit.2, rfl⟩, rfl⟩)
  have same := (append_cons_inj_of_notMem (fun inside => alone e' (by simp [inside]) found')
    fun inside => alone e' (by simp [inside]) found').mp (stands.split.symm.trans stands'.split)
  exact ⟨rfl, same.1⟩

end Hints

/-! ## A directory of the largest size -/

section Full

/-- Seven letters for the number of a block. -/
def digit (k t : Nat) : UInt8 := UInt8.ofNat (97 + k / 8 ^ t % 8)

/-- Entry `j` of the fourteen long ones in block `k`. -/
def longDirect (k j : Nat) : Direct :=
  ⟨2, 72, 60, fun t => if t < 7 then digit k t else if t = 7 then UInt8.ofNat (97 + j)
    else if t < 60 then 120 else 0⟩

/-- The entry that fills block `k` up. -/
def shortDirect (k : Nat) : Direct := ⟨2, 16, 7, fun t => if t < 7 then digit k t else 0⟩

def fullBlock (k : Nat) : Block := fun i =>
  if i < 1008 then (longDirect k (i / 72)).byte (i % 72) else (shortDirect k).byte (i - 1008)

/-- A directory without any free space that cannot grow. -/
def fullDir : Dir := ⟨2, 2, 2 ^ 31 - 1024, fun k => some (fullBlock k)⟩

def Direct.entry (e : Direct) : Entry := ⟨e.d_ino, e.d_reclen, (List.range e.d_namlen).map e.d_name⟩

def fullEntries (k : Nat) : List Entry :=
  (List.range' 0 14).map (fun j => (longDirect k j).entry) ++ [(shortDirect k).entry]

variable {k : Nat}

lemma entryAt_of_bytes {b : Block} {e : Direct} (ino : e.d_ino < 2 ^ 32) (reclen : e.d_reclen < 65536)
    (namlen : e.d_namlen < 65536) (same : ∀ i, i < 8 + e.d_namlen → b (k + i) = e.byte i) :
    entryAt b k = e.entry := by
  have copy := entryAt_copyIn zeroBlock 0 e namlen le_rfl
  rw [Nat.mod_eq_of_lt ino, Nat.mod_eq_of_lt reclen] at copy
  have length : d_namlen (copyIn zeroBlock 0 e (8 + e.d_namlen)) 0 = e.d_namlen := by
    have := congrArg (fun x => x.name.length) copy
    simpa [entryAt, d_name_length] using this
  refine (entryAt_shift (fun i hi => ?_)).trans copy
  rw [length] at hi
  rw [same i hi]
  simp [copyIn, hi]

lemma longDirect_span (k : Nat) : span ((List.range' 0 14).map (fun j => (longDirect k j).entry)) = 1008 := by
  simp [span, Function.comp_def, Direct.entry, longDirect]

lemma fullEntries_laid (k : Nat) : Laid (fullBlock k) 0 (fullEntries k) := by
  have long : ∀ n a, a + n ≤ 14 →
      Laid (fullBlock k) (72 * a) ((range' a n).map (fun j => (longDirect k j).entry)) := by
    intro n
    induction n with
    | zero => exact fun _ _ => trivial
    | succ n ih =>
      intro a small
      refine ⟨entryAt_of_bytes (by simp [longDirect]) (by simp [longDirect]) (by simp [longDirect])
        (fun i hi => ?_), ih (a + 1) (by omega)⟩
      have isLength : (longDirect k a).d_namlen = 60 := rfl
      have row : (72 * a + i) / 72 = a := by omega
      have column : (72 * a + i) % 72 = i := by omega
      simp only [fullBlock, row, column]
      rw [if_pos (by omega)]
  have first := long 14 0 (by omega)
  rw [Nat.mul_zero] at first
  refine (laid_append _ _).mpr ⟨first, ?_⟩
  rw [longDirect_span]
  refine ⟨?_, trivial⟩
  refine entryAt_of_bytes (by simp [shortDirect]) (by simp [shortDirect]) (by simp [shortDirect])
    (fun i hi => ?_)
  have column : 0 + 1008 + i - 1008 = i := by omega
  simp only [fullBlock, column]
  rw [if_neg (by omega)]

lemma fullEntries_mem {e : Entry} (he : e ∈ fullEntries k) :
    e.Good ∧ e.free = 0 ∧ e.live = true ∧ (e.name.length = 60 ∨ e.name.length = 7) := by
  rcases mem_append.mp he with h | h
  · obtain ⟨j, _, rfl⟩ := mem_map.mp h
    refine ⟨⟨?_, ?_, ?_⟩, ?_, rfl, Or.inl ?_⟩ <;>
      simp [Direct.entry, longDirect, Entry.need, Entry.free, Entry.live, DIRSIZ]
  · rw [mem_singleton.mp h]
    refine ⟨⟨?_, ?_, ?_⟩, ?_, rfl, Or.inr ?_⟩ <;>
      simp [Direct.entry, shortDirect, Entry.need, Entry.free, Entry.live, DIRSIZ]

lemma fullDir_entries (k : Nat) : fullDir.entries k = fullEntries k ∧ Tiled (fullBlock k) := by
  obtain ⟨tiled, same⟩ := tiled_of_laid (fullEntries_laid k) (fun e he => (fullEntries_mem he).1)
    (by rw [fullEntries, span_append, longDirect_span]; simp [Direct.entry, shortDirect, DIRBLKSIZ])
  exact ⟨by simpa [Dir.entries, fullDir] using same, tiled⟩

lemma digit_inj {k' : Nat} (small : k < 8 ^ 7) (small' : k' < 8 ^ 7)
    (same : ∀ t, t < 7 → digit k t = digit k' t) : k = k' := by
  have digits : ∀ t, t < 7 → k / 8 ^ t % 8 = k' / 8 ^ t % 8 := by
    intro t ht
    have := congrArg UInt8.toNat (same t ht)
    simp only [digit, UInt8.toNat_ofNat'] at this
    omega
  have lowest : ∀ n ≤ 7, k % 8 ^ n = k' % 8 ^ n := by
    intro n le
    induction n with
    | zero => simp [Nat.mod_one]
    | succ n ih => rw [Nat.mod_pow_succ, Nat.mod_pow_succ, ih (by omega), digits n le]
  have := lowest 7 le_rfl
  rwa [Nat.mod_eq_of_lt small, Nat.mod_eq_of_lt small'] at this

/-- The first seven letters of a name tell the block. -/
lemma fullEntries_digits {e : Entry} (he : e ∈ fullEntries k) :
    ∀ t, t < 7 → e.name[t]? = some (digit k t) := by
  intro t ht
  rcases mem_append.mp he with h | h
  · obtain ⟨j, _, rfl⟩ := mem_map.mp h
    have : t < 60 := by omega
    simp [Direct.entry, longDirect, ht, this]
  · rw [mem_singleton.mp h]
    simp [Direct.entry, shortDirect, ht]

lemma fullEntries_distinct (k : Nat) : ((fullEntries k).map Entry.name).Nodup := by
  have long : ((range' 0 14).map (fun j => (longDirect k j).entry.name)).Nodup := by
    refine List.Nodup.map_on (fun i hi j hj same => ?_) nodup_range'
    have letter := map_inj_left.mp same 7 (show 7 ∈ List.range 60 by decide)
    have := congrArg UInt8.toNat letter
    simp only [mem_range'_1] at hi hj
    simp only [longDirect, Nat.lt_irrefl, if_false, if_true, UInt8.toNat_ofNat'] at this
    omega
  rw [fullEntries, map_append, map_map]
  refine List.Nodup.append long (by simp) (disjoint_left.mpr (fun name h₁ h₂ => ?_))
  obtain ⟨j, _, rfl⟩ := mem_map.mp h₁
  have := congrArg length (mem_singleton.mp h₂)
  simp [Direct.entry, longDirect, shortDirect] at this

lemma fullDir_count : fullDir.count = 2097151 := by decide

lemma fullDir_names (k : Nat) : (names (fullDir.entries k)).map Prod.fst = (fullEntries k).map Entry.name := by
  have all : (fullEntries k).filter Entry.live = fullEntries k :=
    filter_eq_self.mpr (fun e he => (fullEntries_mem he).2.2.1)
  simp [names, (fullDir_entries k).1, all, Function.comp_def]

lemma fullDir_wellFormed : WellFormed fullDir := by
  refine ⟨by decide, by decide, by decide, fun k _ => ⟨fullBlock k, rfl, (fullDir_entries k).2⟩, ?_⟩
  simp only [Dir.live, map_flatMap, fullDir_names]
  refine nodup_flatMap.mpr ⟨fun k _ => fullEntries_distinct k, ?_⟩
  refine List.Nodup.pairwise_of_forall_ne nodup_range (fun k hk k' hk' different => ?_)
  refine disjoint_left.mpr (fun name h₁ h₂ => different ?_)
  obtain ⟨e, he, isName⟩ := mem_map.mp h₁
  obtain ⟨e', he', isName'⟩ := mem_map.mp h₂
  rw [fullDir_count] at hk hk'
  have low := mem_range.mp hk
  have low' := mem_range.mp hk'
  refine digit_inj (by omega) (by omega) (fun t ht => ?_)
  have first := fullEntries_digits he t ht
  have second := fullEntries_digits he' t ht
  rw [isName] at first
  rw [isName', first] at second
  exact Option.some.inj second

def fullEnter : Op := .enter ⟨[97], false, false, ⟨⟨0, 0, 0, fun _ => 0⟩, 0, 0, 0⟩⟩ 3

lemma fullEnter_proper : Proper fullDir fullEnter := by
  refine ⟨by decide, by decide, fun has => ?_⟩
  obtain ⟨⟨name, ino⟩, listed, isName⟩ := mem_map.mp has
  obtain ⟨k, _, e, he, _, same, _⟩ := mem_live.mp listed
  rw [(fullDir_entries k).1] at he
  have lengths := (fullEntries_mem he).2.2.2
  have single : name.length = 1 := congrArg length isName
  rw [same] at lengths
  omega

/-- The directory has no slot. -/
lemma fullDir_full (offset : Option Int) (size : Int) (n : Nat) : ¬ Slot fullDir offset size (DIRSIZ n) := by
  rintro ⟨k, es, slot, fs, _, split, _, _, _, room⟩
  have none : freeSpace slot = 0 := by
    refine sum_eq_zero (fun x hx => ?_)
    obtain ⟨e, he, rfl⟩ := mem_map.mp hx
    refine (fullEntries_mem (k := k) ?_).2.1
    rw [← (fullDir_entries k).1, split]
    simp [he]
  have := (DIRSIZ_bounds n).1
  omega

/-- A new entry makes the size negative, and with that every name is gone. -/
theorem full_directory_overflows : WellFormed fullDir ∧ Proper fullDir fullEnter ∧
    ∃ d', exec fullDir fullEnter = .done d' ∧ d'.i_size = -(2 ^ 31 - 1024) ∧ ¬ WellFormed d' ∧
      ¬ Changed fullDir fullEnter d' := by
  have wf := fullDir_wellFormed
  refine ⟨wf, fullEnter_proper, ?_⟩
  obtain ⟨t, search, seeks, _, needed⟩ := search_absent wf fullEnter_proper.2.2
  have looking : t.slotstatus = .NONE := by
    by_contra h
    have := seeks.slot h
    rw [needed] at this
    exact fullDir_full _ _ _ this
  obtain ⟨d', done, size⟩ : ∃ d', exec fullDir fullEnter = .done d' ∧ d'.i_size = -(2 ^ 31 - 1024) := by
    refine ⟨_, exec_newBlock wf (by simp [Barred, fullDir]) search looking, ?_⟩
    rw [newBlock_size wf]
    decide
  have negative : d'.i_size < 0 := by omega
  refine ⟨d', done, size, fun wf' => absurd wf'.nonneg (by omega), ?_⟩
  rintro ⟨l₁, l₂, _, after⟩
  have none : d'.count = 0 := by
    simp only [Dir.count, DIRBLKSIZ]
    omega
  have := congrArg length after
  simp [Dir.live, none] at this

end Full

end Directory
