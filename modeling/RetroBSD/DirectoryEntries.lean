import RetroBSD.Directory

/-!
# Entries of a directory block

A block is read as a list of entries that lie one behind the other. Here it is
shown what the operations on bytes do to the list: trimming an entry, moving it
down, and the loop of `direnter` that makes room by both.
-/

namespace Directory

open Words List

/-- An entry of a directory block; it is free if its inode is zero. -/
structure Entry where
  ino : Nat
  reclen : Nat
  name : List UInt8
deriving DecidableEq, Repr

def entryAt (b : Block) (k : Nat) : Entry := ⟨d_ino b k, d_reclen b k, d_name b k⟩

namespace Entry

def need (e : Entry) : Nat := DIRSIZ e.name.length

structure Good (e : Entry) : Prop where
  positive : 0 < e.reclen
  aligned : e.reclen % 4 = 0
  room : e.need ≤ e.reclen

def live (e : Entry) : Bool := e.ino ≠ 0

/-- The space a new entry could take from this one. -/
def free (e : Entry) : Nat := if e.live then e.reclen - e.need else e.reclen

def trim (e : Entry) : Entry := { e with reclen := e.need }

end Entry

/-- The entries lie one behind the other from offset `k` on. -/
def Laid (b : Block) : Nat → List Entry → Prop
  | _, [] => True
  | k, e :: es => entryAt b k = e ∧ Laid b (k + e.reclen) es

def span (es : List Entry) : Nat := (es.map Entry.reclen).sum

def freeSpace (es : List Entry) : Nat := (es.map Entry.free).sum

def kept (es : List Entry) : List Entry := (es.filter Entry.live).map Entry.trim

/-! ## Bytes -/

section Bytes

variable {b b' : Block} {k s d : Nat}

lemma DIRSIZ_bounds (n : Nat) : 8 + n < DIRSIZ n ∧ DIRSIZ n ≤ 12 + n ∧ DIRSIZ n % 4 = 0 := by
  simp only [DIRSIZ]
  omega

lemma d_name_length (b : Block) (k : Nat) : (d_name b k).length = d_namlen b k := by
  simp [d_name]

lemma need_entryAt (b : Block) (k : Nat) : (entryAt b k).need = DIRSIZ (d_namlen b k) := by
  simp [Entry.need, entryAt, d_name_length]

/-- An entry is determined by its header and its name. -/
lemma entryAt_shift (same : ∀ i, i < 8 + d_namlen b s → b' (d + i) = b (s + i)) :
    entryAt b' d = entryAt b s := by
  have two : ∀ i, i + 1 < 8 → u16 b' (d + i) = u16 b (s + i) := by
    intro i hi
    have h₀ := same i (by omega)
    have h₁ := same (i + 1) (by omega)
    simp only [u16, add_assoc]
    rw [h₀, h₁]
  have namlen : d_namlen b' d = d_namlen b s := two 6 (by omega)
  have reclen : d_reclen b' d = d_reclen b s := two 4 (by omega)
  have ino : d_ino b' d = d_ino b s := by
    have low := two 0 (by omega)
    have high := two 2 (by omega)
    simp only [add_zero] at low
    simp [d_ino, u32, low, high]
  have name : d_name b' d = d_name b s := by
    simp only [d_name, namlen]
    refine map_congr_left (fun i hi => ?_)
    have small := mem_range.mp hi
    simpa only [add_assoc] using same _ (by omega)
  simp [entryAt, ino, reclen, name]

lemma entryAt_congr (same : ∀ i, k ≤ i → i < k + 8 + d_namlen b k → b' i = b i) :
    entryAt b' k = entryAt b k :=
  entryAt_shift (fun i hi => same _ (by omega) (by omega))

lemma byteOf_toNat (v i : Nat) : (byteOf v i).toNat = v / 256 ^ i % 256 := by
  simp [byteOf]

lemma u16_of_bytes {v : Nat} (low : b k = byteOf v 0) (high : b (k + 1) = byteOf v 1) :
    u16 b k = v % 65536 := by
  simp only [u16, low, high, byteOf_toNat, pow_one]
  omega

lemma entryAt_setReclen (b : Block) (k v : Nat) :
    entryAt (setU16 b (k + 4) v) k = { entryAt b k with reclen := v % 65536 } := by
  have elsewhere : ∀ i, ¬ (k + 4 ≤ i ∧ i < k + 4 + 2) → setU16 b (k + 4) v i = b i :=
    fun i h => by simp [setU16, h]
  have two : ∀ i, (i + 1 < 4 ∨ 6 ≤ i) → u16 (setU16 b (k + 4) v) (k + i) = u16 b (k + i) := by
    intro i hi
    simp [u16, elsewhere (k + i) (by omega), elsewhere (k + i + 1) (by omega)]
  have namlen : d_namlen (setU16 b (k + 4) v) k = d_namlen b k := two 6 (by omega)
  have ino : d_ino (setU16 b (k + 4) v) k = d_ino b k := by
    have low := two 0 (by omega)
    have high := two 2 (by omega)
    simp only [add_zero] at low
    simp [d_ino, u32, low, high]
  have reclen : d_reclen (setU16 b (k + 4) v) k = v % 65536 :=
    u16_of_bytes (by simp [setU16]) (by simp [setU16])
  have name : d_name (setU16 b (k + 4) v) k = d_name b k := by
    simp only [d_name, namlen]
    exact map_congr_left (fun i _ => elsewhere _ (by omega))
  simp [entryAt, ino, reclen, name]

lemma entryAt_copyIn (b : Block) (k : Nat) (e : Direct) {n : Nat} (small : e.d_namlen < 65536)
    (room : 8 + e.d_namlen ≤ n) : entryAt (copyIn b k e n) k =
      ⟨e.d_ino % 2 ^ 32, e.d_reclen % 65536, (List.range e.d_namlen).map e.d_name⟩ := by
  have here : ∀ i, i < n → copyIn b k e n (k + i) = e.byte i := by
    intro i hi
    simp only [copyIn]
    rw [if_pos (by omega), Nat.add_sub_cancel_left]
  have header : ∀ i, i < 8 → copyIn b k e n (k + i) = e.byte i := fun i hi => here i (by omega)
  have namlen : d_namlen (copyIn b k e n) k = e.d_namlen := by
    have := u16_of_bytes (header 6 (by omega)) (header 7 (by omega))
    simpa only [d_namlen, Nat.mod_eq_of_lt small] using this
  have reclen : d_reclen (copyIn b k e n) k = e.d_reclen % 65536 :=
    u16_of_bytes (header 4 (by omega)) (header 5 (by omega))
  have ino : d_ino (copyIn b k e n) k = e.d_ino % 2 ^ 32 := by
    have h₀ := header 0 (by omega)
    have h₁ := header 1 (by omega)
    have h₂ := header 2 (by omega)
    have h₃ := header 3 (by omega)
    simp only [add_zero] at h₀
    simp only [d_ino, u32, u16, h₀, h₁, h₂, h₃]
    simp only [Direct.byte, Nat.reduceLT, if_true, byteOf_toNat]
    omega
  have name : d_name (copyIn b k e n) k = (range e.d_namlen).map e.d_name := by
    simp only [d_name, namlen]
    refine map_congr_left (fun i hi => ?_)
    have small := mem_range.mp hi
    rw [add_assoc, here _ (by omega)]
    simp only [Direct.byte]
    rw [if_neg (by omega), if_neg (by omega), if_neg (by omega), Nat.add_sub_cancel_left]
  simp [entryAt, ino, reclen, name]

/-- Copying down is the same as copying at once. -/
lemma bcopy_down (n : Nat) (down : d ≤ s) (i : Nat) :
    bcopy b s d n i = if d ≤ i ∧ i < d + n then b (s + (i - d)) else b i := by
  induction n generalizing b s d with
  | zero =>
    rw [if_neg (by omega)]
    rfl
  | succ n ih =>
    rw [bcopy, ih (by omega)]
    by_cases first : i = d
    · rw [if_neg (by omega), if_pos (by omega), first, Function.update_self, Nat.sub_self, add_zero]
    · by_cases inside : d ≤ i ∧ i < d + (n + 1)
      · rw [if_pos (by omega), if_pos inside, Function.update_of_ne (by omega)]
        congr 1
        omega
      · rw [if_neg (by omega), if_neg inside, Function.update_of_ne first]

end Bytes

/-! ## Lists of entries -/

section Lists

variable {b b' : Block} {k : Nat} {e : Entry} {es : List Entry}

@[simp] lemma span_nil : span [] = 0 := rfl
@[simp] lemma span_cons (e : Entry) (es : List Entry) : span (e :: es) = e.reclen + span es := rfl
@[simp] lemma span_append (es fs : List Entry) : span (es ++ fs) = span es + span fs := by
  simp [span]
@[simp] lemma freeSpace_nil : freeSpace [] = 0 := rfl
@[simp] lemma freeSpace_cons (e : Entry) (es : List Entry) :
    freeSpace (e :: es) = e.free + freeSpace es := rfl
@[simp] lemma freeSpace_append (es fs : List Entry) :
    freeSpace (es ++ fs) = freeSpace es + freeSpace fs := by
  simp [freeSpace]
@[simp] lemma kept_nil : kept [] = [] := rfl
@[simp] lemma kept_append (es fs : List Entry) : kept (es ++ fs) = kept es ++ kept fs := by
  simp [kept]

lemma kept_cons (e : Entry) (es : List Entry) :
    kept (e :: es) = if e.live then e.trim :: kept es else kept es := by
  by_cases h : e.live = true <;> simp [kept, h]

lemma laid_append (es fs : List Entry) : Laid b k (es ++ fs) ↔ Laid b k es ∧ Laid b (k + span es) fs := by
  induction es generalizing k with
  | nil => simp [Laid]
  | cons e es ih => simp [Laid, ih, and_assoc, add_assoc]

lemma trim_good (e : Entry) : e.trim.Good := by
  obtain ⟨big, _, aligned⟩ := DIRSIZ_bounds e.name.length
  refine ⟨?_, aligned, le_rfl⟩
  simp only [Entry.trim, Entry.need]
  omega

lemma kept_good (es : List Entry) : ∀ e ∈ kept es, e.Good := by
  intro e he
  obtain ⟨x, _, rfl⟩ := mem_map.mp he
  exact trim_good x

/-- Entries do not look beyond the bytes they take. -/
lemma laid_congr (good : ∀ e ∈ es, e.Good) (same : ∀ i, k ≤ i → i < k + span es → b' i = b i)
    (laid : Laid b k es) : Laid b' k es := by
  induction es generalizing k with
  | nil => trivial
  | cons e es ih =>
    obtain ⟨here, rest⟩ := laid
    have room := (good e (by simp)).room
    have needs := (DIRSIZ_bounds (d_namlen b k)).1
    have length : e.need = DIRSIZ (d_namlen b k) := by rw [← here, need_entryAt]
    simp only [span_cons] at same
    constructor
    · rw [← here]
      exact entryAt_congr (fun i low high => same i low (by omega))
    · exact ih (fun x hx => good x (by simp [hx])) (fun i low high => same i (by omega) (by omega)) rest

lemma free_add (good : e.Good) : span (kept [e]) + e.free = e.reclen := by
  have room := good.room
  by_cases h : e.live = true
  · simp only [kept_cons, h, if_true, kept_nil, span_cons, span_nil, Entry.free, Entry.trim]
    omega
  · simp [kept_cons, h, Entry.free]

/-- What is not kept is free. -/
lemma kept_span (good : ∀ e ∈ es, e.Good) : span (kept es) + freeSpace es = span es := by
  induction es with
  | nil => rfl
  | cons e es ih =>
    have here := free_add (good e (by simp))
    have rest := ih (fun x hx => good x (by simp [hx]))
    have split : kept (e :: es) = kept [e] ++ kept es := kept_append [e] es
    rw [split, span_append, freeSpace_cons, span_cons]
    omega

lemma laid_reclen (laid : Laid b k (e :: es)) :
    d_ino b k = e.ino ∧ d_reclen b k = e.reclen ∧ d_name b k = e.name ∧ DIRSIZ (d_namlen b k) = e.need := by
  have here := laid.1
  have length := need_entryAt b k
  simp only [← here]
  exact ⟨rfl, rfl, rfl, length.symm⟩

end Lists

/-! ## Making room -/

/-- The state of the loop: the entries `es` are done and lie without free space,
`e` lies behind them with its length still to be set, and all space up to the
bytes not yet looked at is behind `e`. -/
structure Compacting (b : Block) (p : Nat) (es : List Entry) (e : Entry) (c : Compact) : Prop where
  laid : Laid c.blk p es
  good : ∀ x ∈ es, x.Good
  place : c.ep = p + span es
  ino : d_ino c.blk c.ep = e.ino
  name : d_name c.blk c.ep = e.name
  dsize : c.dsize = e.need
  nonneg : 0 ≤ c.loc
  fits : c.ep + c.dsize ≤ p + c.loc.toNat
  space : c.spacefree = p + c.loc - c.ep - c.dsize
  before : ∀ i, i < p → c.blk i = b i
  behind : ∀ i, p + c.loc.toNat ≤ i → c.blk i = b i

section Compacts

variable {b : Block} {p : Nat} {es rest : List Entry} {e f : Entry} {c : Compact}

lemma compacting_start (laid : Laid b p (e :: rest)) (good : e.Good) :
    Compacting b p [] e ⟨b, p, DIRSIZ (d_namlen b p), d_reclen b p - DIRSIZ (d_namlen b p), d_reclen b p⟩ := by
  obtain ⟨ino, reclen, name, need⟩ := laid_reclen laid
  have room := good.room
  refine ⟨trivial, by simp, by simp, ino, name, need, by simp, ?_, ?_, fun _ _ => rfl, fun _ _ => rfl⟩
  · simp only [Int.toNat_natCast]
    omega
  · simp only
    omega

/-- The state before the next entry is moved: `e` is done with. -/
lemma compacting_shed (state : Compacting b p es e c) (small : e.need < 65536) :
    ∃ blk, Laid blk p (es ++ kept [e]) ∧ (∀ i, i < p → blk i = b i) ∧
      (∀ i, p + c.loc.toNat ≤ i → blk i = b i) ∧
      p + span (es ++ kept [e]) ≤ p + c.loc.toNat ∧
      (if d_ino c.blk c.ep ≠ 0 then
          { c with blk := setU16 c.blk (c.ep + 4) c.dsize, ep := c.ep + c.dsize }
        else { c with spacefree := c.spacefree + c.dsize }) =
        { c with
          blk
          ep := p + span (es ++ kept [e])
          spacefree := p + c.loc - (p + span (es ++ kept [e]) : Nat) } := by
  have fits := state.fits
  have space := state.space
  have needs := (DIRSIZ_bounds e.name.length).1
  have dsize := state.dsize
  have place := state.place
  by_cases live : e.ino = 0
  · have dead : kept [e] = [] := by simp [kept_cons, Entry.live, live]
    refine ⟨c.blk, by simpa [dead] using state.laid, state.before, state.behind, ?_, ?_⟩
    · simp only [dead, append_nil]
      omega
    · simp only [dead, append_nil, state.ino, live, ne_eq, not_true, if_false, ← place]
      congr 1
      omega
  · have alive : kept [e] = [e.trim] := by simp [kept_cons, Entry.live, live]
    have reaches : p + span (es ++ [e.trim]) = c.ep + c.dsize := by
      simp only [span_append, span_cons, span_nil, Entry.trim, place, dsize]
      omega
    have elsewhere : ∀ i, ¬ (c.ep + 4 ≤ i ∧ i < c.ep + 4 + 2) → setU16 c.blk (c.ep + 4) c.dsize i = c.blk i :=
      fun i h => by simp [setU16, h]
    have narrow : c.dsize < 65536 := by omega
    have wide : 8 + e.name.length < c.dsize := by simpa only [dsize, Entry.need] using needs
    refine ⟨setU16 c.blk (c.ep + 4) c.dsize, ?_, fun i h => ?_, fun i h => ?_, ?_, ?_⟩
    · rw [alive, laid_append]
      constructor
      · exact laid_congr state.good (fun i low high => elsewhere i (by omega)) state.laid
      · refine ⟨?_, trivial⟩
        rw [← place, entryAt_setReclen, Nat.mod_eq_of_lt narrow]
        simp [entryAt, state.ino, state.name, dsize, Entry.trim]
    · rw [elsewhere i (by omega), state.before i h]
    · rw [elsewhere i (by omega), state.behind i h]
    · rw [alive, reaches]
      exact fits
    · rw [alive, reaches]
      simp only [state.ino, live, ne_eq, not_false_eq_true, if_true]
      congr 1
      omega

lemma compacting_round (state : Compacting b p es e c) (small : e.need < 65536)
    (laid : Laid b (p + c.loc.toNat) (f :: rest)) (good : f.Good) :
    Compacting b p (es ++ kept [e]) f (c.round p) ∧ (c.round p).loc = c.loc + f.reclen := by
  obtain ⟨blk, done, before, behind, reach, shed⟩ := compacting_shed state small
  have goodDone : ∀ x ∈ es ++ kept [e], x.Good := by
    intro x hx
    rcases mem_append.mp hx with h | h
    · exact state.good x h
    · exact kept_good [e] x h
  have room := good.room
  have nonneg := state.nonneg
  -- the next entry has not been touched
  have next : entryAt blk (p + c.loc.toNat) = f := by
    rw [← laid.1]
    exact entryAt_congr (fun i low _ => behind i low)
  have reclen : d_reclen blk (p + c.loc.toNat) = f.reclen := congrArg Entry.reclen next
  have need : DIRSIZ (d_namlen blk (p + c.loc.toNat)) = f.need := by rw [← need_entryAt, next]
  have round : c.round p =
      { blk := bcopy blk (p + c.loc.toNat) (p + span (es ++ kept [e])) f.need
        ep := p + span (es ++ kept [e])
        dsize := f.need
        spacefree := p + c.loc - (p + span (es ++ kept [e]) : Nat) + (f.reclen - f.need)
        loc := c.loc + f.reclen } := by
    simp [Compact.round, shed, reclen, need]
  have copied := fun i => bcopy_down (b := blk) f.need reach i
  have moved : entryAt (bcopy blk (p + c.loc.toNat) (p + span (es ++ kept [e])) f.need)
      (p + span (es ++ kept [e])) = f := by
    refine (entryAt_shift (fun i hi => ?_)).trans next
    have needs := (DIRSIZ_bounds (d_namlen blk (p + c.loc.toNat))).1
    rw [copied, if_pos (by omega), Nat.add_sub_cancel_left]
  have advance : (c.loc + f.reclen).toNat = c.loc.toNat + f.reclen := by omega
  rw [round]
  refine ⟨⟨?_, goodDone, rfl, congrArg Entry.ino moved, congrArg Entry.name moved, rfl, by simp only; omega,
    by simp only [advance]; omega, by simp only; omega, fun i h => ?_, fun i h => ?_⟩, rfl⟩
  · refine laid_congr goodDone (fun i low high => ?_) done
    simp only [copied]
    rw [if_neg (by omega)]
  · simp only [copied]
    rw [if_neg (by omega), before i h]
  · simp only [advance] at h
    simp only [copied]
    rw [if_neg (by omega), behind i (by omega)]

/-- The loop goes through the entries of the slot. -/
lemma compactloop_spec (fuel : Nat) (count : Int) (state : Compacting b p es e c)
    (good : ∀ x ∈ e :: rest, x.Good ∧ x.need < 65536) (laid : Laid b (p + c.loc.toNat) rest)
    (reach : c.loc + span rest = count) (enough : rest.length < fuel) :
    ∃ c' es' e', compactloop p count fuel c = some c' ∧ Compacting b p es' e' c' ∧ c'.loc = count ∧
      es' ++ kept [e'] = es ++ kept (e :: rest) ∧ e'.need < 65536 := by
  induction fuel generalizing es e c rest with
  | zero => omega
  | succ fuel ih =>
    cases rest with
    | nil =>
      have last : ¬ c.loc < count := by simp at reach; omega
      simp only [compactloop, last]
      exact ⟨c, es, e, rfl, state, by simpa using reach, rfl, (good e (by simp)).2⟩
    | cons f rest =>
      have goodF := good f (by simp)
      obtain ⟨next, advance⟩ := compacting_round state (good e (by simp)).2 laid goodF.1
      have nonneg := state.nonneg
      have positive := goodF.1.positive
      have more : c.loc < count := by simp only [span_cons] at reach; omega
      have laidRest : Laid b (p + (c.round p).loc.toNat) rest := by
        have := laid.2
        rw [advance]
        have same : p + (c.loc + f.reclen).toNat = p + c.loc.toNat + f.reclen := by omega
        rwa [same]
      obtain ⟨c', es', e', loop, state', done, list, small⟩ := ih next
        (fun x hx => good x (by simp only [mem_cons] at hx ⊢; tauto)) laidRest
        (by rw [advance]; simp only [span_cons] at reach; omega) (by simp at enough; omega)
      refine ⟨c', es', e', by simp [compactloop, more, loop], state', done, ?_, small⟩
      have split : kept (e :: f :: rest) = kept [e] ++ kept (f :: rest) := kept_append [e] (f :: rest)
      rw [list, split, append_assoc]

/-- The name that `namei` left in `ni_dent`. -/
lemma component_name (old : Direct) (name : List UInt8) :
    (List.range (old.component name).d_namlen).map (old.component name).d_name = name := by
  refine ext_getElem (by simp [Direct.component]) (fun i h _ => ?_)
  have small : i < name.length := by simpa [Direct.component] using h
  simp [Direct.component, small]

/-- The new entry takes all space that the entries of the slot leave. -/
lemma finish_spec (state : Compacting b p es e c) (small : e.need < 65536) (bound : c.loc < 65536)
    (dent : Direct) (ino : dent.d_ino < 2 ^ 32)
    (room : (DIRSIZ dent.d_namlen : Int) ≤ c.loc - span (es ++ kept [e])) :
    ∃ b', c.finish dent = .ok b' ∧
      Laid b' p (es ++ kept [e] ++ [⟨dent.d_ino, (c.loc - span (es ++ kept [e])).toNat,
        (List.range dent.d_namlen).map dent.d_name⟩]) ∧
      (∀ i, i < p ∨ p + c.loc.toNat ≤ i → b' i = b i) := by
  obtain ⟨blk, done, before, behind, -, shed⟩ := compacting_shed state small
  have sizes := DIRSIZ_bounds dent.d_namlen
  have goodDone : ∀ x ∈ es ++ kept [e], x.Good := by
    intro x hx
    rcases mem_append.mp hx with h | h
    · exact state.good x h
    · exact kept_good [e] x h
  have finish : c.finish dent = .ok (copyIn blk (p + span (es ++ kept [e]))
      { dent with d_reclen := (c.loc - span (es ++ kept [e])).toNat } (DIRSIZ dent.d_namlen)) := by
    by_cases dead : d_ino c.blk c.ep = 0
    · simp only [dead, ne_eq, not_true, if_false, Compact.mk.injEq] at shed
      obtain ⟨isBlk, isEp, _, isSpace, _⟩ := shed
      have fits : ¬ c.spacefree + c.dsize < (DIRSIZ dent.d_namlen : Int) := by omega
      have length : c.spacefree + c.dsize = c.loc - span (es ++ kept [e]) := by omega
      simp only [Compact.finish, dead, if_true, fits, if_false]
      rw [length, isBlk, isEp]
    · simp only [dead, ne_eq, not_false_eq_true, if_true, Compact.mk.injEq] at shed
      obtain ⟨isBlk, isEp, _, isSpace, _⟩ := shed
      have fits : ¬ c.spacefree < (DIRSIZ dent.d_namlen : Int) := by omega
      have length : c.spacefree = c.loc - span (es ++ kept [e]) := by omega
      simp only [Compact.finish, dead, fits, if_false]
      rw [length, isBlk, isEp]
  have elsewhere : ∀ i, i < p + span (es ++ kept [e]) ∨
      p + span (es ++ kept [e]) + DIRSIZ dent.d_namlen ≤ i →
      copyIn blk (p + span (es ++ kept [e]))
        { dent with d_reclen := (c.loc - span (es ++ kept [e])).toNat } (DIRSIZ dent.d_namlen) i = blk i := by
    intro i h
    simp only [copyIn]
    rw [if_neg (by omega)]
  refine ⟨_, finish, (laid_append _ _).mpr ⟨?_, ?_, trivial⟩, fun i h => ?_⟩
  · exact laid_congr goodDone (fun i low high => elsewhere i (by omega)) done
  · rw [entryAt_copyIn _ _ _ (by simp only; omega) (by simp only; omega)]
    simp only [Nat.mod_eq_of_lt ino]
    congr 1
    omega
  · rw [elsewhere i (by omega)]
    rcases h with low | high
    · exact before i low
    · exact behind i high

/-- The loop and what follows it: the entries of the slot move together, the new one
takes the rest, and no panic is reached if there is room. -/
lemma compact_spec {slot : List Entry} {k : Nat} (first : slot ≠ []) (laid : Laid b p slot)
    (good : ∀ x ∈ slot, x.Good) (short : span slot < 65536) (dent : Direct)
    (ino : dent.d_ino < 2 ^ 32) (room : DIRSIZ dent.d_namlen ≤ freeSpace slot) (enough : slot.length ≤ k) :
    ∃ c b', compactloop p (span slot) k
        ⟨b, p, DIRSIZ (d_namlen b p), d_reclen b p - DIRSIZ (d_namlen b p), d_reclen b p⟩ = some c ∧
      c.finish dent = .ok b' ∧
      Laid b' p (kept slot ++ [⟨dent.d_ino, freeSpace slot, (List.range dent.d_namlen).map dent.d_name⟩]) ∧
      (∀ i, i < p ∨ p + span slot ≤ i → b' i = b i) := by
  obtain ⟨e, rest, rfl⟩ := exists_cons_of_ne_nil first
  have start := compacting_start laid (good e (by simp))
  have reclen := (laid_reclen laid).2.1
  have spans := kept_span good
  have narrow : ∀ x ∈ e :: rest, x.Good ∧ x.need < 65536 := by
    intro x hx
    have le : x.reclen ≤ span (e :: rest) := single_le_sum (by simp) _ (mem_map_of_mem hx)
    have := (good x hx).room
    exact ⟨good x hx, by omega⟩
  obtain ⟨c, es', e', loop, state, done, list, small⟩ := compactloop_spec k (span (e :: rest)) start narrow
    (by simpa [reclen] using laid.2) (by simp only [span_cons]; omega) (by simpa using enough)
  have kepts : es' ++ kept [e'] = kept (e :: rest) := by simpa using list
  have left : (c.loc - (span (kept (e :: rest)) : Int)).toNat = freeSpace (e :: rest) := by omega
  obtain ⟨b', finish, laid', same⟩ := finish_spec state small (by omega) dent ino
    (by rw [kepts]; omega)
  rw [kepts, left] at laid'
  rw [done] at same
  exact ⟨c, b', loop, finish, laid', same⟩

end Compacts

end Directory
