import RetroBSD.ClistWalks

/-!
# Character lists as queues

All lists together share out the pool with the free list. Every operation is
described on the sequences that the lists denote, and every call returns, except
`catq` of a list that is not empty with itself, which never ends.
-/

namespace Clists

open BlockChains Runs List
open Function (update update_of_ne update_self update_eq_self update_idem)

variable {Q : Type} [DecidableEq Q]

/-- The lists and the free list share out the pool; each list denotes a sequence. -/
structure Rep (pool : List ℕ) (s : State Q) (own : Option Q → List ℕ) (off : Q → ℕ)
    (v : Q → List Byte) : Prop where
  parted : Parted pool own
  positive : ∀ x ∈ pool, 0 < x
  free : Free s (own none)
  holds : ∀ q, Holds s (s.clist q) (own (some q)) (off q) (v q)

variable {pool : List ℕ} {s t : State Q} {own : Option Q → List ℕ} {off : Q → ℕ} {v : Q → List Byte}

omit [DecidableEq Q] in
lemma Holds.congr {c : Clist} {bs : List ℕ} {o : ℕ} {bytes : List Byte}
    (holds : Holds s c bs o bytes) (links : ∀ x ∈ bs, t.c_next x = s.c_next x)
    (memory : ∀ a, a / CBLOCK ∈ bs → t.c_info a = s.c_info a) : Holds t c bs o bytes := by
  rcases holds with empty | ⟨window, some, strict, denotes⟩
  · exact .inl empty
  · exact .inr ⟨window.congr links, some, strict, denotes.trans (contents_congr memory).symm⟩

omit [DecidableEq Q] in
lemma Rep.local (rep : Rep pool s own off v) (q : Q) :
    Local s (s.clist q) (own none) (own (some q)) (off q) (v q) where
  distinct := rep.parted.append_nodup (by simp)
  positive x member := by
    apply rep.positive
    rw [rep.parted.cover]
    exact (mem_append.mp member).elim (⟨none, ·⟩) (⟨some q, ·⟩)
  free := rep.free
  holds := rep.holds q

omit [DecidableEq Q] in
lemma Rep.empty_iff (rep : Rep pool s own off v) {q : Q} : (s.clist q).c_cc = 0 ↔ v q = [] := by
  rw [← (rep.local q).length_bytes, length_eq_zero_iff]

omit [DecidableEq Q] in
lemma Rep.bytes (rep : Rep pool s own off v) : s.bytes = v :=
  funext fun q => (rep.local q).chars

def give (own : Option Q → List ℕ) (q : Q) (fs bs : List ℕ) : Option Q → List ℕ :=
  update (update own none fs) (some q) bs

/-- What holds of one list and the free list holds of all lists. -/
lemma Rep.next (rep : Rep pool s own off v) {q : Q} {o : ℕ} {bytes : List Byte} {fs bs : List ℕ}
    (outcome : Outcome s t q (own none) (own (some q)) (t.clist q) o bytes fs bs) :
    Rep pool t (give own q fs bs) (update off q o) (update v q bytes) := by
  have frees : give own q fs bs none = fs := by simp [give]
  have blocks : give own q fs bs (some q) = bs := by simp [give]
  have others p (other : p ≠ q) : give own q fs bs (some p) = own (some p) := by simp [give, other]
  constructor
  · apply rep.parted.exchange (show none ≠ some q by simp)
    · rw [blocks]
      exact outcome.perm
    · rintro (_ | p) first second
      · exact absurd rfl first
      · exact others p fun same => second (same ▸ rfl)
  · exact rep.positive
  · exact outcome.after.free
  · intro p
    by_cases same : p = q
    · subst same
      rw [blocks, update_self, update_self]
      exact outcome.after.holds
    · have away x (member : x ∈ own (some p)) : x ∉ own none ++ own (some q) := by
        intro shared
        rcases mem_append.mp shared with free | taken
        · cases rep.parted.apart _ _ x member free
        · exact same (Option.some.inj (rep.parted.apart _ _ x member taken))
      rw [others p same, update_of_ne same, update_of_ne same, outcome.confined.others p same]
      exact (rep.holds p).congr (fun x member => outcome.confined.links x (away x member))
        fun a member => outcome.confined.memory a (away _ member)

section Operations

variable {q : Q} {fs bs : List ℕ} {o : ℕ} {bytes : List Byte}

section

variable (h : Local s (s.clist q) fs bs o bytes)
include h

/-- `getc`, `q_to_b` and `ndflush` write null pointers to a list they find empty. -/
lemma Local.clear (empty : (s.clist q).c_cc = 0) : bytes = [] ∧ s.set q .null = s := by
  obtain ⟨_, rfl, null⟩ := h.of_empty empty
  refine ⟨rfl, ?_⟩
  rw [State.set, ← null, update_eq_self]

lemma Local.getc : (s.getc q).2 = bytes.head?.elim (-1) (BitVec.setWidth 32) ∧
    ∃ fs' bs' o', Outcome s (s.getc q).1 q fs bs ((s.getc q).1.clist q) o' bytes.tail fs' bs' := by
  by_cases empty : (s.clist q).c_cc = 0
  · obtain ⟨rfl, same⟩ := h.clear empty
    simp only [State.getc, if_pos empty, same]
    exact ⟨rfl, fs, bs, o, Outcome.refl h q⟩
  · have some := Nat.pos_of_ne_zero empty
    obtain ⟨window, _, denotes⟩ := h.nonempty some
    obtain ⟨b, rest, rfl, head⟩ := window.first
    have low := window.low
    obtain ⟨fs', bs', o', outcome, _⟩ := h.advance Nat.one_pos some (Nat.succ_le_of_lt low)
    simp only [State.getc, if_neg empty]
    rw [drop_one] at outcome
    refine ⟨?_, fs', bs', o', outcome⟩
    rw [denotes, ← Nat.sub_add_cancel some, contents_succ low, ← head]
    rfl

lemma Local.q_to_b (cc : ℤ) : (s.q_to_b q cc).2 = bytes.take cc.toNat ∧
    ∃ fs' bs' o', Outcome s (s.q_to_b q cc).1 q fs bs ((s.q_to_b q cc).1.clist q) o'
        (bytes.drop cc.toNat) fs' bs' ∧
      (cc.toNat < (s.clist q).c_cc → o' = (o + cc.toNat) % CBSIZE) := by
  by_cases nothing : cc ≤ 0
  · simp only [State.q_to_b, if_pos nothing, Int.toNat_of_nonpos nothing]
    refine ⟨rfl, fs, bs, o, Outcome.refl h q, fun some => ?_⟩
    exact (Nat.mod_eq_of_lt (h.nonempty some).1.low).symm
  by_cases empty : (s.clist q).c_cc = 0
  · obtain ⟨rfl, same⟩ := h.clear empty
    simp only [State.q_to_b, if_neg nothing, if_pos empty, same, take_nil, drop_nil]
    exact ⟨trivial, fs, bs, o, Outcome.refl h q, fun some => by omega⟩
  · simp only [State.q_to_b, if_neg nothing, if_neg empty]
    exact h.takeLoop cc.toNat cc.toNat (Nat.pos_of_ne_zero empty) le_rfl

lemma Local.ndflush (cc : ℤ) :
    ∃ fs' bs' o', Outcome s (s.ndflush q cc) q fs bs ((s.ndflush q cc).clist q) o'
      (bytes.drop cc.toNat) fs' bs' := by
  by_cases empty : (s.clist q).c_cc = 0
  · obtain ⟨rfl, _⟩ := h.clear empty
    simp only [State.ndflush, if_pos empty, drop_nil]
    exact ⟨fs, bs, o, Outcome.refl h q⟩
  · obtain ⟨fs', bs', o', c', outcome, count, same⟩ :=
      h.flushLoop cc.toNat cc.toNat ⟨rfl, fun _ => rfl⟩ le_rfl
    simp only [State.ndflush]
    split_ifs with all
    · obtain ⟨_, _, null⟩ := outcome.after.of_empty (by omega)
      refine ⟨fs', bs', o', outcome.toMoved.set _, ?_⟩
      simpa only [State.set, update_self, null] using outcome.after.set q .null
    · rw [same (by omega)] at outcome
      exact ⟨fs', bs', o', outcome⟩

end

omit [DecidableEq Q] in
/-- Four blocks' worth of characters free as many blocks as they need elsewhere. -/
lemma Outcome.freed {t : State Q} {fs' bs' : List ℕ} {o' : ℕ} {c : Clist}
    (h : Local s (s.clist q) fs bs o bytes) (some : 0 < (s.clist q).c_cc)
    (outcome : Outcome s t q fs bs c o' (bytes.drop (CBSIZE * 4)) fs' bs')
    (offset : CBSIZE * 4 < (s.clist q).c_cc → o' = (o + CBSIZE * 4) % CBSIZE) :
    (bytes.take (CBSIZE * 4)).length + CBSIZE * fs.length ≤ CBSIZE * fs'.length := by
  obtain ⟨window, -, _⟩ := h.nonempty some
  have fits := window.fits
  have low := window.low
  have total := h.length_bytes
  have blocks := outcome.perm.length_eq
  have count := outcome.after.length_bytes
  rw [length_append, length_append] at blocks
  rw [length_drop] at count
  rw [length_take]
  by_cases all : (s.clist q).c_cc ≤ CBSIZE * 4
  · rw [(outcome.after.of_empty (by omega)).1, length_nil] at blocks
    simp only [CBSIZE] at *
    omega
  · have tight := (outcome.after.nonempty (by omega)).2.1
    simp only [CBSIZE] at *
    omega

end Operations

section Joining

variable {source target : Q}

lemma Rep.taken (rep : Rep pool s own off v) (begun : v source ≠ []) :
    ∃ fs bs o, (s.q_to_b source (CBSIZE * 4)).2 = (v source).take (CBSIZE * 4) ∧
      Rep pool (s.q_to_b source (CBSIZE * 4)).1 (give own source fs bs) (update off source o)
        (update v source ((v source).drop (CBSIZE * 4))) ∧
      ((v source).take (CBSIZE * 4)).length + CBSIZE * (own none).length ≤ CBSIZE * fs.length := by
  have size : ((CBSIZE : ℤ) * 4).toNat = CBSIZE * 4 := rfl
  obtain ⟨data, fs, bs, o, taken, offset⟩ := (rep.local source).q_to_b _
  have some_left := Nat.pos_of_ne_zero fun empty => begun (rep.empty_iff.mp empty)
  exact ⟨fs, bs, o, data, rep.next taken, taken.freed (rep.local source) some_left offset⟩

/-- A round of `catq` loses no character: the blocks freed at the source are enough
for the target. -/
lemma Rep.catRound (rep : Rep pool s own off v) (different : source ≠ target)
    (some_left : v source ≠ []) (begun : v target ≠ []) :
    ∃ own' off', Rep pool ((s.q_to_b source (CBSIZE * 4)).1.b_to_q
        (s.q_to_b source (CBSIZE * 4)).2 target).1 own' off'
      (update (update v source ((v source).drop (CBSIZE * 4))) target
        (v target ++ (v source).take (CBSIZE * 4))) := by
  obtain ⟨fs, bs, o, data, middle, room⟩ := rep.taken some_left
  have joined := (middle.local target).b_to_q ((v source).take (CBSIZE * 4))
  have other : v target = update v source ((v source).drop (CBSIZE * 4)) target :=
    (update_of_ne different.symm _ _).symm
  rw [← other] at joined
  obtain ⟨fs', bs', o', k, bound, _, outcome, full, same⟩ := joined
  -- were a character left over, all blocks would be full, and there were more
  have all : k = ((v source).take (CBSIZE * 4)).length := by
    by_contra short
    obtain ⟨none_left, total⟩ := full (by omega)
    have blocks := outcome.perm.length_eq
    have some_there := Nat.pos_of_ne_zero fun empty => begun (other.trans (middle.empty_iff.mp empty))
    have fits := ((middle.local target).nonempty some_there).1.fits
    rw [same begun] at total
    rw [none_left] at blocks
    simp only [length_append, length_nil] at blocks
    simp only [give, update_self, update_of_ne (show none ≠ some source by simp)] at *
    simp only [CBSIZE] at *
    omega
  rw [data]
  rw [all, take_length] at outcome
  have final := middle.next outcome
  exact ⟨_, _, final⟩

def joined (v : Q → List Byte) (source target : Q) : Q → List Byte :=
  update (update v source []) target (v target ++ v source)

lemma joined_of_empty (empty : v source = []) : joined v source target = v := by
  rw [joined, empty, append_nil, ← empty, update_eq_self, update_eq_self]

lemma joined_round (different : source ≠ target) (n : ℕ) :
    joined (update (update v source ((v source).drop n)) target
      (v target ++ (v source).take n)) source target = joined v source target := by
  funext q
  by_cases first : q = target
  · simp [joined, first, different]
  · by_cases second : q = source <;> simp [joined, first, second, different]

lemma Rep.catLoop (fuel : ℕ) (rep : Rep pool s own off v) (different : source ≠ target)
    (begun : v target ≠ []) (enough : (v source).length ≤ fuel) :
    ∃ t own' off', State.catLoop source target fuel s = some t ∧
      Rep pool t own' off' (joined v source target) := by
  have count := (rep.local source).length_bytes
  induction fuel generalizing s own off v with
  | zero =>
    have empty : v source = [] := length_eq_zero_iff.mp (by omega)
    rw [State.catLoop, if_pos (rep.empty_iff.mpr empty), joined_of_empty empty]
    exact ⟨s, own, off, rfl, rep⟩
  | succ fuel ih =>
    by_cases done : (s.clist source).c_cc = 0
    · rw [State.catLoop, if_pos done, joined_of_empty (rep.empty_iff.mp done)]
      exact ⟨s, own, off, rfl, rep⟩
    · obtain ⟨own', off', round⟩ := rep.catRound different
        (fun empty => done (rep.empty_iff.mpr empty)) begun
      have shorter : ((v source).drop (CBSIZE * 4)).length ≤ fuel := by
        rw [length_drop]
        simp only [CBSIZE]
        omega
      obtain ⟨t, own'', off'', result, final⟩ := ih round
        (by simp [begun]) (by simpa [different] using shorter) (round.local source).length_bytes
      rw [joined_round different] at final
      rw [State.catLoop, if_neg done]
      exact ⟨t, own'', off'', result, final⟩

/-- The blocks of a list change hands with its pointers. -/
lemma Rep.handOver (rep : Rep pool s own off v) (different : source ≠ target)
    (empty : v target = []) :
    ∃ own' off', Rep pool ((s.set target (s.clist source)).set source .null) own' off'
      (joined v source target) := by
  have blocks := ((rep.local target).of_empty (rep.empty_iff.mpr empty)).1
  refine ⟨update (update own (some source) []) (some target) (own (some source)),
    update off target (off source), ?_⟩
  have keys : (some source : Option Q) ≠ some target := fun same => different (Option.some.inj same)
  constructor
  · apply rep.parted.exchange keys
    · simp [keys, blocks]
    · intro j first second
      simp [first, second]
  · exact rep.positive
  · simpa using (rep.free.set target (s.clist source)).set source .null
  · intro q
    have unchanged p : Holds ((s.set target (s.clist source)).set source .null) (s.clist p)
        (own (some p)) (off p) (v p) := (rep.holds p).congr (fun _ _ => rfl) fun _ _ => rfl
    by_cases first : q = target
    · subst first
      simpa [joined, empty, different.symm, State.set] using unchanged source
    by_cases second : q = source
    · subst second
      simp [joined, first, State.set, Holds]
    · simpa [joined, first, second, State.set] using unchanged q

end Joining

/-! ### Runs -/

inductive Label (Q : Type) where
  | getc (q : Q)
  | q_to_b (q : Q) (cc : ℤ)
  | ndqb (q : Q)
  | ndflush (q : Q) (cc : ℤ)
  | putc (c : Byte) (q : Q)
  | b_to_q (data : List Byte) (q : Q)
  /-- A walk with `nextc` from the first character. -/
  | walk (q : Q)
  | unputc (q : Q)
  | catq (source target : Q)

inductive Answer where
  | char (c : BitVec 32)
  | bytes (l : List Byte)
  | number (n : ℤ)
  | nothing

/-- One call, if it returns. The answer of `ndqb` is the characters it counts. -/
def exec (s : State Q) : Label Q → Option (State Q × Answer)
  | .getc q => some ((s.getc q).1, .char (s.getc q).2)
  | .q_to_b q cc => some ((s.q_to_b q cc).1, .bytes (s.q_to_b q cc).2)
  | .ndqb q => some (s, .bytes (s.fetch (s.clist q).c_cf (s.ndqb q)))
  | .ndflush q cc => some (s.ndflush q cc, .nothing)
  | .putc c q => some ((s.putc c q).1, .number (s.putc c q).2)
  | .b_to_q data q => some ((s.b_to_q data q).1, .number (s.b_to_q data q).2)
  | .walk q => (s.walk q (s.clist q).c_cc (s.clist q).c_cf).map fun l => (s, .bytes l)
  | .unputc q => some ((s.unputc q).1, .char (s.unputc q).2)
  | .catq source target => (s.catq source target).map fun t => (t, .nothing)

def Step (s : State Q) (a : Label Q) (t : State Q) : Prop := ∃ answer, exec s a = some (t, answer)

/-- What a call does to the sequences `v` that the lists denote, and what it answers;
`exhausted` says that the free list is empty after the call. -/
def Queues (v v' : Q → List Byte) (answer : Answer) (exhausted : Prop) : Label Q → Prop
  | .getc q => answer = .char ((v q).head?.elim (-1) (BitVec.setWidth 32)) ∧
      v' = update v q (v q).tail
  | .q_to_b q cc => answer = .bytes ((v q).take cc.toNat) ∧
      v' = update v q ((v q).drop cc.toNat)
  | .ndqb q => (∃ n ≤ (v q).length, answer = .bytes ((v q).take n) ∧ (v q ≠ [] → 0 < n)) ∧ v' = v
  | .ndflush q cc => v' = update v q ((v q).drop cc.toNat)
  | .putc c q => answer = .number 0 ∧ v' = update v q (v q ++ [c]) ∨
      answer = .number (-1) ∧ v' = v ∧ exhausted
  | .b_to_q data q => ∃ k ≤ data.length, answer = .number (data.length - k : ℕ) ∧
      v' = update v q (v q ++ data.take k) ∧ (k < data.length → exhausted)
  | .walk q => answer = .bytes (v q) ∧ v' = v
  | .unputc q => answer = .char ((v q).getLast?.elim (-1) (BitVec.signExtend 32)) ∧
      v' = update v q (v q).dropLast
  | .catq source target => v' = joined v source target

/-- The pool is shared out, and every list denotes a sequence. -/
def Sound (pool : List ℕ) (s : State Q) : Prop := ∃ own off v, Rep pool s own off v

/-- The call returns; the lists are queues before and after it. -/
def Returns (pool : List ℕ) (s : State Q) (v : Q → List Byte) (a : Label Q) : Prop :=
  ∃ t answer own' off' v', exec s a = some (t, answer) ∧ Rep pool t own' off' v' ∧
    Queues v v' answer (t.cfreelist = 0) a

section

variable (rep : Rep pool s own off v)
include rep

lemma Rep.putc_returns (c : Byte) (q : Q) : Returns pool s v (.putc c q) := by
  rcases (rep.local q).putc c with ⟨answer, fs, bs, o, outcome⟩ | ⟨answer, same, frees⟩
  · refine ⟨_, _, _, _, _, rfl, rep.next outcome, .inl ⟨?_, rfl⟩⟩
    rw [answer]
  · refine ⟨s, .number (-1), own, off, v, ?_, rep, .inr ⟨rfl, rfl, ?_⟩⟩
    · rw [exec, answer, same]
    · rw [rep.free.head, frees]
      rfl

lemma Rep.b_to_q_returns (data : List Byte) (q : Q) : Returns pool s v (.b_to_q data q) := by
  obtain ⟨fs, bs, o, k, bound, answer, outcome, full, _⟩ := (rep.local q).b_to_q data
  refine ⟨_, _, _, _, _, rfl, rep.next outcome, k, bound, ?_, rfl, fun short => ?_⟩
  · rw [answer]
  · rw [outcome.after.free.head, (full short).1]
    rfl

lemma Rep.unputc_returns (q : Q) : Returns pool s v (.unputc q) := by
  by_cases empty : (s.clist q).c_cc = 0
  · obtain ⟨none_, _⟩ := (rep.local q).clear empty
    refine ⟨s, .char (-1), own, off, v, ?_, rep, ?_, ?_⟩
    · simp [exec, State.unputc, empty]
    · rw [none_]
      rfl
    · rw [none_, dropLast_nil, ← none_, update_eq_self]
  · obtain ⟨front, char, split, answer, fs, bs, o, outcome⟩ :=
      (rep.local q).unputc (Nat.pos_of_ne_zero empty)
    refine ⟨_, _, _, _, _, rfl, rep.next outcome, ?_, ?_⟩
    · rw [answer, split, getLast?_concat]
      rfl
    · rw [split, dropLast_concat]

lemma Rep.catq_returns {source target : Q}
    (self : source = target → v source = []) : Returns pool s v (.catq source target) := by
  by_cases same : source = target
  · subst same
    have none_ := self rfl
    have empty : (s.clist source).c_cc = 0 := rep.empty_iff.mpr none_
    obtain ⟨_, clear⟩ := (rep.local source).clear empty
    refine ⟨s, .nothing, own, off, v, ?_, rep, ?_⟩
    · have once : s.set source (s.clist source) = s := by rw [State.set, update_eq_self]
      simp [exec, State.catq, if_pos empty, once, clear]
    · show v = joined v source source
      rw [joined, none_, append_nil, update_idem, ← none_, update_eq_self]
  · by_cases empty : (s.clist target).c_cc = 0
    · obtain ⟨none_, _⟩ := (rep.local target).clear empty
      obtain ⟨own', off', after⟩ := rep.handOver same none_
      refine ⟨_, .nothing, own', off', _, ?_, after, rfl⟩
      simp [exec, State.catq, if_pos empty]
    · have begun : v target ≠ [] := fun none_ => empty (rep.empty_iff.mpr none_)
      obtain ⟨t, own', off', result, after⟩ := rep.catLoop (s.clist source).c_cc same begun
        (rep.local source).length_bytes.le
      refine ⟨t, .nothing, own', off', _, ?_, after, rfl⟩
      simp [exec, State.catq, if_neg empty, result]

/-- Every call returns, but `catq` of a list that is not empty with itself. -/
lemma Rep.returns (a : Label Q) (self : ∀ q, a = .catq q q → v q = []) : Returns pool s v a := by
  cases a with
  | getc q =>
    obtain ⟨answer, fs, bs, o, outcome⟩ := (rep.local q).getc
    refine ⟨_, _, _, _, _, rfl, rep.next outcome, ?_, rfl⟩
    rw [answer]
  | q_to_b q cc =>
    obtain ⟨answer, fs, bs, o, outcome, _⟩ := (rep.local q).q_to_b cc
    refine ⟨_, _, _, _, _, rfl, rep.next outcome, ?_, rfl⟩
    rw [answer]
  | ndqb q =>
    obtain ⟨answer, bound, some_⟩ := (rep.local q).ndqb
    refine ⟨s, _, own, off, v, rfl, rep, ⟨s.ndqb q, bound, ?_, some_⟩, rfl⟩
    rw [answer]
  | ndflush q cc =>
    obtain ⟨fs, bs, o, outcome⟩ := (rep.local q).ndflush cc
    exact ⟨_, _, _, _, _, rfl, rep.next outcome, rfl⟩
  | putc c q => exact rep.putc_returns c q
  | b_to_q data q => exact rep.b_to_q_returns data q
  | walk q =>
    refine ⟨s, .bytes (v q), own, off, v, ?_, rep, rfl, rfl⟩
    rw [exec, (rep.local q).walk, Option.map_some]
  | unputc q => exact rep.unputc_returns q
  | catq source target =>
    apply rep.catq_returns
    rintro rfl
    exact self source rfl

/-- A round of `catq` of a list with itself does not make the list empty. -/
lemma Rep.selfRound {q : Q} (begun : v q ≠ []) :
    ∃ own' off' v', Rep pool ((s.q_to_b q (CBSIZE * 4)).1.b_to_q (s.q_to_b q (CBSIZE * 4)).2 q).1
      own' off' v' ∧ v' q ≠ [] := by
  obtain ⟨fs, bs, o, data, middle, room⟩ := rep.taken begun
  have joined := (middle.local q).b_to_q ((v q).take (CBSIZE * 4))
  obtain ⟨fs', bs', o', k, _, _, outcome, full, _⟩ := joined
  have final := middle.next outcome
  rw [data]
  refine ⟨_, _, _, final, ?_⟩
  simp only [update_self] at outcome ⊢
  have wanted : 0 < ((v q).take (CBSIZE * 4)).length := by
    rw [length_take]
    have := length_pos_iff.mpr begun
    simp only [CBSIZE]
    omega
  -- an empty list and no free block would leave the blocks of the list nowhere
  intro empty
  obtain ⟨-, stored⟩ := append_eq_nil_iff.mp empty
  have none_stored : k = 0 := by
    have := congrArg length stored
    rw [length_take, length_nil] at this
    omega
  rw [empty] at outcome
  have count := outcome.after.length_bytes
  have blocks := outcome.perm.length_eq
  rw [(full (by omega)).1] at blocks
  rw [(outcome.after.of_empty count.symm).1] at blocks
  simp only [give, update_self, length_append, length_nil,
    update_of_ne (show none ≠ some q by simp), CBSIZE] at *
  omega

/-- `catq` of a list that is not empty with itself never ends. -/
lemma Rep.catq_self {q : Q} (begun : v q ≠ []) : s.catq q q = none := by
  rw [State.catq, if_neg fun empty => begun (rep.empty_iff.mp empty)]
  generalize (s.clist q).c_cc = fuel
  induction fuel generalizing s own off v with
  | zero => rw [State.catLoop, if_neg fun empty => begun (rep.empty_iff.mp empty)]
  | succ fuel ih =>
    obtain ⟨own', off', v', round, still⟩ := rep.selfRound begun
    rw [State.catLoop, if_neg fun empty => begun (rep.empty_iff.mp empty)]
    exact ih round still

end

lemma Sound.step {t : State Q} {a : Label Q} (sound : Sound pool s) (step : Step s a t) :
    Sound pool t := by
  obtain ⟨own, off, v, rep⟩ := sound
  obtain ⟨answer, done⟩ := step
  have self : ∀ q, a = .catq q q → v q = [] := by
    rintro q rfl
    by_contra begun
    rw [exec, rep.catq_self begun] at done
    cases done
  obtain ⟨t', answer', own', off', v', done', after, _⟩ := rep.returns a self
  rw [done] at done'
  cases done'
  exact ⟨own', off', v', after⟩

omit [DecidableEq Q] in
lemma cinit_free (first count : ℕ) :
    Free (State.cinit first count : State Q) ((List.range count).reverse.map (first + ·)) ∧
      (State.cinit first count : State Q).clist = fun _ => .null := by
  induction count with
  | zero => exact ⟨⟨rfl, trivial, rfl⟩, rfl⟩
  | succ count ih =>
    have last : (State.cinit first (count + 1) : State Q) =
        (State.cinit first count).release (first + count) := by
      rw [State.cinit, range_succ, foldl_append]
      rfl
    rw [last, range_succ, reverse_append]
    exact ⟨ih.1.release (by simp), ih.2⟩

lemma cinit_sound {first : ℕ} (above : 0 < first) (count : ℕ) :
    Sound ((List.range count).map (first + ·)) (State.cinit first count : State Q) := by
  obtain ⟨free, empty⟩ := cinit_free first count
  refine ⟨update (fun _ => []) none ((range count).reverse.map (first + ·)),
    fun _ => 0, fun _ => [], ?_, ?_, ?_, ?_⟩
  · constructor
    · rintro (_ | q)
      · exact (nodup_reverse.mpr nodup_range).map (fun a b same => by omega)
      · simp
    · rintro (_ | q) (_ | p) x here there <;> simp at here there ⊢
    · intro x
      constructor
      · intro member
        exact ⟨none, by simpa using member⟩
      · rintro ⟨_ | q, member⟩
        · simpa using member
        · simp at member
  · intro x member
    obtain ⟨-, _, rfl⟩ := mem_map.mp member
    omega
  · simpa using free
  · intro q
    rw [empty]
    exact .inl ⟨by simp, rfl, rfl⟩

lemma Sound.unputc (sound : Sound pool s) (q : Q) :
    (s.unputc q).1.bytes = update s.bytes q (s.bytes q).dropLast ∧
      (s.unputc q).2 = (s.bytes q).getLast?.elim (-1) (BitVec.signExtend 32) := by
  obtain ⟨own, off, v, rep⟩ := sound
  obtain ⟨t, _, _, _, _, done, after, answer, taken⟩ := rep.unputc_returns q
  cases done
  rw [after.bytes, rep.bytes]
  exact ⟨taken, Answer.char.inj answer⟩

/-- `unputc` takes back the last character; one from 0200 on comes back negative, 0377 as -1. -/
theorem unputc_takes_back (sound : Sound pool s) (q : Q) :
    (s.unputc q).1.bytes = update s.bytes q (s.bytes q).dropLast ∧
    ((s.unputc q).2 = -1 ↔ (s.bytes q).getLast?.getD 0xff = 0xff) ∧
    (∀ c, (s.bytes q).getLast? = some c → ((s.unputc q).2 = c.setWidth 32 ↔ c.toNat < 128)) ∧
    ∀ c : BitVec 32, (s.putc (c.setWidth 8) q).2 = 0 →
      ((s.putc (c.setWidth 8) q).1.unputc q).1.bytes = s.bytes ∧
      (((s.putc (c.setWidth 8) q).1.unputc q).2 = c &&& 0xff ↔ c.toNat % 256 < 128) := by
  have byte : ∀ c : Byte, (c.signExtend 32 = c.setWidth 32 ↔ c.toNat < 128) ∧
      (c.signExtend 32 = -1 ↔ c = 0xff) := by decide
  obtain ⟨taken, answer⟩ := sound.unputc q
  refine ⟨taken, ?_, fun c last => ?_, fun c stored => ?_⟩
  · rw [answer]
    cases (s.bytes q).getLast? with
    | none => simp
    | some c => exact (byte c).2
  · rw [answer, last]
    exact (byte c).1
  · have masked : c &&& 0xff = (c.setWidth 8).setWidth 32 := by
      have := Nat.and_two_pow_sub_one_eq_mod c.toNat 8
      apply BitVec.eq_of_toNat_eq
      simp at *
      omega
    obtain ⟨own, off, v, rep⟩ := sound
    obtain ⟨t, _, _, _, _, done, after, ⟨_, queue⟩ | ⟨full, _⟩⟩ := rep.putc_returns (c.setWidth 8) q
    · cases done
      obtain ⟨again, char⟩ := Sound.unputc ⟨_, _, _, after⟩ q
      rw [again, char, after.bytes, rep.bytes, queue, masked]
      simpa using (byte (c.setWidth 8)).1
    · cases done
      simp [stored] at full

theorem unputc_takes_back_char :
    (((State.cinit 1 1 : State Unit).putc 65 ()).1.unputc ()).2 = 65 :=
  ((unputc_takes_back (cinit_sound Nat.one_pos 1) ()).2.2.2 65 (by decide)).2.mpr
    (by decide)

/-- A 0377 is taken back as the answer of an empty list. -/
theorem unputc_signed : (((State.cinit 1 1 : State Unit).putc 0xff ()).1.unputc ()).2 = -1 := by
  decide

end Clists
