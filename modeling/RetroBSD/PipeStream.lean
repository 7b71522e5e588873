import RetroBSD.Pipes
import Mathlib.Data.List.GetD

/-!
# The stream through a pipe

While both ends of a pipe are open and its blocks can be read and written, the
bytes that reads have delivered, followed by the bytes of the inode from
`f_offset` on, are the bytes that writes have appended. The bytes of the inode
end at `i_size`, except while a writer is inside of `rwip`: `i_size` is set
before the block is there, and what has been appended ends at `uio_offset`.
-/

namespace Pipes

open Runs List

lemma bytes_zero (data : ℕ → UInt8) (off : ℕ) : bytes data off 0 = [] := rfl

lemma bytes_length (data : ℕ → UInt8) (off n : ℕ) : (bytes data off n).length = n := by
  simp [bytes]

lemma bytes_append (data : ℕ → UInt8) {a b c : ℕ} (first : a ≤ b) (second : b ≤ c) :
    bytes data a (b - a) ++ bytes data b (c - b) = bytes data a (c - a) := by
  apply ext_getElem
  · simp only [length_append, bytes_length]
    omega
  · intro i _ _
    simp only [bytes, getElem_append, length_map, length_range, getElem_map, getElem_range]
    split_ifs with before
    · rfl
    · congr 1
      omega

lemma bytes_store_below (data : ℕ → UInt8) (buf : List UInt8) {a n off : ℕ} (below : a + n ≤ off) :
    bytes (store data off buf) a n = bytes data a n := by
  apply map_congr_left
  intro i member
  have := mem_range.mp member
  exact if_neg (by omega)

lemma bytes_store (data : ℕ → UInt8) (buf : List UInt8) (off : ℕ) :
    bytes (store data off buf) off buf.length = buf := by
  apply ext_getElem
  · exact bytes_length _ _ _
  · intro i _ small
    simp only [bytes, getElem_map, getElem_range, store]
    rw [if_pos (by omega), Nat.add_sub_cancel_left, getD_eq_getElem]

/-- The offsets of a pipe in which the bytes up to `fin` have been appended. -/
structure Pipe.Ordered (s : Pipe) (fin : ℕ) : Prop where
  start : s.f_offset ≤ fin
  stop : fin ≤ s.i_size
  small : s.i_size < 2 * MAXPIPSIZ

/-- What the phase of a process has to do with the pipe. -/
def Pipe.Fits (s : Pipe) (fin : ℕ) : Phase → Prop
  | .reading off _ n got =>
    s.f_offset ≤ off ∧ off + n ≤ s.i_size ∧ got = bytes s.data s.f_offset (off - s.f_offset)
  | .writing off resid buf c none =>
    s.i_size = off ∧ fin = off ∧ off + resid < 2 * MAXPIPSIZ ∧ resid + c ≤ buf.length
  | .writing off resid buf c (some n) =>
    s.i_size = off + n ∧ fin = off ∧ n ≤ resid ∧ off + resid < 2 * MAXPIPSIZ ∧
      resid + c ≤ buf.length
  | .writeSleep buf c _ => c ≤ buf.length
  | _ => True

def Phase.closes : Phase → Bool
  | .closeLock => true
  | .closing => true
  | _ => false

/-- A move carries the stream on: what it delivers and leaves is what was there, followed by what
it appends. -/
structure Move.Carries (s : Pipe) (fin : ℕ) (m : Move) (fin' : ℕ) : Prop where
  ordered : m.pipe.Ordered fin'
  fits : m.pipe.Fits fin' m.phase
  settled : m.phase.writes = false → fin' = m.pipe.i_size
  opens : m.phase.closes = false
  stream : m.got ++ bytes m.pipe.data m.pipe.f_offset (fin' - m.pipe.f_offset) =
    bytes s.data s.f_offset (fin - s.f_offset) ++ m.put

namespace Pipe

variable {s : Pipe} {fin : ℕ}

variable {buf : List UInt8} {c off : ℕ}

section Settled

variable (ordered : s.Ordered s.i_size)

section Reads

variable {got : List UInt8} (start : s.f_offset ≤ off) (stop : off ≤ s.i_size)
  (read : got = bytes s.data s.f_offset (off - s.f_offset))

include ordered start stop read

lemma finishRead_carries (lock : Bool) :
    ∃ fin', Move.Carries s s.i_size ({ s with ilocked := lock }.finishRead off got) fin' := by
  unfold finishRead
  split_ifs with caught
  · refine ⟨0, ⟨le_rfl, le_rfl, by simp⟩, trivial, fun _ => rfl, rfl, ?_⟩
    rw [read, caught]
    rfl
  · refine ⟨s.i_size, ⟨stop, le_rfl, ordered.small⟩, trivial, fun _ => rfl, rfl, ?_⟩
    rw [read, append_nil]
    exact bytes_append s.data start stop

lemma rwipRead_carries (lock : Bool) (resid : ℕ) :
    ∃ fin', Move.Carries s s.i_size ({ s with ilocked := lock }.rwipRead off resid got) fin' := by
  unfold rwipRead
  split_ifs with done
  · exact finishRead_carries ordered start stop read lock
  · refine ⟨s.i_size, ⟨ordered.start, le_rfl, ordered.small⟩, ⟨start, ?_, read⟩, fun _ => rfl, rfl, ?_⟩
    · simp only [goes]
      omega
    · exact (append_nil _).symm

end Reads

include ordered

/-- The loop of `writep` moves no byte itself. -/
lemma writeLoop_carries (rest : c ≤ buf.length) (lock flag : Bool) :
    ∃ fin', Move.Carries s s.i_size ({ s with ilocked := lock, iread := flag }.writeLoop buf c) fin' := by
  have still : Ordered { s with ilocked := lock, iread := flag } s.i_size :=
    ⟨ordered.start, le_rfl, ordered.small⟩
  unfold writeLoop
  split_ifs with ended full
  · exact ⟨s.i_size, ⟨still.start, le_rfl, still.small⟩, trivial, fun _ => rfl, rfl,
      (append_nil _).symm⟩
  · exact ⟨s.i_size, ⟨still.start, le_rfl, still.small⟩, rest, fun _ => rfl, rfl,
      (append_nil _).symm⟩
  · refine ⟨s.i_size, still, ⟨rfl, rfl, ?_, ?_⟩, nofun, rfl, (append_nil _).symm⟩
    · omega
    · omega

lemma endChunk_carries (rest : c ≤ buf.length) :
    ∃ fin', Move.Carries s s.i_size (s.endChunk buf c) fin' := by
  obtain ⟨fin', loops⟩ := writeLoop_carries ordered rest s.ilocked false
  exact ⟨fin', loops.ordered, loops.fits, loops.settled, loops.opens, loops.stream⟩

end Settled

lemma endChunk_put (s : Pipe) (buf : List UInt8) (c : ℕ) : (s.endChunk buf c).put = [] := by
  unfold endChunk writeLoop
  split_ifs <;> rfl

lemma extend_carries (ordered : s.Ordered fin) {resid : ℕ}
    (fits : s.Fits fin (.writing off resid buf c none)) :
    Move.Carries s fin (s.extend off resid buf c) fin := by
  obtain ⟨size, here, small, rest⟩ := fits
  have grows : (if s.i_size < off + min (DEV_BSIZE - off % DEV_BSIZE) resid
      then off + min (DEV_BSIZE - off % DEV_BSIZE) resid else s.i_size)
      = off + min (DEV_BSIZE - off % DEV_BSIZE) resid := by
    split_ifs <;> omega
  refine ⟨⟨ordered.start, ?_, ?_⟩, ⟨grows, here, min_le_right _ _, small, rest⟩, nofun, rfl,
    (append_nil _).symm⟩
  · simp only [extend, goes]
    omega
  · simp only [extend, goes]
    omega

lemma copyIn_carries (ordered : s.Ordered fin) {resid n : ℕ}
    (fits : s.Fits fin (.writing off resid buf c (some n))) :
    ∃ fin', Move.Carries s fin (s.copyIn off resid buf c n) fin' := by
  obtain ⟨size, here, part, small, rest⟩ := fits
  subst here
  let s' : Pipe := { s with data := store s.data fin (buf.take n) }
  have copied : bytes s'.data s'.f_offset (s'.i_size - s'.f_offset) =
      bytes s.data s.f_offset (fin - s.f_offset) ++ buf.take n := by
    have length : (buf.take n).length = n := by
      rw [length_take]
      omega
    have new := bytes_store s.data (buf.take n) fin
    have old : bytes s'.data s.f_offset (fin - s.f_offset) =
        bytes s.data s.f_offset (fin - s.f_offset) :=
      bytes_store_below s.data _ (by have := ordered.start; omega)
    rw [length] at new
    have split := bytes_append s'.data ordered.start (Nat.le_add_right fin n)
    rw [Nat.add_sub_cancel_left] at split
    rw [size, ← split]
    exact congrArg₂ _ old new
  have ordered' : s'.Ordered s'.i_size := ⟨ordered.start.trans ordered.stop, le_rfl, ordered.small⟩
  unfold copyIn
  split_ifs with last
  · obtain ⟨fin', ends⟩ := endChunk_carries ordered'
      (show c ≤ (buf.drop n).length by rw [length_drop]; omega)
    refine ⟨fin', ends.ordered, ends.fits, ends.settled, ends.opens, ?_⟩
    have stream := ends.stream
    rw [endChunk_put, append_nil, copied] at stream
    exact stream
  · refine ⟨fin + n, ⟨?_, size.ge, ordered.small⟩, ⟨size, rfl, ?_, ?_⟩, nofun, rfl, ?_⟩
    · exact ordered.start.trans (Nat.le_add_right fin n)
    · omega
    · rw [length_drop]
      omega
    · rw [← size]
      exact copied

lemma readp_carries (ordered : s.Ordered fin) (settled : fin = s.i_size) {len : ℕ}
    {nonblock : Bool} {m : Move} (done : s.readp len nonblock = some m) :
    ∃ fin', Move.Carries s fin m fin' := by
  cases settled
  unfold readp at done
  split_ifs at done with locked empty refused <;> cases done
  · exact ⟨s.i_size, ordered, trivial, fun _ => rfl, rfl, (append_nil _).symm⟩
  · exact ⟨s.i_size, ⟨ordered.start, le_rfl, ordered.small⟩, trivial, fun _ => rfl, rfl,
      (append_nil _).symm⟩
  · exact rwipRead_carries ordered le_rfl ordered.start (by rw [Nat.sub_self, bytes_zero]) true len

/-- A call that runs without a failure carries the stream on. -/
lemma run_carries (ordered : s.Ordered fin) {ph : Phase} {m : Move} (fits : s.Fits fin ph)
    (settled : ph.writes = false → fin = s.i_size) (opens : ph.closes = false)
    (done : s.run false ph = some m) : ∃ fin', Move.Carries s fin m fin' := by
  cases ph with
  | idle => cases done
  | readLock len nonblock => exact readp_carries ordered (settled rfl) done
  | readSleep len woken =>
    cases woken with
    | false => cases done
    | true => exact readp_carries ordered (settled rfl) done
  | reading off resid n got =>
    cases done
    cases settled rfl
    obtain ⟨start, stop, read⟩ := fits
    refine rwipRead_carries ordered (start.trans (Nat.le_add_right off n)) stop ?_ _ _
    have split := bytes_append s.data start (Nat.le_add_right off n)
    rw [Nat.add_sub_cancel_left] at split
    rw [read, split]
  | writeLock buf nonblock =>
    cases settled rfl
    have done : s.writep buf nonblock = some m := done
    unfold writep at done
    split_ifs at done with locked refused <;> cases done
    · exact ⟨s.i_size, ordered, trivial, fun _ => rfl, rfl, (append_nil _).symm⟩
    · exact writeLoop_carries ordered le_rfl true _
  | writeSleep buf c woken =>
    cases settled rfl
    cases woken with
    | false => cases done
    | true =>
      have done : s.writeAgain buf c = some m := done
      unfold writeAgain at done
      split_ifs at done with locked
      cases done
      exact writeLoop_carries ordered fits true _
  | writing off resid buf c n =>
    cases n with
    | none =>
      cases done
      exact ⟨fin, extend_carries ordered fits⟩
    | some n =>
      cases done
      exact copyIn_carries ordered fits
  | closeLock => cases opens
  | closing => cases opens

end Pipe

variable {P : Type} [DecidableEq P]

/-- Both ends stay open, and no block fails. -/
def Clean (_ : State P) : Label P → Prop
  | .run _ fails => fails = false
  | .close _ => False
  | _ => True

instance (s : State P) (a : Label P) : Decidable (Clean s a) := by
  cases a <;> unfold Clean <;> infer_instance

namespace State

/-- The stream of a pipe in which the bytes up to `fin` have been appended. -/
structure Streams (s : State P) (fin : ℕ) : Prop where
  good : s.Good
  ordered : s.pipe.Ordered fin
  fits : ∀ p, s.pipe.Fits fin (s.phase p)
  opens : ∀ p, (s.phase p).closes = false
  settled : (∀ p, (s.phase p).writes = false) → fin = s.pipe.i_size
  stream : s.delivered ++ bytes s.pipe.data s.pipe.f_offset (fin - s.pipe.f_offset) = s.appended

variable {ph : Phase} {s : State P} {fin : ℕ}

/-- What a phase without the lock says does not depend on the pipe. -/
lemma fits_without_lock {s s' : Pipe} {fin' : ℕ} (free : ph.holds = false)
    (fits : s.Fits fin ph) : s'.Fits fin' ph := by
  cases ph with
  | reading => cases free
  | writing => cases free
  | writeSleep => exact fits
  | _ => trivial

lemma fits_wake {s : Pipe} (m : Move) (fits : s.Fits fin ph) : s.Fits fin (wake m ph) := by
  unfold wake
  cases ph <;> split_ifs <;> exact fits

@[simp] lemma wake_closes (m : Move) (ph : Phase) : (wake m ph).closes = ph.closes := by
  unfold wake
  cases ph <;> split_ifs <;> rfl

lemma writes_of_free (free : ph.holds = false) : ph.writes = false := by
  cases ph with
  | writing => cases free
  | _ => rfl

lemma Streams.run (streams : s.Streams fin) {p : P} {m : Move}
    (done : s.pipe.run false (s.phase p) = some m) : ∃ fin', (s.make p m).Streams fin' := by
  obtain ⟨free, sound⟩ := Pipe.run_sound (streams.good.locked p) (streams.good.closing p) done
  have alone : ∀ q, q ≠ p → (s.phase q).holds = false := fun q other =>
    streams.good.alone free other
  have settled : (s.phase p).writes = false → fin = s.pipe.i_size := by
    intro quiet
    apply streams.settled
    intro q
    by_cases same : q = p
    · rw [same, quiet]
    · exact writes_of_free (alone q same)
  obtain ⟨fin', carries⟩ := Pipe.run_carries streams.ordered (streams.fits p) settled
    (streams.opens p) done
  refine ⟨fin', streams.good.make free sound, carries.ordered, ?_, ?_, ?_, ?_⟩
  · intro q
    by_cases same : q = p
    · rw [same, make_self]
      exact carries.fits
    · rw [make_other s m same]
      exact fits_wake m (fits_without_lock (alone q same) (streams.fits q))
  · intro q
    by_cases same : q = p
    · rw [same, make_self]
      exact carries.opens
    · rw [make_other s m same, wake_closes]
      exact streams.opens q
  · intro quiet
    apply carries.settled
    rw [← make_self s p m]
    exact quiet p
  · have before := streams.stream
    calc (s.delivered ++ m.got) ++ bytes m.pipe.data m.pipe.f_offset (fin' - m.pipe.f_offset)
        = s.delivered ++ (m.got ++ bytes m.pipe.data m.pipe.f_offset _) := append_assoc ..
      _ = s.delivered ++ (bytes s.pipe.data s.pipe.f_offset (fin - s.pipe.f_offset) ++ m.put) := by
          rw [carries.stream]
      _ = s.appended ++ m.put := by rw [← append_assoc, before]

lemma Streams.enter (streams : s.Streams fin) {p : P}
    (good : (s.enter p ph).Good) (before : (s.phase p).holds = false)
    (opens : ph.closes = false) (fits : s.pipe.Fits fin ph) : (s.enter p ph).Streams fin := by
  have here : (s.enter p ph).phase p = ph := Function.update_self ..
  have kept : ∀ q, q ≠ p → (s.enter p ph).phase q = s.phase q :=
    fun q other => Function.update_of_ne other ..
  refine ⟨good, streams.ordered, ?_, ?_, ?_, streams.stream⟩
  · intro q
    by_cases same : q = p
    · rw [same, here]
      exact fits
    · rw [kept q same]
      exact streams.fits q
  · intro q
    by_cases same : q = p
    · rw [same, here, opens]
    · rw [kept q same]
      exact streams.opens q
  · intro quiet
    apply streams.settled
    intro q
    by_cases same : q = p
    · rw [same]
      exact writes_of_free before
    · rw [← kept q same]
      exact quiet q

lemma Streams.step {t : State P} {a : Label P} (streams : s.Streams fin)
    (clean : Clean s a) (step : Step s a t) : ∃ fin', t.Streams fin' := by
  have good := streams.good.step step
  cases a with
  | close p => exact absurd clean id
  | run p fails =>
    cases clean
    obtain ⟨m, done, result⟩ := Option.map_eq_some_iff.mp step
    exact result ▸ streams.run done
  | _ =>
    simp only [Step, exec] at step
    split at step <;> cases step
    all_goals
      rename_i here
      exact ⟨fin, streams.enter good (by rw [here]; rfl) rfl trivial⟩

end State

omit [DecidableEq P] in
lemma streams_created (data : ℕ → UInt8) : (created P data).Streams 0 :=
  ⟨good_created data, ⟨le_rfl, le_rfl, by simp [created]⟩, fun _ => trivial, fun _ => rfl, fun _ => rfl,
    rfl⟩

/-- The bytes that completed reads have delivered are a prefix of those that were appended, and the
rest lies in the inode from `f_offset` on. It ends at `i_size` unless a writer is inside of
`rwip`, and at the `uio_offset` of that writer otherwise. -/
theorem pipe_stream (data : ℕ → UInt8) (labels : List (Label P)) (s : State P)
    (run : Run Step Clean (created P data) labels s) :
    s.pipe.f_offset ≤ s.pipe.i_size ∧ s.pipe.i_size < 2 * MAXPIPSIZ ∧
    (s.pipe.i_size = 0 → s.pipe.f_offset = 0) ∧ ∃ fin, s.pipe.f_offset ≤ fin ∧
      s.delivered ++ bytes s.pipe.data s.pipe.f_offset (fin - s.pipe.f_offset) = s.appended ∧
      ((∀ p, (s.phase p).writes = false) → fin = s.pipe.i_size) ∧
      ∀ p off resid buf c n, s.phase p = .writing off resid buf c n → fin = off := by
  obtain ⟨fin, streams⟩ := run_invariant (fun s : State P => ∃ fin, s.Streams fin)
    (fun _ _ _ ⟨_, streams⟩ clean step => streams.step clean step) run ⟨0, streams_created data⟩
  have ordered := streams.ordered
  have start := ordered.start.trans ordered.stop
  refine ⟨start, ordered.small, fun empty => by omega, fin, ordered.start, streams.stream,
    streams.settled, ?_⟩
  intro p off resid buf c n writes
  have fits := streams.fits p
  rw [writes] at fits
  cases n with
  | none => exact fits.2.1
  | some n => exact fits.2.1

/-- Two bytes are written and one is read while another write begins. -/
def sampleStream : List (Label (Fin 2)) :=
  [.write 1 [7, 8] false, .run 1 false, .run 1 false, .run 1 false, .read 0 1 false, .run 0 false,
    .run 0 false, .write 1 [9] false, .run 1 false, .run 1 false]

theorem pipe_stream_sample :
    ∃ s : State (Fin 2), Run Step Clean (created (Fin 2) fun _ => 0) sampleStream s ∧
      s.delivered = [7] ∧ s.appended = [7, 8] ∧ s.pipe.i_size = 3 ∧
      ∃ fin, s.delivered ++ bytes s.pipe.data s.pipe.f_offset (fin - s.pipe.f_offset)
        = s.appended := by
  refine Exists.imp (fun s ⟨run, delivered, appended, size⟩ => ⟨run, delivered, appended, size, ?_⟩)
    (run_of_reached State.exec (P := fun s => s.delivered = [7] ∧ s.appended = [7, 8] ∧ s.pipe.i_size = 3)
      (by decide))
  obtain ⟨-, -, -, fin, -, stream, -⟩ := pipe_stream _ _ s run
  exact ⟨fin, stream⟩

/-- In the middle of a chunk the bytes up to `i_size` are not what has been appended. -/
theorem size_ahead_of_stream :
    ∃ s : State (Fin 2), Run Step Clean (created (Fin 2) fun _ => 0) sampleStream s ∧
      s.delivered ++ bytes s.pipe.data s.pipe.f_offset (s.pipe.i_size - s.pipe.f_offset)
        ≠ s.appended := by
  exact run_of_reached State.exec (by decide)

end Pipes
