import RetroBSD.ImageLayout

/-!
# Loading an executable

What `getxfile` stores in memory: the bytes that `rdwri` reads from the file,
whose result it does not look at, and the zeros of `bzero`. No transfer fails.
-/

namespace ImageLoads

open ImageLayout

structure File where
  bytes : List UInt8
  small : bytes.length < 2 ^ 31

/-- What a call has stored at an address, if anything. -/
abbrev Stores := Word → Option UInt8

/-- `n` bytes stored from `base` on. -/
def Stores.put (s : Stores) (base : Word) (n : ℕ) (byte : ℕ → UInt8) : Stores :=
  fun a => if (a - base).toNat < n then some (byte (a - base).toNat) else s a

/-- `bzero`, at most `k` times through the loop up to an aligned address. The loops for words and
for the bytes that remain clear what is left. -/
def bzero : ℕ → Stores → Word → Word → Stores
  | 0, s, dst, nbytes => s.put dst nbytes.toNat fun _ => 0
  | k + 1, s, dst, nbytes =>
    if dst.toNat % 4 = 0 then s.put dst nbytes.toNat fun _ => 0
    else
      let s := s.put dst 1 fun _ => 0
      if nbytes - 1 = 0 then s else bzero k s (dst + 1) (nbytes - 1)

/-- The bytes that `rdwri` moves; `far` are those it finds at an offset that is negative. -/
def rdwri (f : File) (far : List UInt8) (len offset : Word) : List UInt8 :=
  if offset.toNat < 2 ^ 31 then (f.bytes.drop offset.toNat).take len.toNat else far.take len.toNat

/-- What refuses the file: a text that is open for writing, or its size. -/
def Refused (busy : Bool) (ep : Exec) (nargc : Word) : Prop :=
  (ep.pure.a_text ≠ 0 ∧ busy) ∨
    ep.pure.a_text + (ep.pure.a_data + ep.pure.a_bss) + (SSIZE + nargc) > MAXMEM

instance (busy : Bool) (ep : Exec) (nargc : Word) : Decidable (Refused busy ep nargc) :=
  inferInstanceAs (Decidable (_ ∨ _))

def getxfile (f : File) (far : List UInt8) (busy : Bool) (ep : Exec) (nargc : Word) : Option Stores :=
  if Refused busy ep nargc then none
  else
    let data := ep.pure.a_data
    let got := rdwri f far data (32 + ep.pure.a_text)
    some (bzero 3 (Stores.put (fun _ => none) USER_DATA_START got.length (got.getD · 0))
      (USER_DATA_START + data) (USER_DATA_END - USER_DATA_START - data))

/-- Bytes are cleared in order, unless there are none and the address is not aligned. -/
lemma bzero_eq (k : ℕ) (s : Stores) {dst nbytes : Word} (some_ : nbytes ≠ 0 ∨ dst.toNat % 4 = 0) :
    bzero k s dst nbytes = s.put dst nbytes.toNat fun _ => 0 := by
  induction k generalizing s dst nbytes with
  | zero => rfl
  | succ k ih =>
    unfold bzero
    split_ifs with aligned last
    · rfl
    · have : nbytes.toNat = 1 := by bv_omega
      rw [this]
    · rw [ih _ (.inl last)]
      funext a
      simp only [Stores.put]
      split_ifs <;> first | rfl | bv_omega

/-- An image that is accepted is loaded inside user memory and in full, if its data fit and are all
in the file. The sum of the sizes wraps, and a short read is not noticed. -/
theorem getxfile_loads_iff (f : File) (far : List UInt8) (busy : Bool) (ep : Exec) (nargc : Word) :
    (∀ s, getxfile f far busy ep nargc = some s →
      (∀ a, s a ≠ none → USER_DATA_START ≤ a ∧ a < USER_DATA_END) ∧
      (∀ i < ep.pure.a_data.toNat, ∃ byte, f.bytes[32 + ep.pure.a_text.toNat + i]? = some byte ∧
        s (USER_DATA_START + BitVec.ofNat 32 i) = some byte) ∧
      ∀ a, USER_DATA_START.toNat + ep.pure.a_data.toNat ≤ a.toNat → a < USER_DATA_END →
        s a = some 0) ↔
    Refused busy ep nargc ∨ ep.pure.a_data ≤ USER_DATA_END - USER_DATA_START ∧ (ep.pure.a_data = 0 ∨
        32 + ep.pure.a_text.toNat + ep.pure.a_data.toNat ≤ f.bytes.length) := by
  by_cases refused : Refused busy ep nargc
  · simp [getxfile, refused]
  rw [getxfile, if_neg refused]
  simp only [Option.some.injEq, forall_eq', refused, false_or]
  generalize ep.pure.a_data = data
  generalize ep.pure.a_text = text
  by_cases fits : data ≤ USER_DATA_END - USER_DATA_START
  swap
  · -- the first byte that is cleared is not in user memory
    rw [bzero_eq _ _ (.inl (by bv_omega))]
    refine ⟨fun ⟨inside, _⟩ => ?_, fun full => absurd full.1 fits⟩
    have := inside (USER_DATA_START + data) (by
      rw [Stores.put, if_pos (by bv_omega)]
      simp)
    bv_omega
  rw [bzero_eq _ _ (by bv_omega)]
  constructor
  · rintro ⟨-, loaded, -⟩
    refine ⟨fits, or_iff_not_imp_left.mpr fun some_ => ?_⟩
    obtain ⟨byte, last, -⟩ := loaded (data.toNat - 1) (by bv_omega)
    have := (List.getElem?_eq_some_iff.mp last).1
    bv_omega
  · rintro ⟨-, full⟩
    set got := rdwri f far data _ with read
    have small := f.small
    have length : got.length = data.toNat ∧ ∀ i < data.toNat,
        f.bytes[32 + text.toNat + i]? = some (got.getD i 0) := by
      obtain rfl | full := full
      · simp [read, rdwri]
      · have near : (32 + text).toNat = 32 + text.toNat := by bv_omega
        have moved : got = (f.bytes.drop (32 + text.toNat)).take data.toNat := by
          rw [read, rdwri, if_pos (by omega), near]
        have length : got.length = data.toNat := by simp [moved]; omega
        refine ⟨length, fun i below => ?_⟩
        have inside : 32 + text.toNat + i < f.bytes.length := by omega
        simp [moved, below, inside]
    obtain ⟨length, bytes⟩ := length
    rw [length]
    refine ⟨fun a stored => ?_, fun i below => ⟨_, bytes i below, ?_⟩, fun a low high => ?_⟩
    · simp only [Stores.put] at stored
      split_ifs at stored with cleared moved
      · bv_omega
      · bv_omega
      · exact absurd rfl stored
    · have place : (USER_DATA_START + BitVec.ofNat 32 i - USER_DATA_START).toNat = i := by
        simp
        omega
      rw [Stores.put, if_neg (by bv_omega), Stores.put, if_pos (by omega), place]
    · rw [Stores.put, if_pos (by bv_omega)]

/-- A data segment of 4 GB less 8 KB, with as much bss as makes the sum wrap: the read and the
clearing leave user memory. -/
theorem wrapped_sizes_leave_memory :
    ∃ s, getxfile ⟨[], by decide⟩ [] false ⟨.NMAGIC, 0, 0xffffe000, 0x2000⟩ 0 = some s ∧
      s (USER_DATA_START - 0x2000) = some 0 := by
  exact ⟨_, rfl, by decide⟩

end ImageLoads
