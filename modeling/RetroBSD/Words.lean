import Mathlib.Tactic

/-!
# Words stored in bytes

A block of storage is a function from offsets to bytes. A word is four of them,
lowest byte first, at an offset that is a multiple of four; its value is the
number the four bytes stand for. Nothing here fixes the size of a block.
-/

namespace Words

abbrev Block := Nat → UInt8

def byteOf (v k : Nat) : UInt8 := UInt8.ofNat (v / 256 ^ k)

def word (b : Block) (i : Nat) : Nat :=
  (b (4 * i)).toNat + 256 * (b (4 * i + 1)).toNat + 256 ^ 2 * (b (4 * i + 2)).toNat +
    256 ^ 3 * (b (4 * i + 3)).toNat

def setWord (b : Block) (i v : Nat) : Block :=
  fun k => if k / 4 = i then byteOf v (k % 4) else b k

def setWords (b : Block) (n : Nat) (w : Nat → Nat) : Block :=
  fun k => if k < 4 * n then byteOf (w (k / 4)) (k % 4) else b k

def zeroBlock : Block := fun _ => 0

lemma word_lt (b : Block) (i : Nat) : word b i < 2 ^ 32 := by
  have byte : ∀ k, (b k).toNat < 256 := fun k => UInt8.toNat_lt (b k)
  have h₀ := byte (4 * i)
  have h₁ := byte (4 * i + 1)
  have h₂ := byte (4 * i + 2)
  have h₃ := byte (4 * i + 3)
  simp only [word]
  omega

lemma word_congr {b b' : Block} {i : Nat} (same : ∀ k, k / 4 = i → b k = b' k) :
    word b i = word b' i := by
  have at_ : ∀ r, r < 4 → b (4 * i + r) = b' (4 * i + r) := fun r hr => same _ (by omega)
  have h₀ := at_ 0 (by omega)
  simp only [add_zero] at h₀
  simp [word, h₀, at_]

/-- Four bytes of a number give it back. -/
lemma word_of_bytes {b : Block} {i v : Nat} (bytes : ∀ k, k / 4 = i → b k = byteOf v (k % 4)) :
    word b i = v % 2 ^ 32 := by
  have at_ : ∀ r, r < 4 → (b (4 * i + r)).toNat = v / 256 ^ r % 256 := by
    intro r hr
    have here := bytes (4 * i + r) (by omega)
    have last : (4 * i + r) % 4 = r := by omega
    simp [here, last, byteOf]
  have h₀ := at_ 0 (by omega)
  have h₁ := at_ 1 (by omega)
  have h₂ := at_ 2 (by omega)
  have h₃ := at_ 3 (by omega)
  simp only [add_zero] at h₀
  simp only [word, h₂, h₃]
  omega

lemma word_setWord (b : Block) (i v j : Nat) :
    word (setWord b i v) j = if j = i then v % 2 ^ 32 else word b j := by
  by_cases h : j = i
  · subst h
    simp only [if_true]
    exact word_of_bytes (fun k hk => by simp [setWord, hk])
  · simp only [h]
    exact word_congr (fun k hk => by simp [setWord, hk, h])

lemma word_setWords (b : Block) (n : Nat) (w : Nat → Nat) (j : Nat) :
    word (setWords b n w) j = if j < n then w j % 2 ^ 32 else word b j := by
  by_cases h : j < n
  · simp only [h]
    refine word_of_bytes (fun k hk => ?_)
    have inside : k < 4 * n := by omega
    simp [setWords, inside, hk]
  · simp only [h]
    refine word_congr (fun k hk => ?_)
    have outside : ¬ k < 4 * n := by omega
    simp [setWords, outside]

lemma word_zeroBlock (i : Nat) : word zeroBlock i = 0 := by
  simp [word, zeroBlock]

end Words
