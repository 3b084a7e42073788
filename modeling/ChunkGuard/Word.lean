/-!
# Words

Sizes are words of 64 bits and positions are signed words of 64 bits, so sums of them wrap.
-/

namespace ChunkGuard.Word

/-- The number of words. Numbers that differ by a multiple of it stand for the same word. -/
def count : Nat := 0x10000000000000000

/-- The number of words that are read as they are when words are signed. -/
def half : Nat := 0x8000000000000000

/-- The greatest signed word. -/
def maxSigned : Int := 0x7FFFFFFFFFFFFFFF

/-- The word that a number stands for. -/
def ofInt (n : Int) : Nat := (n % count).toNat

/-- The signed word that a number stands for. -/
def signed (n : Int) : Int := n.bmod count

/-- The number is a signed word. -/
def IsSigned (n : Int) : Prop := -half ≤ n ∧ n < half

instance (n : Int) : Decidable (IsSigned n) := inferInstanceAs (Decidable (_ ∧ _))

theorem signed_eq_self {n : Int} (h : IsSigned n) : signed n = n := by
  simp only [IsSigned, half] at h
  apply Int.bmod_eq_of_le <;> simp only [count] <;> omega

end ChunkGuard.Word
