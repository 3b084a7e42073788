import ChunkGuard.Word

/-!
# Chunks

Data is checked in chunks of a fixed size, and the last chunk of the data may be short.
`Chunk.count` is how many chunks some bytes take, `Chunk.start` is where the chunk that holds a
position begins. Both say what they do where a word runs over: the count wraps, and a chunk size
in the upper half of the words is read as a negative number.
-/

namespace ChunkGuard

/-- The number of chunks that one request to a source may ask for. -/
def chunksPerRead : Nat := 32

/-- The width of a stored checksum in bytes. -/
def sumWidth : Nat := 4

namespace Chunk

/-- `count size chunk` is the number of chunks of `chunk` bytes that hold `size` bytes: the
quotient rounded up, where the sum that rounds up wraps at 64 bits. -/
def count (size chunk : Nat) : Nat := (size + chunk - 1) % Word.count / chunk

/-- How far a position is into its chunk. The remainder has the sign of the position. -/
def offset (chunk : Nat) (position : Int) : Int := position.tmod (Word.signed chunk)

/-- `start chunk position` is the position less how far it is into its chunk, so the chunk of a
negative position starts at or after it. -/
def start (chunk : Nat) (position : Int) : Int := position - offset chunk position

/-- Below the range where the sum wraps, the count is the quotient rounded up. -/
theorem count_eq {size chunk : Nat} (h : size + chunk - 1 < Word.count) :
    count size chunk = (size + chunk - 1) / chunk := by
  rw [count, Nat.mod_eq_of_lt h]

/-- Data of so many chunks takes no more of them, whether or not the sum that rounds up wraps. -/
theorem count_le {size chunk n : Nat} (h : size ≤ n * chunk) : count size chunk ≤ n := by
  have hle : count size chunk ≤ (size + chunk - 1) / chunk :=
    Nat.div_le_div_right (Nat.mod_le _ _)
  obtain rfl | hpos := Nat.eq_zero_or_pos chunk
  · rw [Nat.div_zero] at hle
    exact Nat.le_trans hle (Nat.zero_le _)
  · refine Nat.le_trans hle (Nat.le_of_lt_succ (Nat.div_lt_of_lt_mul ?_))
    rw [Nat.mul_comm, Nat.succ_mul]
    omega

end Chunk

end ChunkGuard
