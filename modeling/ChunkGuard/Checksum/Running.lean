import ChunkGuard.Checksum.Crc

/-!
# Running checksums

A running checksum takes bytes piece by piece. Its value after pieces taken from a fresh state
is the checksum of the pieces put together (`value_update_fresh`).
-/

namespace ChunkGuard

/-- A checksum under way. There are no checksums but those of the two algorithms, and none of them can
fail, so statements about every checksum are about these. -/
structure Checksum where
  algorithm : Algorithm
  register : UInt32
  deriving DecidableEq, Repr

namespace Checksum

/-- A running checksum that has taken nothing yet. -/
def ofAlgorithm (a : Algorithm) : Checksum := ⟨a, Algorithm.fresh⟩

/-- Takes bytes. -/
def update (c : Checksum) (bytes : Bytes) : Checksum :=
  { c with register := c.algorithm.feed c.register bytes }

/-- The checksum of the bytes taken since the last reset. -/
def value (c : Checksum) : UInt32 := c.register ^^^ Algorithm.fresh

/-- Forgets the bytes taken. -/
def reset (c : Checksum) : Checksum := ofAlgorithm c.algorithm

/-- A running checksum that has taken nothing since it was made or reset. -/
def IsFresh (c : Checksum) : Prop := c.register = Algorithm.fresh

instance (c : Checksum) : Decidable c.IsFresh := inferInstanceAs (Decidable (_ = _))

theorem isFresh_reset (c : Checksum) : c.reset.IsFresh := rfl

/-- From a fresh state, the value is the checksum of the bytes taken. -/
theorem value_update_fresh {c : Checksum} (h : c.IsFresh) (bytes : Bytes) :
    (c.update bytes).value = c.algorithm.sum bytes := by
  have h : c.register = Algorithm.fresh := h
  simp only [value, update, Algorithm.sum, h]

end Checksum

end ChunkGuard
