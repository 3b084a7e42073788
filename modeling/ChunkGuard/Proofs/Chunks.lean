import ChunkGuard.Checksum.Sidecar
import ChunkGuard.Proofs.Bytes
import ChunkGuard.Proofs.Comparison

/-!
# Chunks of parts

A part of some data that starts at a chunk, together with the same part of its sidecar, passes
chunk by chunk as the whole does (`Chunk.slice_part`, `Stored.loadAt_slice`). So what a fetch compares
is what is stored. The other lemmas say how positions and sizes fall into chunks where no word runs over.
-/

namespace ChunkGuard

namespace Stored

/-- A stored checksum depends on its four bytes only. -/
theorem loadAt_congr {i j : Nat} {x y : Bytes}
    (h : ∀ k < sumWidth, x[sumWidth * i + k]? = y[sumWidth * j + k]?) :
    loadAt i x = loadAt j y := by
  have hbyte : ∀ k < sumWidth, (x.drop (4 * i)).getD k 0 = (y.drop (4 * j)).getD k 0 := by
    intro k hk
    rw [List.getD_eq_getElem?_getD, List.getD_eq_getElem?_getD, List.getElem?_drop,
      List.getElem?_drop]
    exact congrArg (Option.getD · 0) (h k hk)
  simp only [loadAt, load, hbyte 0 (by decide), hbyte 1 (by decide), hbyte 2 (by decide),
    hbyte 3 (by decide)]

/-- A checksum in a part of a sidecar is the one that stands there in the whole. -/
theorem loadAt_slice {first count index : Nat} (h : index < count) (sums : Bytes) :
    loadAt index (Bytes.slice (first * sumWidth) (count * sumWidth) sums) =
      loadAt (first + index) sums := by
  apply loadAt_congr
  intro k hk
  have hk : k < 4 := hk
  simp only [Bytes.getElem?_slice, sumWidth]
  rw [if_pos (by omega)]
  congr 1
  omega

/-- A checksum that was laid over others is read back. -/
theorem loadAt_write {index : Nat} {sums : Bytes} (h : (index + 1) * sumWidth ≤ sums.length)
    (old : Bytes) : loadAt index (Bytes.write 0 sums old) = loadAt index sums := by
  apply loadAt_congr
  intro k hk
  have hk : k < 4 := hk
  simp only [sumWidth] at h ⊢
  rw [Bytes.getElem?_write, if_neg (by omega), if_pos (by omega), Nat.sub_zero]

end Stored

namespace Chunk

/-! ## Positions -/

theorem offset_natCast {chunk : Nat} (h : chunk < Word.half) (position : Nat) :
    offset chunk position = (position % chunk : Nat) := by
  have hsigned : Word.signed chunk = chunk := by
    apply Word.signed_eq_self
    simp only [Word.IsSigned, Word.half] at h ⊢
    omega
  rw [offset, hsigned, Int.tmod_eq_emod_of_nonneg (by omega)]
  rfl

theorem start_natCast {chunk : Nat} (h : chunk < Word.half) (position : Nat) :
    start chunk position = (position - position % chunk : Nat) := by
  have hle := Nat.mod_le position chunk
  rw [start, offset_natCast h]
  omega

/-! ## Counts -/

/-- An index below the quotient rounded up starts inside of the data. -/
theorem lt_div_iff {size chunk index : Nat} (hchunk : 0 < chunk) :
    index < (size + chunk - 1) / chunk ↔ index * chunk < size := by
  rw [Nat.lt_div_iff_mul_lt hchunk, Nat.mul_comm]
  omega

/-- An index below the count starts inside of the data. -/
theorem lt_count_iff {size chunk index : Nat} (hchunk : 0 < chunk)
    (h : size + chunk ≤ Word.count) : index < count size chunk ↔ index * chunk < size := by
  rw [count_eq (by omega), lt_div_iff hchunk]

/-! ## Parts -/

variable {a : Algorithm} {chunk first count size index : Nat} {sums data : Bytes}

/-- A chunk of a part is the chunk of the whole, unless the part ends inside of it. -/
theorem slice_part (h : (index + 1) * chunk ≤ size ∨ data.length ≤ first * chunk + size) :
    Bytes.slice (index * chunk) chunk (Bytes.slice (first * chunk) size data) =
      Bytes.slice ((first + index) * chunk) chunk data := by
  rw [Bytes.slice_slice, ← Nat.add_mul]
  obtain h | h := h
  · rw [Nat.min_eq_left]
    rw [Nat.add_mul] at h
    omega
  · by_cases hle : chunk ≤ size - index * chunk
    · rw [Nat.min_eq_left hle]
    · apply Bytes.slice_eq_of_end
      · rw [Nat.min_eq_right (by omega), Nat.add_mul]
        omega
      · rw [Nat.add_mul]
        omega

end Chunk

end ChunkGuard
