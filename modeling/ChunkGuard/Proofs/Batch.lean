import ChunkGuard.Proofs.Chunks
import ChunkGuard.Proofs.Replicas

/-!
# What a verified request brings

A verified request is answered with a batch: whole chunks, the last of them perhaps cut off by the
end of the data. The lemmas say how large a batch is and where it ends. By `Part.passes_iff` its
chunks pass against the checksums that come with them exactly if they pass where they are stored.
-/

namespace ChunkGuard.Replicas

variable {r : Replicas} {offset size capacity : Nat}

theorem batch_le_size (r : Replicas) (offset size capacity : Nat) :
    r.batch offset size capacity ≤ size := by
  have hchunks : min (size / r.chunk) (capacity / sumWidth) * r.chunk ≤ size / r.chunk * r.chunk :=
    Nat.mul_le_mul_right _ (Nat.min_le_left _ _)
  have hwhole := Nat.div_mul_le_self size r.chunk
  rw [batch]
  omega

theorem add_batch_le (h : offset ≤ r.size) (size capacity : Nat) :
    offset + r.batch offset size capacity ≤ r.size := by
  rw [batch]
  omega

theorem batch_pos (hoffset : offset < r.size)
    (hchunks : min (size / r.chunk) (capacity / sumWidth) ≠ 0) :
    0 < r.batch offset size capacity := by
  have hchunk : 0 < r.chunk := by
    refine Nat.pos_of_ne_zero fun hzero => hchunks ?_
    rw [hzero, Nat.div_zero, Nat.zero_min]
  have hsome : 0 < min (size / r.chunk) (capacity / sumWidth) * r.chunk :=
    Nat.mul_pos (Nat.pos_of_ne_zero hchunks) hchunk
  rw [batch]
  omega

/-- Data that comes is inside of the replica and no more than asked for, and so are its checksums. -/
theorem Answered.inside {request : Request} {data sums : Bytes}
    (h : r.Answered request (.ok (.chunk data sums))) :
    data.length ≤ request.size ∧ request.position + data.length ≤ r.size ∧
      ∀ capacity ∈ request.capacity,
        sums.length = Chunk.count data.length r.chunk * sumWidth ∧ sums.length ≤ capacity := by
  have hbytes : r.bytes.length = r.size := rfl
  cases h with
  | plain offset hposition hinside hnone =>
      rw [Bytes.length_slice, hposition, hnone]
      exact ⟨by omega, by omega, fun _ hcapacity => absurd hcapacity (Option.not_mem_none _)⟩
  | verified offset capacity hposition hinside hcapacity _ _ hstored =>
      have hend := add_batch_le (Nat.le_of_lt hinside) request.size capacity
      have hsize := r.batch_le_size offset request.size capacity
      have hlength : (Bytes.slice offset (r.batch offset request.size capacity) r.bytes).length =
          r.batch offset request.size capacity := by
        rw [Bytes.length_slice]
        omega
      rw [hlength, hposition, hcapacity]
      refine ⟨hsize, by omega, fun c hc => ?_⟩
      obtain rfl := Option.mem_some.mp hc
      have hcount : Chunk.count (r.batch offset request.size capacity) r.chunk ≤
          capacity / sumWidth :=
        Nat.le_trans (Chunk.count_le (Nat.min_le_left _ _)) (Nat.min_le_right _ _)
      have hroom := Nat.le_trans (Nat.mul_le_mul_right sumWidth hcount) (Nat.div_mul_le_self _ _)
      rw [Nat.add_mul] at hstored
      rw [Bytes.length_slice]
      omega

/-- A batch is as many whole chunks as fit, or it reaches the end of the data. -/
theorem batch_eq_or (h : offset ≤ r.size) (size capacity : Nat) :
    r.batch offset size capacity = min (size / r.chunk) (capacity / sumWidth) * r.chunk ∨
      offset + r.batch offset size capacity = r.size := by
  rw [batch]
  omega

/-- After a batch the next chunk starts, unless the data has ended. -/
theorem add_batch_mod (h : offset ≤ r.size) (haligned : offset % r.chunk = 0)
    (size capacity : Nat) :
    (offset + r.batch offset size capacity) % r.chunk = 0 ∨
      offset + r.batch offset size capacity = r.size := by
  obtain hwhole | hend := batch_eq_or h size capacity
  · left
    rw [hwhole, Nat.add_mul_mod_self_right]
    exact haligned
  · exact .inr hend

section Counts

variable (hchunk : 0 < r.chunk) (hfits : r.batch offset size capacity + r.chunk ≤ Word.count)
include hchunk hfits

/-- There is room for the checksums of a batch. -/
theorem count_batch_le :
    Chunk.count (r.batch offset size capacity) r.chunk ≤
      min (size / r.chunk) (capacity / sumWidth) := by
  apply Nat.le_of_not_lt
  intro hmore
  have hinside := (Chunk.lt_count_iff hchunk hfits).mp hmore
  rw [batch] at hinside
  omega

/-- Each chunk of a batch is whole, or the batch reaches the end of the data. -/
theorem chunk_batch (h : offset ≤ r.size) {index : Nat}
    (hindex : index < Chunk.count (r.batch offset size capacity) r.chunk) :
    (index + 1) * r.chunk ≤ r.batch offset size capacity ∨
      r.bytes.length ≤ offset + r.batch offset size capacity := by
  obtain hwhole | hend := batch_eq_or h size capacity
  · left
    have hle := Nat.lt_of_lt_of_le hindex (count_batch_le hchunk hfits)
    rw [hwhole]
    exact Nat.mul_le_mul_right _ hle
  · exact .inr (Nat.le_of_eq hend.symm)

/-- The chunks of a batch are among those of the data. -/
theorem count_batch_add_le (hoffset : offset ≤ r.size) (haligned : offset % r.chunk = 0)
    (hsize : r.size + r.chunk ≤ Word.count) :
    offset / r.chunk + Chunk.count (r.batch offset size capacity) r.chunk ≤
      Chunk.count r.size r.chunk ∨ Chunk.count (r.batch offset size capacity) r.chunk = 0 := by
  have hstart : offset / r.chunk * r.chunk = offset :=
    Nat.div_mul_cancel (Nat.dvd_of_mod_eq_zero haligned)
  cases hcount : Chunk.count (r.batch offset size capacity) r.chunk with
  | zero => exact .inr rfl
  | succ last =>
      left
      have hlast : last * r.chunk < r.batch offset size capacity :=
        (Chunk.lt_count_iff hchunk hfits).mp (by omega)
      have hend := add_batch_le hoffset size capacity
      have hinside : (offset / r.chunk + last) * r.chunk < r.size := by
        rw [Nat.add_mul, hstart]
        omega
      exact (Chunk.lt_count_iff hchunk hsize).mpr hinside

end Counts

/-! ## Answers with data -/

/-- A request for checksums at the start of a chunk is answered with a batch, if there is room for a
chunk and the sidecar has the checksums of the batch. -/
theorem Answered.eq_batch {request : Request} {answer : Except StreamError Reply}
    (h : r.Answered request answer) (hposition : request.position = offset)
    (hinside : offset < r.size) (hcapacity : request.capacity = some capacity)
    (hhalf : r.chunk < Word.half) (haligned : offset % r.chunk = 0)
    (hsome : min (request.size / r.chunk) (capacity / sumWidth) ≠ 0)
    (hstored : (offset / r.chunk + Chunk.count (r.batch offset request.size capacity) r.chunk) *
      sumWidth ≤ r.sidecar.length) :
    answer = .ok (.chunk (Bytes.slice offset (r.batch offset request.size capacity) r.bytes)
      (Bytes.slice (offset / r.chunk * sumWidth)
        (Chunk.count (r.batch offset request.size capacity) r.chunk * sumWidth) r.sidecar)) := by
  cases h with
  | outside hout => omega
  | plain p hp _ hnone =>
      rw [hcapacity] at hnone
      cases hnone
  | unaligned p c hp _ _ hunaligned =>
      obtain rfl : offset = p := by omega
      rw [Chunk.offset_natCast hhalf, haligned] at hunaligned
      exact absurd rfl hunaligned
  | belowChunk p c hp _ hc _ hnone =>
      rw [hcapacity] at hc
      cases hc
      exact absurd hnone hsome
  | malformed p c hp _ hc _ _ hshort =>
      obtain rfl : offset = p := by omega
      rw [hcapacity] at hc
      cases hc
      exact absurd hshort (Nat.not_lt_of_le hstored)
  | verified p c hp _ hc =>
      obtain rfl : offset = p := by omega
      rw [hcapacity] at hc
      cases hc
      rfl

/-- An answer with data is a part of the current replica's data. If checksums were asked for, it
begins with a chunk, it came with the checksums of its chunks, and these stand for what they are
compared with in the replica itself. -/
structure Part (r : Replicas) (request : Request) (p : Nat) (data sums : Bytes) : Prop where
  position : request.position = p
  data_eq : data = Bytes.slice p data.length r.bytes
  pos : 0 < request.size → 0 < data.length
  le_size : data.length ≤ request.size
  inside : p + data.length ≤ r.size
  aligned : request.capacity.isSome → p % r.chunk = 0
  length_sums : request.capacity.isSome →
    sums.length = Chunk.count data.length r.chunk * sumWidth
  stored : request.capacity.isSome →
    (p / r.chunk + Chunk.count data.length r.chunk) * sumWidth ≤ r.sidecar.length
  chunk_eq : request.capacity.isSome → ∀ index < Chunk.count data.length r.chunk,
    Bytes.slice (index * r.chunk) r.chunk data =
      Bytes.slice ((p / r.chunk + index) * r.chunk) r.chunk r.bytes
  load_eq : request.capacity.isSome → ∀ index < Chunk.count data.length r.chunk,
    Stored.loadAt index sums = Stored.loadAt (p / r.chunk + index) r.sidecar

/-- Every answer with data is such a part, as long as no word runs over. -/
theorem Answered.part {request : Request} {data sums : Bytes}
    (h : r.Answered request (.ok (.chunk data sums))) (hchunk : 0 < r.chunk)
    (hhalf : r.chunk < Word.half) (hfits : min request.size r.size + r.chunk ≤ Word.count) :
    ∃ p, r.Part request p data sums := by
  have hbytes : r.bytes.length = r.size := rfl
  cases h with
  | plain p hposition hinside hcapacity =>
      have hlength : (Bytes.slice p (min request.size (r.size - p)) r.bytes).length =
          min request.size (r.size - p) := by
        rw [Bytes.length_slice]
        omega
      have hnone : ¬ request.capacity.isSome := by
        rw [hcapacity]
        exact Bool.false_ne_true
      refine ⟨p, hposition, ?_, fun hpos => ?_, ?_, ?_, fun hsome => absurd hsome hnone,
        fun hsome => absurd hsome hnone, fun hsome => absurd hsome hnone,
        fun hsome => absurd hsome hnone, fun hsome => absurd hsome hnone⟩
      · rw [hlength]
      · rw [hlength]
        omega
      · rw [hlength]
        omega
      · rw [hlength]
        omega
  | verified p capacity hposition hinside hcapacity haligned hsome hstored =>
      have hle := Nat.le_of_lt hinside
      have hbatch := add_batch_le hle request.size capacity
      have hsize := r.batch_le_size p request.size capacity
      have hlength : (Bytes.slice p (r.batch p request.size capacity) r.bytes).length =
          r.batch p request.size capacity := by
        rw [Bytes.length_slice]
        omega
      -- The position is the start of a chunk, so the chunks that came are chunks of the data.
      have hmod : p % r.chunk = 0 := by
        rw [Chunk.offset_natCast hhalf] at haligned
        omega
      have hstart : p / r.chunk * r.chunk = p :=
        Nat.div_mul_cancel (Nat.dvd_of_mod_eq_zero hmod)
      have hfits : r.batch p request.size capacity + r.chunk ≤ Word.count := by omega
      refine ⟨p, hposition, ?_, fun _ => ?_, ?_, ?_, fun _ => hmod, fun _ => ?_, fun _ => ?_,
        fun _ index hindex => ?_, fun _ index hindex => ?_⟩
      · rw [hlength]
      · rw [hlength]
        exact batch_pos hinside hsome
      · rw [hlength]
        exact hsize
      · rw [hlength]
        exact hbatch
      · rw [hlength, Bytes.length_slice]
        rw [Nat.add_mul] at hstored
        omega
      · rw [hlength]
        exact hstored
      · rw [hlength] at hindex
        have hwhole := chunk_batch hchunk hfits hle hindex
        rw [← hstart] at hwhole ⊢
        have hslice := Chunk.slice_part hwhole
        rw [hstart] at hslice ⊢
        exact hslice
      · rw [hlength] at hindex
        exact Stored.loadAt_slice hindex r.sidecar

namespace Part

variable {request : Request} {p index : Nat} {data sums : Bytes}

/-- The chunks that came pass as they do in the replica. -/
theorem passes_iff (h : r.Part request p data sums) (hsome : request.capacity.isSome)
    (hindex : index < Chunk.count data.length r.chunk) (a : Algorithm) :
    Chunk.Passes a r.chunk sums data index ↔
      Chunk.Passes a r.chunk r.sidecar r.bytes (p / r.chunk + index) := by
  rw [Chunk.Passes, Chunk.Passes, h.chunk_eq hsome index hindex, h.load_eq hsome index hindex]

/-- What is reported of a chunk that came is what there is to report of it in the replica. -/
theorem mismatchAt_eq (h : r.Part request p data sums) (hsome : request.capacity.isSome)
    (hindex : index < Chunk.count data.length r.chunk) (a : Algorithm) :
    Chunk.mismatchAt a r.chunk sums data p index =
      Chunk.mismatchAt a r.chunk r.sidecar r.bytes 0 (p / r.chunk + index) := by
  have hstart : p / r.chunk * r.chunk = p :=
    Nat.div_mul_cancel (Nat.dvd_of_mod_eq_zero (h.aligned hsome))
  have hposition : (p : Int) + (index * r.chunk : Nat) =
      0 + ((p / r.chunk + index) * r.chunk : Nat) := by
    rw [Nat.add_mul, hstart]
    omega
  rw [Chunk.mismatchAt, Chunk.mismatchAt, h.chunk_eq hsome index hindex,
    h.load_eq hsome index hindex, hposition]

end Part

end ChunkGuard.Replicas
