import ChunkGuard.Proofs.Batch
import ChunkGuard.Source.Buffered

/-!
# What a request puts into the buffers of its caller

A request to replicas is answered by where it starts, by whether checksums are asked for, by the room
for chunks and for their checksums, and by what the sidecar holds (`Replicas.readInto_serves`). An
answer with data lies over the starts of the lent buffers, up to the number that is given, and counts
as one read of each storage that it came from. Every other answer leaves buffers and replicas as they
were. No word runs over on the way, so a sidecar that is too short is always noticed before anything
is read.
-/

namespace ChunkGuard.Replicas

variable {l : Lending Replicas} {position : Int} {offset size capacity : Nat}

theorem request_size : (l.request position size capacity).size = size := rfl

theorem request_capacity {sums : Bytes} (h : l.sums = some sums) :
    (l.request position size capacity).capacity = some capacity := by
  rw [Lending.request, h, Option.map_some]

/-- An answer to a request is given to its caller, laid over the buffers. -/
theorem readInto_of_answered {reply : Reply}
    (h : l.source.Answered (l.request position size capacity) (.ok reply)) :
    source.readInto position size capacity l =
      .ok reply.count (Lending.filled
        { l with source := l.source.served (l.request position size capacity) (.ok reply) } reply) :=
  Source.readInto_eq_ok h.read_eq

/-- An error is passed on, and nothing was touched. -/
theorem readInto_of_refused {e : StreamError}
    (h : l.source.Answered (l.request position size capacity) (.error e)) :
    source.readInto position size capacity l = .error e l :=
  Source.readInto_eq_error h.read_eq

/-- Outside of the data there is nothing to read. -/
theorem readInto_of_outside (h : position < 0 ∨ (l.source.size : Int) ≤ position) :
    source.readInto position size capacity l = .ok (-1) l :=
  readInto_of_answered (.outside h)

/-- Without a buffer for checksums, any part of the data is read, as far as there is data and room. -/
theorem readInto_of_plain (hinside : offset < l.source.size) (hsums : l.sums = none) :
    source.readInto offset size capacity l =
      .ok (min size (l.source.size - offset) : Nat)
        { source := l.source.reading 1 0
          data := Bytes.slice offset (min size (l.source.size - offset)) l.source.bytes ++
            l.data.drop (min size (l.source.size - offset))
          sums := none } := by
  have hlength : (Bytes.slice offset (min size (l.source.size - offset)) l.source.bytes).length =
      min size (l.source.size - offset) := by
    have hbytes : l.source.bytes.length = l.source.size := rfl
    rw [Bytes.length_slice]
    omega
  have hcapacity : (l.request offset size capacity).capacity = none := by
    rw [Lending.request, hsums, Option.map_none]
  rw [readInto_of_answered (.plain offset rfl hinside hcapacity)]
  simp only [Lending.filled, served, request_size, hcapacity, hsums, Option.map_none,
    Bytes.write_zero, hlength, Reply.count]
  rfl

/-- No answer is that a storage was read past its end. -/
theorem readInto_ne_pastEnd {medium : Medium} {t : Lending Replicas} :
    source.readInto position size capacity l ≠ .error (.pastEnd medium) t := by
  obtain ⟨answer, hanswer⟩ := l.source.exists_answered (l.request position size capacity)
  cases answer with
  | ok reply =>
      rw [readInto_of_answered hanswer]
      exact nofun
  | error e =>
      rw [readInto_of_refused hanswer]
      intro heq
      cases heq
      cases hanswer

section Verified

variable {sums : Bytes} (hhalf : l.source.chunk < Word.half) (hinside : offset < l.source.size)
  (hsums : l.sums = some sums)
include hhalf hinside hsums

/-- Checksums are only given of whole chunks, from the start of one on. -/
theorem readInto_of_unaligned (hunaligned : offset % l.source.chunk ≠ 0) :
    source.readInto offset size capacity l = .error .unaligned l := by
  refine readInto_of_refused (.unaligned offset capacity rfl hinside (request_capacity hsums) ?_)
  rw [Chunk.offset_natCast hhalf]
  exact Int.ofNat_ne_zero.mpr hunaligned

/-- There has to be room for a chunk and for its checksum. -/
theorem readInto_of_belowChunk (haligned : offset % l.source.chunk = 0)
    (hnone : min (size / l.source.chunk) (capacity / sumWidth) = 0) :
    source.readInto offset size capacity l = .error .belowChunk l := by
  refine readInto_of_refused (.belowChunk offset capacity rfl hinside (request_capacity hsums) ?_ hnone)
  rw [Chunk.offset_natCast hhalf, haligned]
  rfl

/-- The sidecar has to have the checksums of all chunks asked for. -/
theorem readInto_of_malformed (haligned : offset % l.source.chunk = 0)
    (hsome : min (size / l.source.chunk) (capacity / sumWidth) ≠ 0)
    (hshort : l.source.sidecar.length < (offset / l.source.chunk +
      Chunk.count (l.source.batch offset size capacity) l.source.chunk) * sumWidth) :
    source.readInto offset size capacity l = .error .malformed l := by
  refine readInto_of_refused
    (.malformed offset capacity rfl hinside (request_capacity hsums) ?_ hsome hshort)
  rw [Chunk.offset_natCast hhalf, haligned]
  rfl

/-- A batch and its checksums lie over the starts of the buffers. -/
theorem readInto_of_verified (haligned : offset % l.source.chunk = 0)
    (hsome : min (size / l.source.chunk) (capacity / sumWidth) ≠ 0)
    (hstored : (offset / l.source.chunk +
      Chunk.count (l.source.batch offset size capacity) l.source.chunk) * sumWidth ≤
        l.source.sidecar.length) :
    source.readInto offset size capacity l =
      .ok (l.source.batch offset size capacity : Nat)
        { source := l.source.reading 1 1
          data := Bytes.slice offset (l.source.batch offset size capacity) l.source.bytes ++
            l.data.drop (l.source.batch offset size capacity)
          sums := some (Bytes.slice (offset / l.source.chunk * sumWidth)
              (Chunk.count (l.source.batch offset size capacity) l.source.chunk * sumWidth)
              l.source.sidecar ++
            sums.drop
              (Chunk.count (l.source.batch offset size capacity) l.source.chunk * sumWidth)) } := by
  have hcapacity : (l.request offset size capacity).capacity = some capacity :=
    request_capacity hsums
  have halign : Chunk.offset l.source.chunk offset = 0 := by
    rw [Chunk.offset_natCast hhalf, haligned]
    rfl
  have hlength : (Bytes.slice offset (l.source.batch offset size capacity) l.source.bytes).length =
      l.source.batch offset size capacity := by
    have hbytes : l.source.bytes.length = l.source.size := rfl
    have hbatch := add_batch_le (Nat.le_of_lt hinside) size capacity
    rw [Bytes.length_slice]
    omega
  have hlength' : (Bytes.slice (offset / l.source.chunk * sumWidth)
      (Chunk.count (l.source.batch offset size capacity) l.source.chunk * sumWidth)
      l.source.sidecar).length =
        Chunk.count (l.source.batch offset size capacity) l.source.chunk * sumWidth := by
    rw [Nat.add_mul] at hstored
    rw [Bytes.length_slice]
    omega
  rw [readInto_of_answered (.verified offset capacity rfl hinside hcapacity halign hsome hstored)]
  simp only [Lending.filled, served, request_size, hcapacity, hsums, Option.map_some,
    Bytes.write_zero, hlength, hlength', Reply.count]
  rfl

end Verified

/-- The chunks up to the end of a batch are no more than the bytes of the data. -/
theorem div_add_count_batch_le {r : Replicas} (hchunk : 0 < r.chunk)
    (hfits : r.size + r.chunk ≤ Word.count) (hinside : offset < r.size)
    (haligned : offset % r.chunk = 0) :
    offset / r.chunk + Chunk.count (r.batch offset size capacity) r.chunk ≤ r.size := by
  have hbatch := add_batch_le (Nat.le_of_lt hinside) size capacity
  have hfirst : offset / r.chunk ≤ offset := Nat.div_le_self offset r.chunk
  have hcount : offset / r.chunk + Chunk.count (r.batch offset size capacity) r.chunk ≤
      Chunk.count r.size r.chunk ∨ Chunk.count (r.batch offset size capacity) r.chunk = 0 :=
    count_batch_add_le hchunk (by omega) (Nat.le_of_lt hinside) haligned hfits
  obtain hle | hzero := hcount
  · refine Nat.le_trans hle (Nat.le_of_not_lt fun hmore => ?_)
    have hlast := (Chunk.lt_count_iff hchunk hfits).mp hmore
    exact absurd (Nat.le_mul_of_pos_right r.size hchunk) (Nat.not_le_of_lt hlast)
  · omega

/-- A request to replicas whose data is shorter than 2^62 bytes, into buffers that have the room they
are said to have. Before the data and after it the answer is -1. Without a buffer for checksums it is as
much of the data as there is and fits. With one, it is as many whole chunks as fit with their checksums,
or all up to the end of the data, from the start of a chunk on; otherwise the request is refused. What
was given lies over the starts of the buffers, each storage it came from was read once and inside of its
end, and any other answer leaves all as it was. All numbers compared on the way are words. -/
theorem readInto_serves (l : Lending Replicas) (position : Int) (size capacity : Nat)
    (hchunk : 0 < l.source.chunk) (hhalf : l.source.chunk < Word.half)
    (hdata : l.source.size < 0x4000000000000000) (hsize : size < Word.count)
    (hroom : size ≤ l.data.length) (hroom' : ∀ sums ∈ l.sums, capacity ≤ sums.length) :
    (position < 0 ∨ (l.source.size : Int) ≤ position →
      source.readInto position size capacity l = .ok (-1) l) ∧
    (∀ offset : Nat, position = offset → offset < l.source.size → l.sums = none →
      let n := min size (l.source.size - offset)
      source.readInto position size capacity l =
        .ok n
          { source := l.source.reading 1 0
            data := Bytes.slice offset n l.source.bytes ++ l.data.drop n
            sums := none } ∧
      (Bytes.slice offset n l.source.bytes).length = n ∧ n ≤ l.data.length) ∧
    (∀ (offset : Nat) (sums : Bytes),
      position = offset → offset < l.source.size → l.sums = some sums →
      let chunk := l.source.chunk
      let chunks := min (size / chunk) (capacity / 4)
      let n := min (chunks * chunk) (l.source.size - offset)
      let count := (n + chunk - 1) / chunk
      let first := offset / chunk
      (offset % chunk ≠ 0 ∨ chunks = 0 →
        ∃ e, source.readInto position size capacity l = .error e l ∧
          e.report.code = .invalidArgument) ∧
      (offset % chunk = 0 → chunks ≠ 0 →
        (l.source.sidecar.length < 4 * (first + count) →
          ∃ e, source.readInto position size capacity l = .error e l ∧
            e.report.code = .invalidStorageFormat) ∧
        (4 * (first + count) ≤ l.source.sidecar.length →
          source.readInto position size capacity l =
            .ok n
              { source := l.source.reading 1 1
                data := Bytes.slice offset n l.source.bytes ++ l.data.drop n
                sums := some (Bytes.slice (4 * first) (4 * count) l.source.sidecar ++
                  sums.drop (4 * count)) } ∧
          (Bytes.slice offset n l.source.bytes).length = n ∧
          (Bytes.slice (4 * first) (4 * count) l.source.sidecar).length = 4 * count ∧
          0 < n ∧ (n % chunk = 0 ∨ offset + n = l.source.size) ∧ n ≤ size ∧
          n ≤ l.data.length ∧ 4 * count ≤ capacity ∧ 4 * count ≤ sums.length) ∧
        4 * (first + count) < Word.count ∧ n + chunk - 1 < Word.count ∧
        chunks * chunk < Word.count)) ∧
    ∀ medium t, source.readInto position size capacity l ≠ .error (.pastEnd medium) t := by
  have hfits : l.source.size + l.source.chunk ≤ Word.count := by
    have hhalf : l.source.chunk < 0x8000000000000000 := hhalf
    show l.source.size + l.source.chunk ≤ 0x10000000000000000
    omega
  refine ⟨readInto_of_outside, ?plain, ?verified, fun medium t => readInto_ne_pastEnd⟩
  case plain =>
    rintro offset rfl hinside hnone n
    have hbytes : l.source.bytes.length = l.source.size := rfl
    refine ⟨readInto_of_plain hinside hnone, ?_, ?_⟩
    · rw [Bytes.length_slice]
      omega
    · omega
  case verified =>
    rintro offset sums rfl hinside hsome chunk chunks n count first
    have hbatch : l.source.batch offset size capacity = n := rfl
    have hend := add_batch_le (Nat.le_of_lt hinside) size capacity
    rw [hbatch] at hend
    have hcount : Chunk.count n chunk = count := Chunk.count_eq (by omega)
    refine ⟨fun hrefused => ?_, fun haligned hchunks => ⟨fun hshort => ?_, fun hstored => ?_, ?_⟩⟩
    · by_cases haligned : offset % chunk = 0
      · have hnone := hrefused.resolve_left (absurd haligned)
        exact ⟨_, readInto_of_belowChunk hhalf hinside hsome haligned hnone, rfl⟩
      · exact ⟨_, readInto_of_unaligned hhalf hinside hsome haligned, rfl⟩
    · refine ⟨_, readInto_of_malformed hhalf hinside hsome haligned hchunks ?_, rfl⟩
      rw [hbatch, hcount, Nat.mul_comm]
      exact hshort
    · have hread := readInto_of_verified hhalf hinside hsome haligned hchunks (by
        rw [hbatch, hcount, Nat.mul_comm]
        exact hstored)
      rw [hbatch, hcount, Nat.mul_comm _ sumWidth, Nat.mul_comm _ sumWidth] at hread
      have hroom' := hroom' sums hsome
      have hle : n ≤ size := batch_le_size l.source offset size capacity
      have hle' : count ≤ chunks := hcount ▸ count_batch_le hchunk (by omega)
      have hbytes : l.source.bytes.length = l.source.size := rfl
      refine ⟨hread, ?_, ?_, batch_pos hinside hchunks, ?_, hle, ?_, ?_, ?_⟩
      · rw [Bytes.length_slice]
        omega
      · rw [Bytes.length_slice]
        omega
      · refine (batch_eq_or (Nat.le_of_lt hinside) size capacity).imp_left fun hwhole => ?_
        rw [← hbatch, hwhole]
        exact Nat.mul_mod_left _ _
      · omega
      · omega
      · omega
    · have hstored : first + Chunk.count (l.source.batch offset size capacity) chunk ≤
          l.source.size :=
        div_add_count_batch_le hchunk hfits hinside haligned
      rw [hbatch, hcount] at hstored
      have hword : 4 * (first + count) ≤ 4 * l.source.size := Nat.mul_le_mul_left 4 hstored
      have hwhole : chunks * chunk ≤ size :=
        Nat.le_trans (Nat.mul_le_mul_right _ (Nat.min_le_left _ _)) (Nat.div_mul_le_self size chunk)
      refine ⟨?_, ?_, ?_⟩
      · exact Nat.lt_of_le_of_lt hword (show 4 * l.source.size < 0x10000000000000000 by omega)
      · omega
      · omega

/-- Of ten bytes in chunks of four, a request for eleven from the second chunk on, with room for two
checksums, is answered with the second chunk and the short third one. -/
theorem readInto_serves_short_chunk :
    let r : Replicas :=
      { list := [⟨{ bytes := [1, 2, 3, 4, 5, 6, 7, 8, 9, 10] },
          { bytes := [11, 12, 13, 14, 15, 16, 17, 18, 19, 20, 21, 22] }⟩]
        chunk := 4 }
    let l : Lending Replicas := ⟨r, List.replicate 12 0xCC, some (List.replicate 9 0xCC)⟩
    (0 < r.chunk ∧ r.chunk < Word.half ∧ r.size < 0x4000000000000000 ∧ 11 < Word.count ∧
      11 ≤ l.data.length ∧ ∀ sums ∈ l.sums, 9 ≤ sums.length) ∧
    source.readInto 4 11 9 l =
      .ok 6
        { source := r.reading 1 1
          data := [5, 6, 7, 8, 9, 10] ++ List.replicate 6 0xCC
          sums := some ([15, 16, 17, 18, 19, 20, 21, 22] ++ [0xCC]) } := by
  intro r l
  have hsums : ∀ sums ∈ l.sums, 9 ≤ sums.length := by decide
  refine ⟨⟨by decide, by decide, by decide, by decide, by decide, hsums⟩, ?_⟩
  have hserves := readInto_serves l 4 11 9 (by decide) (by decide) (by decide) (by decide)
    (by decide) hsums
  obtain ⟨-, -, hverified, -⟩ := hserves
  have hread := (((hverified 4 _ rfl (by decide) rfl).2 (by decide) (by decide)).2.1 (by decide)).1
  exact hread.trans (congr (congrArg EStateM.Result.ok (by decide)) (by decide))

end ChunkGuard.Replicas
