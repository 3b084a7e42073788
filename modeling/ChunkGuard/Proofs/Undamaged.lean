import ChunkGuard.Proofs.Batch
import ChunkGuard.Proofs.Sidecar
import ChunkGuard.Proofs.Verdict

/-!
# Undamaged replicas

Replicas that all hold the same data with the sidecar written for it (`Replicas.Hold`) answer a
request with a part of the data or the end of it (`Replicas.Supplied`). A fetch from them needs
one attempt (`Replicas.Hold.ends_fetchWith`).
-/

namespace ChunkGuard

namespace Replicas

/-- All replicas hold the same data and the sidecar that belongs to it. -/
structure Hold (a : Algorithm) (chunk : Nat) (data : Bytes) (r : Replicas) : Prop where
  inOrder : r.InOrder
  chunk_eq : r.chunk = chunk
  chunk_pos : 0 < chunk
  small : data.length < Word.half ∧ chunk < Word.half
  data_eq : ∀ i < r.list.length, (r.get i).data.bytes = data
  sums_eq : ∀ i < r.list.length, (r.get i).sums.bytes = Sidecar.ofBytes a chunk data

/-- The bytes of a request that was verified: they end with a chunk or with the data, and came
with the checksums of their chunks, all of which pass. -/
structure Checked (a : Algorithm) (chunk : Nat) (data : Bytes) (position n : Nat)
    (bytes sums : Bytes) : Prop where
  whole : (position + n) % chunk = 0 ∨ position + n = data.length
  count_le : Chunk.count n chunk ≤ chunksPerRead
  stored : Chunk.count n chunk * sumWidth ≤ sums.length
  passes : ∀ index < Chunk.count n chunk, Chunk.Passes a chunk sums bytes index

/-- What undamaged replicas answer to a request at a position. -/
inductive Supplied (a : Algorithm) (chunk : Nat) (data : Bytes) (position : Nat)
    (request : Request) : Except StreamError Reply → Prop where
  | ended :
      data.length ≤ position → Supplied a chunk data position request (.ok (.ended 1))
  | part (n : Nat) (bytes sums : Bytes) :
      bytes = Bytes.slice position n data → 0 < n → n ≤ request.size →
      position + n ≤ data.length →
      (request.capacity.isSome → Checked a chunk data position n bytes sums) →
      Supplied a chunk data position request (.ok (.chunk bytes sums))

namespace Hold

variable {a : Algorithm} {chunk : Nat} {data : Bytes} {r r' : Replicas}

theorem bytes (h : r.Hold a chunk data) : r.bytes = data := h.data_eq _ h.inOrder.current_lt

theorem sidecar (h : r.Hold a chunk data) : r.sidecar = Sidecar.ofBytes a chunk data :=
  h.sums_eq _ h.inOrder.current_lt

theorem size (h : r.Hold a chunk data) : r.size = data.length := congrArg List.length h.bytes

theorem reread (h : r.Hold a chunk data) (hr : r.Reread r') : r'.Hold a chunk data where
  inOrder := hr.inOrder h.inOrder
  chunk_eq := hr.chunk.trans h.chunk_eq
  chunk_pos := h.chunk_pos
  small := h.small
  data_eq i hi := (hr.data i).trans (h.data_eq i (hr.length ▸ hi))
  sums_eq i hi := (hr.sums i).trans (h.sums_eq i (hr.length ▸ hi))

theorem switch (h : r.Hold a chunk data) (position : Int) :
    (r.switch position).2.Hold a chunk data := by
  refine ⟨h.inOrder.switch position, (r.chunk_switch position).trans h.chunk_eq, h.chunk_pos,
    h.small, fun i hi => ?_, fun i hi => ?_⟩
  · rw [get_switch]
    exact h.data_eq i (r.list_switch position ▸ hi)
  · rw [get_switch]
    exact h.sums_eq i (r.list_switch position ▸ hi)

/-- Every batch is small enough to be counted in chunks. -/
theorem fits (h : r.Hold a chunk data) (offset size capacity : Nat) :
    r.batch offset size capacity + r.chunk ≤ Word.count := by
  have hsmall := h.small
  have hhalf : Word.half + Word.half = Word.count := rfl
  have hbatch : r.batch offset size capacity ≤ r.size := by
    rw [batch]
    omega
  rw [h.size] at hbatch
  rw [h.chunk_eq]
  omega

/-- The sidecar has the checksums of every batch. -/
theorem stored (h : r.Hold a chunk data) {offset : Nat} (hinside : offset < r.size)
    (haligned : offset % r.chunk = 0) (size capacity : Nat) :
    (offset / r.chunk + Chunk.count (r.batch offset size capacity) r.chunk) * sumWidth ≤
      r.sidecar.length := by
  have hchunk : 0 < r.chunk := h.chunk_eq ▸ h.chunk_pos
  have hroom : r.size + r.chunk ≤ Word.count := by
    have hsmall := h.small
    have hhalf : Word.half + Word.half = Word.count := rfl
    rw [h.size, h.chunk_eq]
    omega
  have hcount := count_batch_add_le hchunk (h.fits offset size capacity) (Nat.le_of_lt hinside)
    haligned hroom
  have hfirst : offset / r.chunk < Chunk.count r.size r.chunk :=
    (Chunk.lt_count_iff hchunk hroom).mpr
      (Nat.lt_of_le_of_lt (Nat.div_mul_le_self _ _) hinside)
  rw [h.sidecar, Sidecar.length_ofBytes, Nat.mul_comm, ← h.size, ← h.chunk_eq]
  exact Nat.mul_le_mul_left _ (by omega)

/-- A part of undamaged replicas passes. -/
theorem checked (h : r.Hold a chunk data) {request : Request} {p : Nat} {bytes sums : Bytes}
    (hpart : r.Part request p bytes sums) (hsome : request.capacity.isSome)
    (hwhole : (p + bytes.length) % r.chunk = 0 ∨ p + bytes.length = r.size)
    (hcount : Chunk.count bytes.length r.chunk ≤ chunksPerRead) :
    Checked a chunk data p bytes.length bytes sums := by
  have hpos := h.chunk_pos
  have hsmall := h.small
  have hhalf : Word.half + Word.half = Word.count := rfl
  have hinside := hpart.inside
  have haligned := hpart.aligned hsome
  have hlength := hpart.length_sums hsome
  have hpasses := fun index (hindex : index < Chunk.count bytes.length r.chunk) =>
    hpart.passes_iff hsome hindex a
  rw [h.size] at hwhole hinside
  rw [h.sidecar, h.bytes] at hpasses
  rw [h.chunk_eq] at hwhole hcount haligned hlength hpasses
  refine ⟨hwhole, hcount, Nat.le_of_eq hlength.symm, fun index hindex => ?_⟩
  refine (hpasses index hindex).mpr (Sidecar.passes_ofBytes ?_)
  have hstart : p / chunk * chunk = p := Nat.div_mul_cancel (Nat.dvd_of_mod_eq_zero haligned)
  have hfirst := (Chunk.lt_count_iff hpos (by omega)).mp hindex
  rw [Chunk.lt_count_iff hpos (by omega), Nat.add_mul, hstart]
  omega

/-- Undamaged replicas answer no request with an error, and none with chunks that fail, as long as
verified requests are made at the starts of chunks and have room for one. -/
theorem supplied (h : r.Hold a chunk data) {position : Nat} {request : Request}
    (hposition : request.position = position) (hsize : 0 < request.size)
    (hverified : ∀ capacity, request.capacity = some capacity →
      capacity = chunksPerRead * sumWidth ∧ chunk ≤ request.size ∧
        (position % chunk = 0 ∨ data.length ≤ position))
    {reply : Except StreamError Reply} (hreply : r.Answered request reply) :
    Supplied a chunk data position request reply := by
  have hchunk : 0 < r.chunk := h.chunk_eq ▸ h.chunk_pos
  have hhalf : r.chunk < Word.half ∧ r.size + r.chunk ≤ Word.count := by
    have hsmall := h.small
    have hhalf : Word.half + Word.half = Word.count := rfl
    rw [h.chunk_eq, h.size]
    omega
  have haligned : ∀ capacity, request.capacity = some capacity → position < r.size →
      position % r.chunk = 0 := by
    intro capacity hcapacity hinside
    rw [h.size] at hinside
    obtain ⟨-, -, hmod | hend⟩ := hverified capacity hcapacity
    · rw [h.chunk_eq]
      exact hmod
    · exact absurd hinside (Nat.not_lt_of_le hend)
  have hmany : ∀ capacity, request.capacity = some capacity →
      min (request.size / r.chunk) (capacity / sumWidth) ≤ chunksPerRead ∧
        min (request.size / r.chunk) (capacity / sumWidth) ≠ 0 := by
    intro capacity hcapacity
    obtain ⟨rfl, hone, -⟩ := hverified capacity hcapacity
    have hone : 0 < request.size / r.chunk := by
      rw [h.chunk_eq]
      exact Nat.div_pos hone h.chunk_pos
    have hdiv : chunksPerRead * sumWidth / sumWidth = chunksPerRead := rfl
    have hpos : 0 < chunksPerRead := by decide
    omega
  cases hreply with
  | outside hout =>
      refine .ended ?_
      rw [h.size] at hout
      omega
  | plain offset hoffset hinside hcapacity =>
      obtain rfl : position = offset := by omega
      rw [h.size] at hinside ⊢
      rw [h.bytes]
      refine .part _ _ _ rfl (by omega) (by omega) (by omega) fun hsome => ?_
      rw [hcapacity] at hsome
      cases hsome
  | unaligned offset capacity hoffset hinside hcapacity hunaligned =>
      obtain rfl : position = offset := by omega
      -- A verified request is made at the start of a chunk.
      rw [Chunk.offset_natCast hhalf.1, haligned capacity hcapacity hinside] at hunaligned
      exact absurd rfl hunaligned
  | belowChunk offset capacity hoffset hinside hcapacity _ hnone =>
      exact absurd hnone (hmany capacity hcapacity).2
  | malformed offset capacity hoffset hinside hcapacity _ _ hshort =>
      obtain rfl : position = offset := by omega
      have hstored := h.stored hinside (haligned capacity hcapacity hinside) request.size capacity
      exact absurd hshort (Nat.not_lt_of_le hstored)
  | verified offset capacity hoffset hinside hcapacity hmod hsome hstored =>
      obtain rfl : position = offset := by omega
      have hanswer := Answered.verified position capacity hoffset hinside hcapacity hmod hsome hstored
      obtain ⟨p, hpart⟩ := hanswer.part hchunk hhalf.1 (by omega)
      obtain rfl : position = p := Int.ofNat_inj.mp (hoffset.symm.trans hpart.position)
      have hle := Nat.le_of_lt hinside
      have hend := add_batch_mod hle (haligned capacity hcapacity hinside) request.size capacity
      have hcount := Nat.le_trans (count_batch_le hchunk (h.fits position request.size capacity))
        (hmany capacity hcapacity).1
      have hlength : (Bytes.slice position (r.batch position request.size capacity) r.bytes).length =
          r.batch position request.size capacity := by
        have hinside' := add_batch_le hle request.size capacity
        rw [Bytes.length_slice]
        exact Nat.min_eq_left (Nat.le_sub_of_add_le' hinside')
      rw [← hlength] at hend hcount
      exact .part _ _ _ (h.bytes ▸ hpart.data_eq) (hpart.pos hsize) hpart.le_size
        (h.size ▸ hpart.inside) fun hsome => h.checked hpart hsome hend hcount

end Hold

end Replicas

/-! ## Fetching -/

namespace Stream

variable {a : Algorithm} {chunk : Nat} {data : Bytes} {s t : Stream}

/-- Where the stream verifies, its chunks and its checksum are those of the sidecars. -/
structure Fits (a : Algorithm) (chunk : Nat) (s : Stream) : Prop where
  ready : s.Ready
  maxChunk_pos : 0 < s.maxChunk
  attempts_pos : 0 < s.attempts
  maxChunk_eq : s.needsChecksum → s.maxChunk = chunk
  checksum_eq : s.needsChecksum → s.checksum = some (Checksum.ofAlgorithm a)
  room : s.needsChecksum → s.sums.length = chunksPerRead * sumWidth

theorem Fits.alike (h : s.Fits a chunk) (hst : s.Alike t) : t.Fits a chunk := by
  have hneeds := hst.needsChecksum
  refine ⟨hst.ready h.ready, ?_, ?_, ?_, ?_, ?_⟩
  · rw [hst.maxChunk]
    exact h.maxChunk_pos
  · rw [hst.attempts]
    exact h.attempts_pos
  · rw [hst.maxChunk, hneeds]
    exact h.maxChunk_eq
  · rw [hst.checksum, hneeds]
    exact h.checksum_eq
  · rw [hst.room, hneeds]
    exact h.room

/-- What a fetch from undamaged replicas comes to: the end of the data, or a part of it. -/
inductive Fetched (chunk : Nat) (data : Bytes) (position : Nat) (target : Target) (size : Nat)
    (s : Session Replicas) : Option Nat → Session Replicas → Prop where
  | ended (x : Replicas) :
      data.length ≤ position → s.source.Reread x →
      Fetched chunk data position target size s none { s with source := x }
  | part (n : Nat) (sums : Bytes) (x : Replicas) :
      0 < n → n ≤ size → position + n ≤ data.length →
      (s.stream.needsChecksum → (position + n) % chunk = 0 ∨ position + n = data.length) →
      s.source.Reread x →
      Fetched chunk data position target size s (some n)
        ((s.received target (Bytes.slice position n data) sums x).advanced n)

end Stream

namespace Replicas.Hold

variable {a : Algorithm} {chunk : Nat} {data : Bytes} {s : Session Replicas} {position : Nat}
  {target : Stream.Target} {size : Nat}

/-- An attempt at undamaged replicas finds no damage. -/
theorem tried (h : s.source.Hold a chunk data) (hfits : s.stream.Fits a chunk)
    (hposition : s.stream.next = position)
    (haligned : s.stream.needsChecksum → position % chunk = 0 ∨ data.length ≤ position)
    (hsize : 0 < size) (hwhole : s.stream.needsChecksum → chunk ≤ size)
    {r : Except StreamError Stream.Attempt} {t : Session Replicas}
    (htried : Stream.Tried source target size s r t) :
    (r = .ok .ended ∧ Stream.Fetched chunk data position target size s none t) ∨
      ∃ n, r = .ok (.passed n) ∧ Stream.Fetched chunk data position target size s (some n) t := by
  have hverified : ∀ capacity, (s.stream.ask size).capacity = some capacity →
      capacity = chunksPerRead * sumWidth ∧ chunk ≤ size ∧
        (position % chunk = 0 ∨ data.length ≤ position) := by
    intro capacity hcapacity
    have hneeds : s.stream.needsChecksum := by
      rw [← Stream.isSome_capacity]
      exact Option.isSome_of_eq_some hcapacity
    have hroom : s.stream.capacity = some s.stream.sums.length := if_pos hneeds
    obtain rfl : s.stream.sums.length = capacity := Option.some.inj (hroom.symm.trans hcapacity)
    exact ⟨hfits.room hneeds, hwhole hneeds, haligned hneeds⟩
  have hanswered := ends_read s.source (s.stream.ask size)
  have hchecked : ∀ {n : Nat} {bytes sums : Bytes},
      ((s.stream.ask size).capacity.isSome → Checked a chunk data position n bytes sums) →
      s.stream.needsChecksum → Checked a chunk data position n bytes sums := by
    intro n bytes sums hsome hneeds
    exact hsome ((Stream.isSome_capacity s.stream).trans hneeds)
  cases htried with
  | refused e x hread => cases h.supplied hposition hsize hverified (hanswered.error hread).1
  | ended below x hread =>
      have hsupplied := h.supplied hposition hsize hverified (hanswered.ok hread).1
      cases hsupplied with
      | ended hend => exact .inl ⟨rfl, .ended x hend (hanswered.ok hread).2⟩
  | empty sums x hread =>
      have hsupplied := h.supplied hposition hsize hverified (hanswered.ok hread).1
      cases hsupplied with
      | part n _ _ hbytes hpos _ hinside _ =>
          have hlength := congrArg List.length hbytes
          rw [Bytes.length_slice, List.length_nil] at hlength
          omega
  | crowded bytes sums x hread _ hcrowded =>
      have hsupplied := h.supplied hposition hsize hverified (hanswered.ok hread).1
      cases hsupplied with
      | part n _ _ hbytes _ _ hinside hsome =>
          refine absurd (fun hneeds => ?_) hcrowded
          have hlength : bytes.length = n := by
            rw [hbytes, Bytes.length_slice]
            omega
          rw [hlength, hfits.maxChunk_eq hneeds, hfits.room hneeds]
          exact Nat.mul_le_mul_right _ (hchecked hsome hneeds).count_le
  | passed bytes sums x hread =>
      have hsupplied := h.supplied hposition hsize hverified (hanswered.ok hread).1
      cases hsupplied with
      | part n _ _ hbytes hpos hle hinside hsome =>
          have hlength : bytes.length = n := by
            rw [hbytes, Bytes.length_slice]
            omega
          subst hbytes
          rw [hlength]
          exact .inr ⟨n, rfl, .part n sums x hpos hle hinside
            (fun hneeds => (hchecked hsome hneeds).whole) (hanswered.ok hread).2⟩
  | damaged bytes sums x mismatch hread _ hroom hmismatch =>
      have hsupplied := h.supplied hposition hsize hverified (hanswered.ok hread).1
      cases hsupplied with
      | part n _ _ hbytes _ _ hinside hsome =>
          have hlength : bytes.length = n := by
            rw [hbytes, Bytes.length_slice]
            omega
          have hnone : s.stream.verdict sums bytes = none := by
            cases hneeds : s.stream.needsChecksum with
            | false => exact Stream.verdict_of_not_needsChecksum hneeds _ _
            | true =>
                rw [Stream.verdict_eq_none hneeds (hfits.checksum_eq hneeds), hlength,
                  hfits.maxChunk_eq hneeds]
                exact (hchecked hsome hneeds).passes
          rw [Stream.mismatch?_received hroom, hnone] at hmismatch
          · cases hmismatch
          · intro hneeds
            rw [hlength, hfits.maxChunk_eq hneeds]
            exact (hchecked hsome hneeds).stored

/-- The first attempt at undamaged replicas settles a fetch. -/
theorem ends_attempt (h : s.source.Hold a chunk data) (hfits : s.stream.Fits a chunk)
    (hposition : s.stream.next = position)
    (haligned : s.stream.needsChecksum → position % chunk = 0 ∨ data.length ≤ position)
    (hsize : 0 < size) (hwhole : s.stream.needsChecksum → chunk ≤ size)
    (reseek : Int → StreamM Replicas Unit) {attempts : Nat} (hattempts : 0 < attempts) :
    Ends (Stream.attempt source reseek target size attempts) s
      (Stream.Fetched chunk data position target size s) (fun _ _ => False) := by
  have htried := fun r t (ht : Stream.Tried source target size s r t) =>
    h.tried hfits hposition haligned hsize hwhole ht
  cases attempts with
  | zero => exact absurd hattempts (Nat.lt_irrefl 0)
  | succ left =>
      refine Stream.ends_attempt_succ hfits.ready ?ended ?passed ?failed ?last ?alone ?retried
      case ended =>
        intro t ht
        obtain ⟨-, hfetched⟩ | ⟨n, hn, -⟩ := htried _ t ht
        · exact hfetched
        · cases hn
      case passed =>
        intro count t ht
        obtain ⟨hn, -⟩ | ⟨n, hn, hfetched⟩ := htried _ t ht
        · cases hn
        · cases hn
          exact hfetched
      case failed =>
        intro e t ht
        obtain ⟨hn, -⟩ | ⟨n, hn, -⟩ := htried _ t ht <;> cases hn
      case last =>
        intro _ bytes mismatch t ht
        obtain ⟨hn, -⟩ | ⟨n, hn, -⟩ := htried _ t ht <;> cases hn
      case alone =>
        intro _ bytes mismatch t ht
        obtain ⟨hn, -⟩ | ⟨n, hn, -⟩ := htried _ t ht <;> cases hn
      case retried =>
        intro _ bytes mismatch t ht
        obtain ⟨hn, -⟩ | ⟨n, hn, -⟩ := htried _ t ht <;> cases hn

/-- A fetch from undamaged replicas gives the end of the data or a part of it. -/
theorem ends_fetchWith (h : s.source.Hold a chunk data) (hfits : s.stream.Fits a chunk)
    (hposition : s.stream.next = position)
    (haligned : s.stream.needsChecksum → position % chunk = 0 ∨ data.length ≤ position)
    (hsize : 0 < size) (hwhole : s.stream.needsChecksum → chunk ≤ size)
    (reseek : Int → StreamM Replicas Unit) :
    Ends (Stream.fetchWith source reseek target size) s
      (Stream.Fetched chunk data position target size s.cleared) (fun _ _ => False) := by
  rw [Stream.ends_fetchWith]
  exact ends_attempt (s := s.cleared) h (hfits.alike s.alike_cleared) hposition haligned hsize
    hwhole reseek hfits.attempts_pos

end Replicas.Hold

end ChunkGuard
