import ChunkGuard.Proofs.Attempt
import ChunkGuard.Proofs.Chunks

/-!
# What is found about a reply

A stream compares the bytes of a reply with the checksums in its own buffer, where those of the
reply lie over older ones. As long as the reply brought enough of them, the older ones don't
matter: what is found is the `Stream.verdict` about the reply itself (`mismatch?_received`).
-/

namespace ChunkGuard

namespace Chunk

variable {a : Algorithm} {chunk : Nat} {x y data : Bytes} {start : Int} {count : Nat}

theorem passes_congr {index : Nat} (h : Stored.loadAt index x = Stored.loadAt index y) :
    Passes a chunk x data index ↔ Passes a chunk y data index := by
  rw [Passes, Passes, h]

/-- Only the checksums of the chunks compared matter. -/
theorem firstFailing_congr (h : ∀ index < count, Stored.loadAt index x = Stored.loadAt index y) :
    (firstFailing a chunk x data 0 count).map (mismatchAt a chunk x data start) =
      (firstFailing a chunk y data 0 count).map (mismatchAt a chunk y data start) := by
  cases hy : firstFailing a chunk y data 0 count with
  | none =>
      have hall := firstFailing_eq_none.mp hy
      have hx : firstFailing a chunk x data 0 count = none :=
        firstFailing_eq_none.mpr fun i hi => (passes_congr (h i hi)).mpr (hall i hi)
      rw [hx, Option.map_none, Option.map_none]
  | some i =>
      obtain ⟨hi, hfails, hbefore⟩ := firstFailing_eq_some.mp hy
      have hx : firstFailing a chunk x data 0 count = some i := by
        refine firstFailing_eq_some.mpr ⟨hi, fun hpasses => hfails ?_, fun j hj => ?_⟩
        · exact (passes_congr (h i hi)).mp hpasses
        · exact (passes_congr (h j (Nat.lt_trans hj hi))).mpr (hbefore j hj)
      rw [hx, Option.map_some, Option.map_some, mismatchAt, mismatchAt, h i hi]

end Chunk

namespace Stream

/-- What a stream finds about bytes and the checksums that came with them. -/
def verdict (s : Stream) (sums bytes : Bytes) : Option Mismatch :=
  if s.needsChecksum then
    s.checksum.bind fun c =>
      (Chunk.firstFailing c.algorithm s.maxChunk sums bytes 0
        (Chunk.count bytes.length s.maxChunk)).map
        (Chunk.mismatchAt c.algorithm s.maxChunk sums bytes s.next)
  else none

theorem verdict_of_not_needsChecksum {s : Stream} (h : s.needsChecksum = false)
    (sums bytes : Bytes) : s.verdict sums bytes = none := by
  rw [verdict, h]
  rfl

theorem verdict_eq {s : Stream} {c : Checksum} (h : s.needsChecksum) (hc : s.checksum = some c)
    (sums bytes : Bytes) :
    s.verdict sums bytes =
      (Chunk.firstFailing c.algorithm s.maxChunk sums bytes 0
        (Chunk.count bytes.length s.maxChunk)).map
        (Chunk.mismatchAt c.algorithm s.maxChunk sums bytes s.next) := by
  rw [verdict, if_pos h, hc]
  rfl

/-- Nothing is found about bytes all of whose chunks pass, and only about these. -/
theorem verdict_eq_none {s : Stream} {c : Checksum} (h : s.needsChecksum)
    (hc : s.checksum = some c) {sums bytes : Bytes} :
    s.verdict sums bytes = none ↔
      ∀ index < Chunk.count bytes.length s.maxChunk,
        Chunk.Passes c.algorithm s.maxChunk sums bytes index := by
  rw [verdict_eq h hc, Option.map_eq_none_iff, Chunk.firstFailing_eq_none]

/-- What is found about a reply with enough checksums depends on the reply only. -/
theorem mismatch?_received {σ : Type} {s : Session σ} {target : Target} {data sums : Bytes} {x : σ}
    (hroom : s.stream.HasSums data.length)
    (hsums : s.stream.needsChecksum →
      Chunk.count data.length s.stream.maxChunk * sumWidth ≤ sums.length) :
    (s.received target data sums x).stream.mismatch? data = s.stream.verdict sums data := by
  have hreceived : (s.received target data sums x).stream.mismatch? data =
      (s.stream.keeping sums).mismatch? data := by
    cases target <;> rfl
  rw [hreceived, mismatch?, verdict]
  by_cases hneeds : s.stream.needsChecksum
  · have hkept : (s.stream.keeping sums).sums =
        Bytes.write 0 (sums.take s.stream.sums.length) s.stream.sums := if_pos hneeds
    have hkeeping : (s.stream.keeping sums).needsChecksum = s.stream.needsChecksum := rfl
    rw [hkeeping, if_pos hneeds, if_pos hneeds, hkept]
    refine congrArg (s.stream.checksum.bind ·) (funext fun c => ?_)
    refine Chunk.firstFailing_congr fun index hindex => ?_
    have hroom := hroom hneeds
    have hsums := hsums hneeds
    have hindex : (index + 1) * sumWidth ≤
        Chunk.count data.length s.stream.maxChunk * sumWidth := Nat.mul_le_mul_right _ hindex
    rw [Stored.loadAt_write (by rw [List.length_take]; omega)]
    refine Stored.loadAt_congr fun k hk => List.getElem?_take_of_lt ?_
    rw [Nat.mul_comm, Nat.mul_succ] at hindex
    omega
  · have hkeeping : (s.stream.keeping sums).needsChecksum = s.stream.needsChecksum := rfl
    rw [hkeeping, if_neg hneeds, if_neg hneeds]

end Stream

end ChunkGuard
