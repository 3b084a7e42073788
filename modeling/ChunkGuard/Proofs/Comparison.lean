import ChunkGuard.Stream.Fetch

/-!
# Comparing chunks with their checksums

A chunk passes when its checksum is the stored one (`Chunk.Passes`). The comparison that a stream
makes chunk by chunk finds the first chunk that doesn't pass, and leaves a fresh running checksum
as it was (`compareChunks_eq`).
-/

namespace ChunkGuard

/-- A reset changes nothing about a checksum that is fresh. -/
theorem Checksum.IsFresh.reset_eq {c : Checksum} (h : c.IsFresh) : c.reset = c := by
  cases c with
  | mk algorithm register =>
      have hregister : register = Algorithm.fresh := h
      rw [hregister]
      rfl

namespace Chunk

/-- Chunk number `index` of the data has the checksum that is stored at that index. -/
def Passes (a : Algorithm) (chunk : Nat) (sums data : Bytes) (index : Nat) : Prop :=
  a.sum (Bytes.slice (index * chunk) chunk data) = Stored.loadAt index sums

instance (a : Algorithm) (chunk : Nat) (sums data : Bytes) (index : Nat) :
    Decidable (Passes a chunk sums data index) :=
  inferInstanceAs (Decidable (_ = _))

/-- What is reported of chunk number `index` of data that starts at a position. -/
def mismatchAt (a : Algorithm) (chunk : Nat) (sums data : Bytes) (start : Int) (index : Nat) :
    Mismatch :=
  ⟨start + (index * chunk : Nat), Stored.loadAt index sums,
    a.sum (Bytes.slice (index * chunk) chunk data)⟩

/-- The first of the chunks from number `index` on that doesn't pass. -/
def firstFailing (a : Algorithm) (chunk : Nat) (sums data : Bytes) (index count : Nat) :
    Option Nat :=
  (List.range' index count).find? fun i => ¬ Passes a chunk sums data i

variable {a : Algorithm} {chunk : Nat} {sums data : Bytes} {count i : Nat}

theorem firstFailing_eq_none :
    firstFailing a chunk sums data 0 count = none ↔
      ∀ j < count, Passes a chunk sums data j := by
  simp [firstFailing, List.find?_eq_none, List.mem_range'_1]

theorem firstFailing_eq_some :
    firstFailing a chunk sums data 0 count = some i ↔
      i < count ∧ ¬ Passes a chunk sums data i ∧ ∀ j < i, Passes a chunk sums data j := by
  rw [firstFailing, ← List.range_eq_range', List.find?_range_eq_some]
  simp only [decide_eq_true_eq, List.mem_range, Bool.not_eq_eq_eq_not, Bool.not_true,
    decide_eq_false_iff_not, Decidable.not_not]
  constructor
  · rintro ⟨hfail, hlt, hpass⟩
    exact ⟨hlt, hfail, hpass⟩
  · rintro ⟨hlt, hfail, hpass⟩
    exact ⟨hfail, hlt, hpass⟩

end Chunk

namespace Stream

/-- From a fresh checksum, the comparison reports the first chunk that fails and leaves the
checksum fresh. -/
theorem compareChunks_eq {c : Checksum} (h : c.IsFresh) (chunk : Nat) (sums data : Bytes)
    (start : Int) (count index : Nat) :
    compareChunks chunk sums start count index (data.drop (index * chunk)) c =
      ((Chunk.firstFailing c.algorithm chunk sums data index count).map
        (Chunk.mismatchAt c.algorithm chunk sums data start), c) := by
  induction count generalizing index with
  | zero => rfl
  | succ count ih =>
      have htaken : (data.drop (index * chunk)).take chunk =
          Bytes.slice (index * chunk) chunk data := rfl
      have hrest : (data.drop (index * chunk)).drop chunk = data.drop ((index + 1) * chunk) := by
        rw [List.drop_drop, Nat.succ_mul]
      have hreset : (c.update (Bytes.slice (index * chunk) chunk data)).reset = c := h.reset_eq
      simp only [compareChunks, htaken, hrest, hreset, Checksum.value_update_fresh h,
        Chunk.firstFailing, List.range'_succ, List.find?_cons]
      by_cases hpass : Chunk.Passes c.algorithm chunk sums data index
      · have heq : Stored.loadAt index sums =
            c.algorithm.sum (Bytes.slice (index * chunk) chunk data) := hpass.symm
        rw [if_neg (Decidable.not_not.mpr heq), ih]
        simp [hpass, Chunk.firstFailing]
      · have hne : Stored.loadAt index sums ≠
            c.algorithm.sum (Bytes.slice (index * chunk) chunk data) := Ne.symm hpass
        rw [if_pos hne]
        simp [hpass, Chunk.mismatchAt]

end Stream

end ChunkGuard
