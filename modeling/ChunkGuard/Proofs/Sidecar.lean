import ChunkGuard.Checksum.Sidecar
import ChunkGuard.Proofs.Chunks
import ChunkGuard.Proofs.Ends

/-!
# What writing a sidecar leaves

The loop over the chunks keeps `Sidecar.Written`, whatever kind of storage the data and the checksums
are in, as long as these serve as strings of bytes (`Storing.Serves`, `Storing.Holds`). So writing
leaves exactly `Sidecar.ofBytes` in the target, the running checksum fresh, and the data read once for
each chunk (`Sidecar.ends_write`). Against that string every chunk of the data passes
(`Sidecar.passes_ofBytes`), and `Sidecar.write_sidecar` says byte by byte what it is for storages in
memory.
-/

namespace ChunkGuard

namespace Sidecar

variable {a : Algorithm} {chunk : Nat} {data : Bytes}

/-- A sidecar has four bytes for each chunk. -/
theorem length_ofBytes (a : Algorithm) (chunk : Nat) (data : Bytes) :
    (ofBytes a chunk data).length = sumWidth * Chunk.count data.length chunk := by
  have hparts : ∀ parts : List Bytes,
      (parts.flatMap fun bytes => Stored.store (a.sum bytes)).length = sumWidth * parts.length := by
    intro parts
    induction parts with
    | nil => rfl
    | cons part parts ih =>
        rw [List.flatMap_cons, List.length_append, ih, Stored.length_store, List.length_cons,
          Nat.mul_succ, Nat.add_comm, sumWidth]
  rw [ofBytes, hparts, chunks, List.length_map, List.length_range]

/-- The four bytes at an index are those of the chunk's checksum. -/
theorem getElem?_ofBytes {index k : Nat} (hindex : index < Chunk.count data.length chunk)
    (hk : k < sumWidth) :
    (ofBytes a chunk data)[sumWidth * index + k]? =
      (Stored.store (a.sum (Bytes.slice (index * chunk) chunk data)))[k]? := by
  have hlength : ∀ bytes, (Stored.store (a.sum bytes)).length = sumWidth :=
    fun bytes => Stored.length_store (a.sum bytes)
  rw [ofBytes, Bytes.getElem?_flatMap hlength _ _ hk, chunks, List.getElem?_map,
    List.getElem?_range hindex]
  rfl

/-- Every chunk of some data passes against the data's sidecar. -/
theorem passes_ofBytes {index : Nat} (hindex : index < Chunk.count data.length chunk) :
    Chunk.Passes a chunk (ofBytes a chunk data) data index := by
  have hload : Stored.loadAt index (ofBytes a chunk data) =
      Stored.loadAt 0 (Stored.store (a.sum (Bytes.slice (index * chunk) chunk data))) :=
    Stored.loadAt_congr fun k hk => by
      rw [getElem?_ofBytes hindex hk, Nat.mul_zero, Nat.zero_add]
  have hstore := Stored.load_store (a.sum (Bytes.slice (index * chunk) chunk data)) []
  rw [List.append_nil] at hstore
  exact (hload.trans hstore).symm

end Sidecar

/-! ## Storages as strings of bytes -/

namespace Storing

variable {ρ : Type} [Storing ρ]

/-- The states of a storage that is only read: each of them has the bytes, and a read inside of them
leads to the next one. -/
structure Serves (bytes : Bytes) (state : Nat → ρ) : Prop where
  size_eq : ∀ reads, size (state reads) = bytes.length
  read_eq : ∀ {reads offset size : Nat}, offset + size ≤ bytes.length →
    read offset size (state reads) = .ok (Bytes.slice offset size bytes) (state (reads + 1))

/-- What it is for a storage to hold bytes: it can be resized up to a limit, and written to inside of
them, and holds the bytes resized or written to then. -/
structure Holds (limit : Nat) (holds : Bytes → ρ → Prop) : Prop where
  ends_resize : ∀ {n bytes s}, n ≤ limit → holds bytes s →
    Ends (resize n) s (fun _ => holds (Bytes.resize n bytes)) (fun _ _ => False)
  ends_write : ∀ {offset src bytes s}, src ≠ [] → offset + src.length ≤ bytes.length →
    holds bytes s →
    Ends (write offset src) s (fun _ => holds (Bytes.write offset src bytes)) (fun _ _ => False)

end Storing

/-- A storage counts its reads. -/
theorem Storage.serves (s : Storage) :
    Storing.Serves s.bytes fun reads => { s with reads := s.reads + reads } where
  size_eq _ := rfl
  read_eq h := read_eq_ok h

/-- A storage is resized and written to as its bytes are, whatever their number. -/
theorem Storage.holds (s : Storage) (limit : Nat) :
    Storing.Holds limit fun bytes t => t = { s with bytes } where
  ends_resize := by
    rintro n bytes _ - rfl
    rfl
  ends_write := by
    rintro offset src bytes _ - - rfl
    rfl

namespace Sidecar

/-! ## The loop over the chunks -/

section Loop

variable {ρ : Type} {a : Algorithm} {chunk limit : Nat} {data : Bytes}
  {state : Nat → ρ} {holds : Bytes → ρ → Prop} {desk : Desk ρ} {done : Nat}

/-- The sums of the first chunks are in the target, which has room for all of them. For each of these
chunks the data was read once. -/
structure Written (a : Algorithm) (chunk : Nat) (data : Bytes) (state : Nat → ρ)
    (holds : Bytes → ρ → Prop) (done : Nat) (desk : Desk ρ) : Prop where
  data_eq : desk.data = state done
  checksum_eq : desk.checksum = .ofAlgorithm a
  target : ∃ bytes, holds bytes desk.target ∧
    bytes.length = sumWidth * Chunk.count data.length chunk ∧
    ∀ i < sumWidth * done, bytes[i]? = (ofBytes a chunk data)[i]?

/-- Before the first chunk the target has the size of the sidecar. -/
theorem Written.of_resized {bytes : Bytes}
    (htarget : holds (Bytes.resize (sumWidth * Chunk.count data.length chunk) bytes) desk.target)
    (hdata : desk.data = state 0) (hchecksum : desk.checksum = .ofAlgorithm a) :
    Written a chunk data state holds 0 desk :=
  ⟨hdata, hchecksum, _, htarget, Bytes.length_resize _ _,
    fun i hi => absurd hi (Nat.not_lt_zero i)⟩

/-- When the sums of all chunks are in the target, nothing else is. -/
theorem Written.holds_ofBytes
    (h : Written a chunk data state holds (Chunk.count data.length chunk) desk) :
    holds (ofBytes a chunk data) desk.target := by
  obtain ⟨bytes, hholds, hlength, hsums⟩ := h.target
  have hbytes : bytes = ofBytes a chunk data := by
    refine List.ext_getElem? fun i => ?_
    by_cases hi : i < sumWidth * Chunk.count data.length chunk
    · exact hsums i hi
    · rw [List.getElem?_eq_none (by rw [hlength]; omega),
        List.getElem?_eq_none (by rw [length_ofBytes]; omega)]
  rw [← hbytes]
  exact hholds

/-- A sum that is written behind those of the chunks before it. -/
theorem getElem?_write_sum {bytes : Bytes}
    (hlength : bytes.length = sumWidth * Chunk.count data.length chunk)
    (hsums : ∀ i < sumWidth * done, bytes[i]? = (ofBytes a chunk data)[i]?)
    (hdone : done < Chunk.count data.length chunk) {i : Nat} (hi : i < sumWidth * (done + 1)) :
    (Bytes.write (sumWidth * done)
        (Stored.store (a.sum (Bytes.slice (done * chunk) chunk data))) bytes)[i]? =
      (ofBytes a chunk data)[i]? := by
  have hroom : sumWidth * done ≤ bytes.length :=
    hlength ▸ Nat.mul_le_mul_left _ (Nat.le_of_lt hdone)
  have hnext : sumWidth * (done + 1) = sumWidth * done + 4 := rfl
  rw [Bytes.getElem?_write, Stored.length_store]
  by_cases hold : i < sumWidth * done
  · rw [if_pos hold, ← hsums i hold, List.getD_eq_getElem?_getD,
      List.getElem?_eq_getElem (by omega), Option.getD_some]
  · obtain ⟨k, rfl⟩ : ∃ k, i = sumWidth * done + k := ⟨i - sumWidth * done, by omega⟩
    have hk : k < sumWidth := by
      show k < 4
      omega
    rw [if_neg hold, if_pos (by omega), Nat.add_sub_cancel_left, getElem?_ofBytes hdone hk]

section Sized

variable [Storing ρ] (hserves : Storing.Serves data state) (hholds : Storing.Holds limit holds)
  (hchunk : 0 < chunk) (hsize : data.length + chunk ≤ Word.count)
  (hsums : sumWidth * Chunk.count data.length chunk < Word.count)
include hserves hholds hchunk hsize hsums

/-- One step of the loop reads one chunk and writes its sum. -/
theorem Written.ends_writeChunk (h : Written a chunk data state holds done desk)
    (hdone : done < Chunk.count data.length chunk) :
    Ends (writeChunk chunk done) desk (fun _ => Written a chunk data state holds (done + 1))
      (fun _ _ => False) := by
  obtain ⟨bytes, hbytes, hlength, hwritten⟩ := h.target
  have hinside := (Chunk.lt_count_iff hchunk hsize).mp hdone
  have hread : done * chunk + min chunk (data.length - done * chunk) ≤ data.length := by omega
  have hplace : sumWidth * done % Word.count = sumWidth * done :=
    Nat.mod_eq_of_lt (Nat.lt_of_le_of_lt (Nat.mul_le_mul_left _ (Nat.le_of_lt hdone)) hsums)
  simp only [writeChunk, onData, onTarget, ends_bind, ends_get, ends_focus, ends_modify, h.data_eq,
    hserves.size_eq, hplace]
  refine .of_ok (hserves.read_eq hread) ?_
  have hvalue : (desk.checksum.update
        (Bytes.slice (done * chunk) (min chunk (data.length - done * chunk)) data)).value =
      a.sum (Bytes.slice (done * chunk) chunk data) := by
    rw [Bytes.slice_min, h.checksum_eq]
    exact Checksum.value_update_fresh (Checksum.isFresh_reset (.ofAlgorithm a)) _
  rw [hvalue]
  have hstored : (Stored.store (a.sum (Bytes.slice (done * chunk) chunk data))).length = sumWidth :=
    Stored.length_store _
  have hroom : sumWidth * done + sumWidth ≤ bytes.length := by
    rw [hlength, ← Nat.mul_succ]
    exact Nat.mul_le_mul_left _ hdone
  refine (hholds.ends_write (List.ne_nil_of_length_pos (hstored ▸ Nat.zero_lt_succ 3))
    (hstored ▸ hroom) hbytes).mono (fun _ t ht => ⟨rfl, ?_, _, ht, ?_, fun i hi => ?_⟩)
    (fun _ _ hfalse => hfalse)
  · show Checksum.ofAlgorithm desk.checksum.algorithm = _
    rw [h.checksum_eq]
    rfl
  · rw [Bytes.length_write, hstored, Nat.max_eq_right hroom, hlength]
  · exact getElem?_write_sum hlength hwritten hdone hi

/-- The steps of the loop from one chunk on. -/
theorem Written.ends_writeChunks {left : Nat} (h : Written a chunk data state holds done desk)
    (hleft : done + left ≤ Chunk.count data.length chunk) :
    Ends (writeChunks chunk left done) desk
      (fun _ => Written a chunk data state holds (done + left)) (fun _ _ => False) := by
  induction left generalizing done desk with
  | zero => exact h
  | succ left ih =>
      rw [writeChunks, ends_bind]
      refine (h.ends_writeChunk hserves hholds hchunk hsize hsums (by omega)).mono
        (fun _ t ht => ?_) (fun _ _ hfalse => hfalse)
      rw [← Nat.add_left_comm, Nat.add_comm left]
      exact ih ht (by omega)

end Sized

/-! ## The whole sidecar -/

/-- Writing the sidecar of some data doesn't fail, leaves the sidecar in the target and the running
checksum fresh, whatever either held before. -/
theorem ends_write [Storing ρ] (hserves : Storing.Serves data state) (hholds : Storing.Holds limit holds)
    (hchunk : 0 < chunk) (hhalf : chunk < Word.half) (hsize : data.length + chunk ≤ Word.count)
    (hsums : sumWidth * Chunk.count data.length chunk < Word.count)
    (hlimit : sumWidth * Chunk.count data.length chunk ≤ limit) {old : Bytes}
    (hdata : desk.data = state 0) (htarget : holds old desk.target) :
    Ends (write chunk) desk
      (fun _ t => t.data = state (Chunk.count data.length chunk) ∧
        holds (ofBytes desk.checksum.algorithm chunk data) t.target ∧
        t.checksum = .ofAlgorithm desk.checksum.algorithm)
      (fun _ _ => False) := by
  have hcount : sumWidth * Chunk.count data.length chunk % Word.count =
      sumWidth * Chunk.count data.length chunk := Nat.mod_eq_of_lt hsums
  simp only [write, onTarget, ends_ite, ends_bind, ends_throw, ends_get, ends_modify,
    ends_adaptExcept, ends_focus, hdata, hserves.size_eq, hcount]
  refine ⟨fun hzero => absurd hzero (Nat.ne_of_gt hchunk), fun _ => ?_⟩
  refine (hholds.ends_resize hlimit htarget).mono (fun _ target ht => ?_)
    (fun _ _ hfalse => hfalse)
  refine ⟨fun hlong => absurd hhalf (Nat.not_lt_of_le hlong), fun _ => ?_⟩
  have hstart : Written desk.checksum.algorithm chunk data state holds 0
      { desk with data := state 0, target, checksum := desk.checksum.reset } :=
    .of_resized ht rfl rfl
  refine (hstart.ends_writeChunks hserves hholds hchunk hsize hsums
    (Nat.le_of_eq (Nat.zero_add _))).mono (fun _ t hwritten => ?_) (fun _ _ hfalse => hfalse)
  rw [Nat.zero_add] at hwritten
  exact ⟨hwritten.data_eq, hwritten.holds_ofBytes, hwritten.checksum_eq⟩

end Loop

/-! ## Sidecars in memory -/

/-- The desk with the target at its size and the checksum fresh. -/
def Desk.cleared (chunk : Nat) (desk : Desk) : Desk :=
  { desk with
    target := desk.target.resize (sumWidth * Chunk.count desk.data.size chunk)
    checksum := desk.checksum.reset }

/-- The desk with the sidecar written. -/
def Desk.written (chunk : Nat) (desk : Desk) : Desk :=
  { data := { desk.data with reads := desk.data.reads + Chunk.count desk.data.size chunk }
    target := { desk.target with bytes := ofBytes desk.checksum.algorithm chunk desk.data.bytes }
    checksum := desk.checksum.reset }

/-- Chunks of no bytes are refused. -/
theorem write_zero (desk : Desk) : write 0 desk = .error (.stream .emptySidecarChunks) desk := rfl

section Whole

variable {chunk : Nat} {desk : Desk} (hchunk : 0 < chunk)
  (hsize : desk.data.bytes.length + chunk ≤ Word.count)
  (hsums : sumWidth * Chunk.count desk.data.bytes.length chunk < Word.count)
include hchunk hsize hsums

/-- Writing the sidecar of chunks that a buffer has room for leaves it. -/
theorem write_eq_ok (hhalf : chunk < Word.half) : write chunk desk = .ok () (desk.written chunk) := by
  have htarget : desk.target = { desk.target with bytes := desk.target.bytes } := rfl
  obtain ⟨_, t, hwrite, hdata, htarget, hchecksum⟩ := (ends_write desk.data.serves
    (desk.target.holds _) hchunk hhalf hsize hsums (Nat.le_refl _) rfl htarget).exists_ok
  have ht : t = desk.written chunk := by
    calc t
      _ = ⟨t.data, t.target, t.checksum⟩ := rfl
      _ = desk.written chunk := by
          rw [hdata, htarget, hchecksum]
          rfl
  rw [hwrite, ht]

end Whole

variable {a : Algorithm} {chunk : Nat} {data : Bytes}

end Sidecar

end ChunkGuard
