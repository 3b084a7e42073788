import ChunkGuard.Proofs.Burst
import ChunkGuard.Proofs.Handing
import ChunkGuard.Proofs.Integrity
import ChunkGuard.Proofs.Refinement

/-!
# Scratched replicas

A replica is scratched if it has the size and the sidecar of the data, and in each chunk all of its
damage is inside of four bytes in a row. A scratched chunk that passes is undamaged
(`Replica.Scratched.getElem?_eq`), for so little damage changes every checksum. So a stream that
verifies hands out the data itself, however many of its replicas are scratched
(`handed_eq_of_scratched`).
-/

namespace ChunkGuard

open Session

/-- The replica has the size of the data, the sidecar of a replica that holds the data, and in each
chunk no damage but in four bytes in a row. -/
structure Replica.Scratched (a : Algorithm) (chunk : Nat) (data : Bytes) (r : Replica) : Prop where
  length : r.data.bytes.length = data.length
  sums : ∃ whole : Replica, whole.Holds a chunk data ∧ r.sums.bytes = whole.sums.bytes
  near : ∀ index, ∃ start, ∀ offset, offset / chunk = index →
    offset < start ∨ start + 4 ≤ offset → r.data.bytes[offset]? = data[offset]?

namespace Replica.Scratched

variable {a : Algorithm} {chunk : Nat} {data : Bytes} {r r' : Replica}

/-- Only the bytes matter. -/
theorem of_bytes (h : r.Scratched a chunk data) (hdata : r'.data.bytes = r.data.bytes)
    (hsums : r'.sums.bytes = r.sums.bytes) : r'.Scratched a chunk data := by
  obtain ⟨whole, hholds, hwhole⟩ := h.sums
  refine ⟨by rw [hdata, h.length], ⟨whole, hholds, hsums.trans hwhole⟩, fun index => ?_⟩
  rw [hdata]
  exact h.near index

/-- A chunk that passes is as in the data. -/
theorem slice_eq (h : r.Scratched a chunk data) (hchunk : 0 < chunk) {index : Nat}
    (hindex : index < Chunk.count data.length chunk)
    (hpasses : Chunk.Passes a chunk r.sums.bytes r.data.bytes index) :
    Bytes.slice (index * chunk) chunk r.data.bytes = Bytes.slice (index * chunk) chunk data := by
  obtain ⟨whole, hholds, hwhole⟩ := h.sums
  obtain ⟨start, hstart⟩ := h.near index
  rw [hwhole, hholds.sums_eq] at hpasses
  have hsum : a.sum (Bytes.slice (index * chunk) chunk r.data.bytes) =
      a.sum (Bytes.slice (index * chunk) chunk data) :=
    Eq.trans hpasses (Sidecar.passes_ofBytes hindex).symm
  refine Algorithm.eq_of_sum_eq ?_ (start - index * chunk) (fun i hi => ?_) hsum
  · rw [Bytes.length_slice, Bytes.length_slice, h.length]
  · rw [Bytes.getElem?_slice, Bytes.getElem?_slice]
    split
    · have hchunk : (index * chunk + i) / chunk = index := by
        rw [Nat.mul_comm, Nat.mul_add_div hchunk, Nat.div_eq_of_lt (by assumption), Nat.add_zero]
      exact hstart _ hchunk (by omega)
    · rfl

/-- Every byte of a chunk that passes is as in the data. -/
theorem getElem?_eq (h : r.Scratched a chunk data) (hchunk : 0 < chunk)
    (hsize : data.length + chunk ≤ Word.count) {offset : Nat}
    (hpasses : Chunk.Passes a chunk r.sums.bytes r.data.bytes (offset / chunk)) :
    r.data.bytes[offset]? = data[offset]? := by
  by_cases hinside : offset < data.length
  · have hindex : offset / chunk < Chunk.count data.length chunk :=
      (Chunk.lt_count_iff hchunk hsize).mpr
        (Nat.lt_of_le_of_lt (Nat.div_mul_le_self _ _) hinside)
    have hbyte := congrArg (·[offset % chunk]?) (h.slice_eq hchunk hindex hpasses)
    have hwhere : offset / chunk * chunk + offset % chunk = offset := Nat.div_add_mod' offset chunk
    simpa only [Bytes.getElem?_slice, if_pos (Nat.mod_lt offset hchunk), hwhere] using hbyte
  · rw [List.getElem?_eq_none (h.length ▸ Nat.le_of_not_lt hinside),
      List.getElem?_eq_none (Nat.le_of_not_lt hinside)]

end Replica.Scratched

/-- The stream verifies, and all of its replicas are scratched. -/
structure Session.Scratched (a : Algorithm) (chunk : Nat) (data : Bytes)
    (s : Session (Recorded Replicas)) : Prop where
  needs : s.stream.needsChecksum
  inOrder : s.source.state.InOrder
  replicas : ∀ i < s.source.state.list.length, (s.source.state.get i).Scratched a chunk data

namespace Session.Scratched

variable {a : Algorithm} {chunk : Nat} {data : Bytes} {s t : Session (Recorded Replicas)}

theorem moved (h : s.Scratched a chunk data) {r : Replicas} (hr : s.source.state.Moved r)
    {i : Nat} (hi : i < r.list.length) : (r.get i).Scratched a chunk data :=
  (h.replicas i (hr.length ▸ hi)).of_bytes (hr.data i) (hr.sums i)

theorem kept (h : s.Scratched a chunk data) (hst : s.Kept Recorded.Grown t) :
    t.Scratched a chunk data where
  needs := hst.stream.needsChecksum.trans h.needs
  inOrder := hst.source.moved.inOrder h.inOrder
  replicas _ hi := h.moved hst.source.moved hi

/-- Turning verification on where it is on changes nothing. -/
theorem setVerify (h : s.Scratched a chunk data) :
    Scratched a chunk data { s with stream := { s.stream with verify := true } } := by
  have hneeds := h.needs
  rw [Stream.needsChecksum, Bool.and_eq_true] at hneeds
  exact ⟨hneeds.2, h.inOrder, h.replicas⟩

/-- What is brought from scratched replicas is what the data has there. -/
theorem evidence (hchunk : 0 < chunk) (hsize : data.length + chunk ≤ Word.count) :
    Evidence (some a) chunk (fun offset byte _ => data[offset]? = some byte)
      (Scratched a chunk data) where
  brought h hbrought := by
    obtain ⟨before, request, bytes, sums, -, hdelivers, -, hmoved, hasked⟩ := hbrought
    obtain ⟨-, algorithm, hsome, hpasses⟩ := hdelivers.passes (hasked.trans h.needs)
    obtain rfl := Option.mem_some.mp hsome
    have hscratched := h.moved hmoved (hmoved.inOrder h.inOrder).current_lt
    exact (hscratched.getElem?_eq hchunk hsize hpasses).symm.trans hdelivers.stored
  since h _ _ := h
  kept := kept

end Session.Scratched

/-- Damage inside of four bytes in a row changes every checksum. So from replicas whose damage is no
more than that in each chunk, a stream that always verifies hands out the bytes that the data has
where they were read, in every session of a run and by every operation. -/
theorem handed_eq_of_scratched (a : Algorithm) :
    (∀ (x y : Bytes) (start : Nat), x.length = y.length →
      (∀ i, i < start ∨ start + 4 ≤ i → x[i]? = y[i]?) → a.sum x = a.sum y → x = y) ∧
    ∀ {data : Bytes} {options : Options} {list : List Replica} {replicas : Replicas}
      {stream : Stream} {t : Session (Recorded Replicas)},
      data.length < Word.half → options.maxChunk < Word.half →
      (∀ r ∈ list, r.Scratched a options.maxChunk data) →
      Replicas.ofList? (list.map Replica.storages) options.maxChunk = .ok replicas →
      Stream.ofOptions? (some a) options = .ok stream → options.verify = true →
      Session.Reaches Replicas.source.recorded
        (fun operation => operation.Fits ∧ operation ≠ .setVerify false) (fun _ _ => False)
        { stream, source := { state := replicas } } t →
      ∀ (operation : Operation) (outcome : Outcome) (u : Session (Recorded Replicas)),
        operation.Fits → operation.perform Replicas.source.recorded t = .ok outcome u →
        ∀ i byte, (operation.handed outcome u)[i]? = some byte →
          ∃ offset, operation.ReadsAt t i offset ∧ data[offset]? = some byte := by
  refine ⟨fun x y start hlength hsame hsum => Algorithm.eq_of_sum_eq hlength start hsame hsum, ?_⟩
  intro data options list replicas stream t hdata hchunk hlist hreplicas hstream hverify ht
    operation outcome u hfits hu
  have hsize : data.length + options.maxChunk ≤ Word.count := by
    have hhalf : Word.half + Word.half = Word.count := rfl
    omega
  obtain ⟨hpos, -, hbuilt⟩ := Stream.eq_of_ofOptions? hstream
  obtain ⟨hlists, -⟩ := Replicas.eq_of_ofList? hreplicas
  have hlists : list = replicas.list :=
    (List.map_inj_right fun _ _ => Replica.storages_inj).mp hlists
  have hbacked := Backed.of_new (B := fun offset byte _ => data[offset]? = some byte) hreplicas
    hstream hchunk
  have hscratched : Scratched a options.maxChunk data { stream, source := { state := replicas } } := by
    refine ⟨?_, hbacked.matched.inOrder, fun i hi => ?_⟩
    · rw [hbuilt, Stream.needsChecksum, hverify]
      rfl
    · have hi : i < replicas.list.length := hi
      show (replicas.get i).Scratched _ _ _
      rw [Replicas.get_eq_getElem hi]
      exact hlist _ (hlists ▸ List.getElem_mem hi)
  have hevidence := Scratched.evidence (a := a) hpos hsize
  obtain ⟨hbacked, hscratched⟩ := ht.keeps (I := fun s => s.Backed _ _ _ ∧ s.Scratched a _ data)
    ⟨hbacked, hscratched⟩
    (fun operation hallowed => Backed.keeps hevidence hallowed.1 fun verify hoperation s hs => by
      cases verify with
      | false => exact absurd hoperation hallowed.2
      | true => exact hs.setVerify)
    (fun _ _ _ hfalse => hfalse.elim)
  exact (Backed.ends_handed hevidence (fun _ _ _ _ h _ => h) hscratched hbacked hfits).ok hu

/-- A read from two scratched replicas gives the data, with the damaged byte from the second. -/
theorem handed_from_scratched :
    ∃ replicas stream,
      Replicas.ofList?
        ([⟨{ bytes := [7, 2, 3] }, { bytes := Sidecar.ofBytes .crc32 2 [1, 2, 3] }⟩,
          Replica.ofBytes .crc32 2 [1, 2, 3]].map Replica.storages) 2 = .ok replicas ∧
      Stream.ofOptions? (some .crc32) { maxChunk := 2 } = .ok stream ∧
      Ends ((Operation.read (Bytes.zeros 3) 0 3).perform Replicas.source.recorded)
        { stream, source := { state := replicas } }
        (fun outcome u => outcome = .count 3 ∧ ∀ (i : Nat) (byte : UInt8),
          ((Operation.read (Bytes.zeros 3) 0 3).handed outcome u)[i]? = some byte →
            ([1, 2, 3] : Bytes)[i]? = some byte)
        (fun _ _ => False) := by
  have hscratched : ∀ r ∈ [⟨{ bytes := [7, 2, 3] },
      { bytes := Sidecar.ofBytes .crc32 2 [1, 2, 3] }⟩, Replica.ofBytes .crc32 2 [1, 2, 3]],
      r.Scratched .crc32 2 [1, 2, 3] := by
    have hholds : (Replica.ofBytes .crc32 2 [1, 2, 3]).Holds .crc32 2 [1, 2, 3] :=
      Replica.holds_ofBytes _ _ _
    intro r hr
    obtain rfl | hr := List.mem_cons.mp hr
    · refine ⟨rfl, ⟨_, hholds, rfl⟩, fun index => ⟨0, fun offset _ hfar => ?_⟩⟩
      rw [List.getElem?_eq_none, List.getElem?_eq_none]
      · show 3 ≤ offset
        omega
      · show 3 ≤ offset
        omega
    · obtain rfl := List.mem_singleton.mp hr
      exact ⟨rfl, ⟨_, hholds, rfl⟩, fun _ => ⟨0, fun _ _ _ => rfl⟩⟩
  have hreplicas : Replicas.ofList?
      ([⟨{ bytes := [7, 2, 3] }, { bytes := Sidecar.ofBytes .crc32 2 [1, 2, 3] }⟩,
        Replica.ofBytes .crc32 2 [1, 2, 3]].map Replica.storages) 2 = .ok _ := rfl
  have hstream : Stream.ofOptions? (some .crc32) { maxChunk := 2 } = .ok _ := rfl
  refine ⟨_, _, hreplicas, hstream, ?_⟩
  generalize hs : Session.mk _ (Recorded.mk _ []) [] [] = s
  have hrun : s.stream.position = 0 ∧
      Ends ((Operation.read (Bytes.zeros 3) 0 3).perform Replicas.source.recorded) s
        (fun outcome _ => outcome = .count 3) (fun _ _ => False) := by
    rw [← hs]
    decide +kernel
  obtain ⟨hposition, hrun⟩ := hrun
  obtain ⟨outcome, u, hu, rfl⟩ := hrun.exists_ok
  refine .of_ok hu ⟨rfl, fun i byte hi => ?_⟩
  obtain ⟨offset, hoffset, hbyte⟩ := (handed_eq_of_scratched .crc32).2 (by decide) (by decide)
    hscratched hreplicas hstream rfl (hs ▸ .refl) _ _ u
    (fun buffer hbuffer => by cases hbuffer; decide) hu i byte hi
  have hoffset : offset = s.stream.position.toNat + i := hoffset
  rw [hoffset, hposition] at hbyte
  simpa using hbyte

end ChunkGuard
